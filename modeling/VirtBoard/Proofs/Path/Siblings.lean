import Mathlib.Data.List.DropRight
import VirtBoard.Proofs.Path.Names

/-!
# Names next to a path

A path is cut behind its last slash, into a folder and a last name.  What a compilation makes stands
in the folder of its source: the expanded source, and the binary.
-/

namespace VirtBoard.Path

open DeviceTree (Toolchain)

/-! ## 1. Folder and last name -/

/-- What stands behind the last slash. -/
def lastName (p : Path) : String :=
  String.ofList (p.chars.rtakeWhile (· ≠ '/'))

/-- What stands before the last name, with its slash. -/
def folder (p : Path) : Path :=
  ofChars (p.chars.rdropWhile (· ≠ '/'))

theorem chars_eq (p : Path) : p.chars = p.folder.chars ++ p.lastName.toList := by
  rw [folder, chars_ofChars, lastName, String.toList_ofList]
  exact List.rdropWhile_append_rtakeWhile.symm

theorem lastName_no_slash (p : Path) : '/' ∉ p.lastName.toList := by
  rw [lastName, String.toList_ofList]
  intro hc
  simpa using List.mem_rtakeWhile_imp hc

theorem lead_folder (p : Path) : lead p.folder = p.folder.chars := by
  refine if_pos ?_
  by_cases h : p.chars.rdropWhile (· ≠ '/') = []
  · left
    rw [folder, h]
    rfl
  · right
    have hlast := List.rdropWhile_last_not _ p.chars h
    rw [endsInSlash, folder, chars_ofChars, List.getLast?_eq_some_getLast h]
    simpa using hlast

theorem chars_folder_join {name : String} (h : '/' ∉ name.toList) (p : Path) :
    (p.folder.join ⟨name⟩).chars = p.folder.chars ++ name.toList := by
  rw [chars_join_of_relative (not_isAbsolute_of_no_slash h), lead_folder]
  rfl

theorem eq_of_chars {p q : Path} (h : p.chars = q.chars) : p = q :=
  Path.ext (String.toList_injective h)

theorem folder_join_lastName (p : Path) : p.folder.join ⟨p.lastName⟩ = p :=
  eq_of_chars ((chars_folder_join p.lastName_no_slash p).trans p.chars_eq.symm)

theorem append_eq_join {suffix : String} (h : '/' ∉ suffix.toList) (p : Path) :
    p.append suffix = p.folder.join ⟨p.lastName ++ suffix⟩ := by
  have hname : '/' ∉ (p.lastName ++ suffix).toList := by
    rw [String.toList_append, List.mem_append, not_or]
    exact ⟨p.lastName_no_slash, h⟩
  apply eq_of_chars
  rw [chars_folder_join hname, String.toList_append, ← List.append_assoc, ← chars_eq]
  exact String.toList_append

-- The names that stand for directories are short.
theorem isName_of_length {name : String} (h : '/' ∉ name.toList) (hlength : 2 < name.length) :
    IsName name := by
  refine ⟨h, ?_, ?_, ?_⟩ <;> rintro rfl <;> exact absurd hlength (by decide)

/-! ## 2. The expanded source -/

theorem expanded_eq (p : Path) :
    Toolchain.expanded p = p.folder.join ⟨p.lastName ++ ".tmp"⟩ :=
  append_eq_join (by decide) p

theorem isName_expanded (p : Path) : IsName (p.lastName ++ ".tmp") := by
  apply isName_of_length
  · rw [String.toList_append, List.mem_append, not_or]
    exact ⟨p.lastName_no_slash, by decide⟩
  · have hext : ".tmp".length = 4 := by decide
    rw [String.length_append, hext]
    omega

/-! ## 3. The binary -/

/-- Nothing follows the last name: neither a slash, nor one with a dot for the directory itself. -/
def EndsInName (p : Path) : Prop :=
  ¬['/'] <:+ p.chars ∧ ¬['/', '.'] <:+ p.chars

instance (p : Path) : Decidable p.EndsInName :=
  inferInstanceAs (Decidable (_ ∧ _))

theorem endsInName_of_isName {p : Path} (h : IsName p.lastName) : p.EndsInName := by
  constructor
  · rintro ⟨s, hs⟩
    apply h.2.1
    rw [lastName, ← hs, List.rtakeWhile_concat_neg _ _ _ (by simp)]
  · rintro ⟨s, hs⟩
    apply h.2.2.1
    rw [lastName, ← hs, show ['/', '.'] = ['/'] ++ ['.'] from rfl, ← List.append_assoc,
      List.rtakeWhile_concat_pos _ _ _ (by decide), List.rtakeWhile_concat_neg _ _ _ (by simp)]
    rfl

theorem EndsInName.dropTrailing {p : Path} (h : p.EndsInName) :
    dropTrailing p.chars.reverse = p.chars.reverse := by
  rw [dropTrailing.eq_def]
  split
  next r hr =>
    refine absurd ⟨r.reverse, ?_⟩ h.1
    rw [← List.reverse_reverse p.chars, hr, List.reverse_cons]
  next r hr =>
    refine absurd ⟨r.reverse, ?_⟩ h.2
    rw [← List.reverse_reverse p.chars, hr, List.reverse_cons, List.reverse_cons,
      List.append_assoc]
    rfl
  next => rfl

theorem reverse_lastName (p : Path) :
    p.chars.reverse.takeWhile (· ≠ '/') = p.lastName.toList.reverse := by
  rw [lastName, String.toList_ofList, List.rtakeWhile, List.reverse_reverse]

theorem isName_lastName_iff (p : Path) :
    IsName p.lastName ↔ ¬(p.lastName.toList.reverse = [] ∨ p.lastName.toList.reverse = ['.'] ∨
      p.lastName.toList.reverse = ['.', '.']) := by
  have hdot : p.lastName.toList.reverse = ['.'] ↔ p.lastName = "." := by
    rw [List.reverse_eq_iff]
    exact @String.toList_inj _ "."
  have hdots : p.lastName.toList.reverse = ['.', '.'] ↔ p.lastName = ".." := by
    rw [List.reverse_eq_iff]
    exact @String.toList_inj _ ".."
  rw [hdot, hdots, List.reverse_eq_nil_iff, String.toList_eq_nil_iff, not_or, not_or]
  exact ⟨fun h => h.2, fun h => ⟨p.lastName_no_slash, h⟩⟩

theorem nameParts?_eq {p : Path} (h : p.EndsInName) :
    p.nameParts? =
      if IsName p.lastName then
        some ⟨p.folder.chars, (cutName p.lastName.toList.reverse).1,
          (cutName p.lastName.toList.reverse).2, []⟩
      else none := by
  have hbefore : (p.chars.reverse.dropWhile (· ≠ '/')).reverse = p.folder.chars := by
    rw [folder, chars_ofChars]
    rfl
  unfold nameParts?
  simp only [h.dropTrailing, reverse_lastName, hbefore, List.length_reverse, List.drop_length]
  by_cases hname : IsName p.lastName
  · rw [if_neg ((isName_lastName_iff p).mp hname), if_pos hname]
  · rw [if_neg hname]
    exact if_pos (not_not.mp fun hn => hname ((isName_lastName_iff p).mpr hn))

theorem mem_of_mem_stem {c : Char} {reversedName : List Char} (h : c ∈ (cutName reversedName).1) :
    c ∈ reversedName := by
  unfold cutName at h
  split at h
  · exact List.mem_reverse.mp h
  · exact List.mem_reverse.mp h
  next c' stem _ hdrop =>
    have hmem : c ∈ reversedName.dropWhile (· ≠ '.') := by
      rw [hdrop]
      exact List.mem_cons_of_mem _ (List.mem_reverse.mp h)
    exact (List.dropWhile_suffix _).mem hmem

/-- A file name gets another extension in its folder, or is taken for the folder above. -/
theorem treeBinary_cases {p : Path} (h : p.EndsInName) :
    (¬IsName p.lastName ∧ p.treeBinary = p) ∨
    (IsName p.lastName ∧ (p.treeBinary = p.folder.join ⟨".."⟩ ∨
      ∃ stem, IsName (stem ++ ".dtb") ∧ p.treeBinary = p.folder.join ⟨stem ++ ".dtb"⟩)) := by
  unfold treeBinary withExtension
  rw [nameParts?_eq h]
  by_cases hname : IsName p.lastName
  · rw [if_pos hname]
    refine Or.inr ⟨hname, ?_⟩
    dsimp only
    split
    · left
      apply eq_of_chars
      rw [chars_ofChars, chars_folder_join (by decide)]
      rfl
    · right
      have hstem : '/' ∉ (cutName p.lastName.toList.reverse).1 := fun hc =>
        p.lastName_no_slash (List.mem_reverse.mp (mem_of_mem_stem hc))
      generalize (cutName p.lastName.toList.reverse).1 = stem at hstem ⊢
      have htext : (String.ofList stem ++ ".dtb").toList = stem ++ '.' :: "dtb".toList := by
        rw [String.toList_append, String.toList_ofList,
          show ".dtb".toList = '.' :: "dtb".toList by decide]
      have hbinary : IsName (String.ofList stem ++ ".dtb") := by
        apply isName_of_length
        · rw [htext, List.mem_append, not_or]
          exact ⟨hstem, by decide⟩
        · have hext : ".dtb".length = 4 := by decide
          rw [String.length_append, hext]
          omega
      refine ⟨String.ofList stem, hbinary, eq_of_chars ?_⟩
      rw [chars_ofChars, chars_folder_join hbinary.1, htext, List.append_assoc]
  · rw [if_neg hname]
    exact Or.inl ⟨hname, rfl⟩

-- Without a last name, a path ends in a slash or has no text at all.
theorem chars_of_lastName {p : Path} (h : p.lastName = "") :
    p.text = "" ∨ ∃ s, p.chars = s ++ ['/'] := by
  have hchars : p.folder.chars = p.chars := by
    rw [chars_eq p, h]
    exact (List.append_nil _).symm
  have hcases := lead_cases p.folder
  rw [lead_folder, hchars] at hcases
  exact hcases.imp_left String.toList_eq_nil_iff.mp

/-- Whatever its name is, the binary is looked for in the folder of its source. -/
theorem treeBinary_sibling {p : Path} (h : p.EndsInName) :
    p.text = "" ∨
      ∃ name : String, '/' ∉ name.toList ∧ name ≠ "" ∧ p.treeBinary = p.folder.join ⟨name⟩ := by
  rcases treeBinary_cases h with ⟨-, hbinary⟩ | ⟨-, hbinary | ⟨stem, hname, hbinary⟩⟩
  · by_cases hlast : p.lastName = ""
    · rcases chars_of_lastName hlast with hempty | ⟨s, hs⟩
      · exact Or.inl hempty
      · exact absurd ⟨s, hs.symm⟩ h.1
    · refine Or.inr ⟨p.lastName, p.lastName_no_slash, hlast, ?_⟩
      rw [hbinary, folder_join_lastName]
  · exact Or.inr ⟨"..", by decide, by decide, hbinary⟩
  · exact Or.inr ⟨stem ++ ".dtb", hname.1, hname.2.1, hbinary⟩

end VirtBoard.Path
