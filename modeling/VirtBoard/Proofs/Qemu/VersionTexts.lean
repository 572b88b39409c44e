import VirtBoard.Proofs.Text.Decimals
import VirtBoard.Qemu.Version

/-!
# Texts of releases

A text spells a release when its parts between the dots begin with the numbers of the release, at
least two of them.  What stands behind the digits of a part means nothing, nor do the parts behind
the third.  So the text of a release is read back, whatever stands behind it but more digits.
-/

namespace VirtBoard.Qemu

open Text

namespace Version

/-! ## 1. The parts of a text -/

/-- A text and its parts between the dots. -/
inductive Parts : List Char → List (List Char) → Prop where
  | last {part : List Char} (h : '.' ∉ part) : Parts part [part]
  | dot {part s : List Char} {parts : List (List Char)} (h : '.' ∉ part) (hs : Parts s parts) :
    Parts (part ++ '.' :: s) (part :: parts)

section Parts

variable {s x part : List Char} {parts : List (List Char)}

theorem Parts.splitOn_eq (h : Parts s parts) : s.splitOn '.' = parts := by
  induction h with
  | last h => exact List.splitOn_eq_singleton h
  | dot h _ ih => rw [List.splitOn_append_cons_self_of_not_mem h, ih]

theorem exists_parts (s : List Char) : ∃ parts, Parts s parts := by
  -- The text behind the first dot is shorter.
  induction hn : s.length using Nat.strong_induction_on generalizing s with
  | h n ih =>
    by_cases hdot : '.' ∈ s
    · obtain ⟨part, rest, rfl, hpart⟩ := List.eq_append_cons_of_mem hdot
      obtain ⟨parts, hparts⟩ := ih rest.length (by simp [← hn]; omega) rest rfl
      exact ⟨_, .dot hpart hparts⟩
    · exact ⟨_, .last hdot⟩

theorem splitOn_eq_iff : s.splitOn '.' = parts ↔ Parts s parts := by
  constructor
  · intro h
    obtain ⟨parts', hparts⟩ := exists_parts s
    rwa [← h, hparts.splitOn_eq]
  · exact Parts.splitOn_eq

theorem Parts.ne_nil (h : Parts s parts) : parts ≠ [] := by
  cases h <;> exact List.cons_ne_nil _ _

theorem Parts.head_prefix (h : Parts s (part :: parts)) : part <+: s := by
  cases h with
  | last h => exact List.prefix_rfl
  | dot h hs => exact List.prefix_append _ _

/-- Text without a dot in front belongs to the first part. -/
theorem Parts.extend (hx : '.' ∉ x) (h : Parts s (part :: parts)) :
    Parts (x ++ s) ((x ++ part) :: parts) := by
  cases h with
  | last h => exact .last (List.not_mem_append hx h)
  | dot h hs =>
    rw [← List.append_assoc]
    exact .dot (List.not_mem_append hx h) hs

end Parts

/-! ## 2. What a text spells -/

/-- The numbers that the parts begin with.  The third may be missing and is zero then. -/
inductive Reads : List (List Char) → Version → Prop where
  | two {a b : List Char} {major minor : UInt32} (ha : LeadingNumber a major.toNat)
    (hb : LeadingNumber b minor.toNat) : Reads [a, b] ⟨major, minor, 0⟩
  | three {a b c : List Char} {rest : List (List Char)} {major minor revision : UInt32}
    (ha : LeadingNumber a major.toNat) (hb : LeadingNumber b minor.toNat)
    (hc : LeadingNumber c revision.toNat) : Reads (a :: b :: c :: rest) ⟨major, minor, revision⟩

/-- A text that spells a release, with blanks around it. -/
def Spells (s : String) (v : Version) : Prop :=
  ∃ t parts, Trims s.toList t ∧ Parts t parts ∧ Reads parts v

theorem component_eq_some_iff {part : List Char} {n : UInt32} :
    component part = some n ↔ LeadingNumber part n.toNat := by
  unfold component
  rw [Option.map_eq_some_iff]
  constructor
  · rintro ⟨k, hk, rfl⟩
    obtain ⟨hpart, hbound⟩ := readLeading_eq_some_iff.mp hk
    rwa [UInt32.toNat_ofNat_of_lt' hbound]
  · exact fun h => ⟨n.toNat, readLeading_eq_some_iff.mpr ⟨h, n.toNat_lt⟩, UInt32.ofNat_toNat⟩

theorem ofComponents?_eq_some_iff {parts : List (List Char)} {v : Version} :
    ofComponents? parts = some v ↔ Reads parts v := by
  constructor
  · intro h
    match parts, h with
    | [a, b], h =>
      simp only [ofComponents?, Option.pure_def, Option.bind_eq_bind, Option.bind_eq_some_iff,
        Option.some.injEq] at h
      obtain ⟨major, ha, minor, hb, rfl⟩ := h
      exact .two (component_eq_some_iff.mp ha) (component_eq_some_iff.mp hb)
    | a :: b :: c :: rest, h =>
      simp only [ofComponents?, Option.pure_def, Option.bind_eq_bind, Option.bind_eq_some_iff,
        Option.some.injEq] at h
      obtain ⟨major, ha, minor, hb, revision, hc, rfl⟩ := h
      exact .three (component_eq_some_iff.mp ha) (component_eq_some_iff.mp hb)
        (component_eq_some_iff.mp hc)
  · rintro (⟨ha, hb⟩ | ⟨ha, hb, hc⟩)
    · rw [← component_eq_some_iff] at ha hb
      simp [ofComponents?, ha, hb]
    · rw [← component_eq_some_iff] at ha hb hc
      simp [ofComponents?, ha, hb, hc]

theorem spells_iff {s : String} {v : Version} :
    Spells s v ↔ ofComponents? ((trim s.toList).splitOn '.') = some v := by
  rw [ofComponents?_eq_some_iff]
  constructor
  · rintro ⟨t, parts, ht, hparts, hv⟩
    rwa [ht.trim_eq, hparts.splitOn_eq]
  · exact fun h => ⟨_, _, trims_trim _, splitOn_eq_iff.mp rfl, h⟩

theorem parse_eq_ok_iff {s : String} {v : Version} : parse s = .ok v ↔ Spells s v := by
  rw [spells_iff, parse]
  cases ofComponents? ((trim s.toList).splitOn '.') <;> simp

theorem parse_eq_error_iff {s : String} {e : VersionError} :
    parse s = .error e ↔ e = .malformed s ∧ ∀ v, ¬Spells s v := by
  simp only [spells_iff, parse]
  cases ofComponents? ((trim s.toList).splitOn '.') <;> simp [eq_comm]

/-! ## 3. The text of a release -/

section Text

variable {v : Version}

theorem toList_text (v : Version) :
    v.text.toList = (toString v.major).toList ++
      '.' :: ((toString v.minor).toList ++ '.' :: (toString v.revision).toList) := by
  simp [text, String.toList_append]

theorem not_isBlank_of_mem_text {c : Char} (h : c ∈ v.text.toList) : isBlank c = false := by
  rw [toList_text] at h
  simp only [List.mem_append, List.mem_cons] at h
  rcases h with h | rfl | h | rfl | h
  · exact not_isBlank_of_isDigit (isDigit_of_mem_toString h)
  · rfl
  · exact not_isBlank_of_isDigit (isDigit_of_mem_toString h)
  · rfl
  · exact not_isBlank_of_isDigit (isDigit_of_mem_toString h)

theorem text_ne_nil (v : Version) : v.text.toList ≠ [] := by
  rw [toList_text]
  exact List.append_ne_nil_of_left_ne_nil (toList_toString_ne_nil v.major.toNat) _

/-- Blanks behind the text of a release, and only those, are trimmed off. -/
theorem trims_text_append (v : Version) (rest : List Char) :
    Trims (v.text.toList ++ rest) (v.text.toList ++ trimEnd rest) := by
  obtain ⟨after, hrest, hafter, hlast⟩ := exists_trimEnd rest
  refine ⟨⟨[], after, ?_, fun c hc => absurd hc List.not_mem_nil, hafter⟩, fun c hc => ?_,
    fun c hc => ?_⟩
  · rw [List.nil_append, List.append_assoc, ← hrest]
  · rw [List.head?_append_of_ne_nil _ (text_ne_nil v)] at hc
    exact not_isBlank_of_mem_text (List.mem_of_mem_head? hc)
  · rw [List.getLast?_append] at hc
    cases hkept : (trimEnd rest).getLast? with
    | none =>
      rw [hkept] at hc
      exact not_isBlank_of_mem_text (List.mem_of_mem_getLast? hc)
    | some d =>
      rw [hkept] at hc
      exact hlast c (hkept.trans hc)

/-- The text of a release spells it, whatever stands behind it but more digits. -/
theorem spells_text_append (v : Version) {r : String}
    (hr : ∀ c ∈ r.toList.head?, c.isDigit = false) : Spells (v.text ++ r) v := by
  obtain ⟨after, hafter, -⟩ := exists_trimEnd r.toList
  obtain ⟨parts, hparts⟩ := exists_parts (trimEnd r.toList)
  obtain ⟨part, rest, rfl⟩ := List.exists_cons_of_ne_nil hparts.ne_nil
  have hpart : ∀ c ∈ part.head?, c.isDigit = false := fun c hc =>
    hr c (head?_mono (hparts.head_prefix.trans ⟨after, hafter.symm⟩) c hc)
  have hdot (n : Nat) : '.' ∉ (toString n).toList := notMem_toString (by decide) n
  have hplain (n : UInt32) : LeadingNumber (toString n).toList n.toNat := by
    have h : LeadingNumber ((toString n).toList ++ []) n.toNat :=
      leadingNumber_toString n.toNat fun c hc => nomatch hc
    rwa [List.append_nil] at h
  refine ⟨v.text.toList ++ trimEnd r.toList, _ :: _ :: _ :: rest, ?_, ?_,
    .three (hplain v.major) (hplain v.minor) (leadingNumber_toString v.revision.toNat hpart)⟩
  · rw [String.toList_append]
    exact trims_text_append v r.toList
  · rw [toList_text, List.append_assoc, List.cons_append, List.append_assoc, List.cons_append]
    exact .dot (hdot _) (.dot (hdot _) (hparts.extend (hdot _)))

end Text

/-- Reading accepts exactly the texts that spell a release, and refuses every other as it is given.
The text of a release is among them, whatever stands behind it but more digits. -/
theorem parse_reads_releases :
    (∀ s v, parse s = .ok v ↔ Spells s v) ∧
      (∀ s e, parse s = .error e ↔ e = .malformed s ∧ ∀ v, ¬Spells s v) ∧
      ∀ (v : Version) (r : String), (∀ c ∈ r.toList.head?, c.isDigit = false) →
        parse (v.text ++ r) = .ok v :=
  ⟨fun _ _ => parse_eq_ok_iff, fun _ _ => parse_eq_error_iff,
    fun v _ hr => parse_eq_ok_iff.mpr (spells_text_append v hr)⟩

/-- A suffix with dots, digits and blanks in it. -/
theorem distribution_release_is_read :
    (∀ c ∈ "+dfsg.7 .x ".toList.head?, c.isDigit = false) ∧
      parse ((⟨8, 10, 4294967295⟩ : Version).text ++ "+dfsg.7 .x ") =
        .ok ⟨8, 10, 4294967295⟩ :=
  have hplus : ∀ c ∈ "+dfsg.7 .x ".toList.head?, c.isDigit = false := by simp
  ⟨hplus, parse_reads_releases.2.2 _ _ hplus⟩

end Version

end VirtBoard.Qemu
