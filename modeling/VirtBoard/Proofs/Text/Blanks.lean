import Mathlib.Data.List.DropRight
import VirtBoard.Text.Blank

/-!
# Texts and the blanks around them

What trimming leaves and what the first word of a text is, said by where the blanks stand and where
they end.
-/

namespace VirtBoard.Text

/-! ## 1. Runs of characters -/

section Run

variable {p : Char → Bool} {s run after : List Char}

theorem dropWhile_of_head (h : ∀ c ∈ s.head?, p c = false) : s.dropWhile p = s := by
  cases s with
  | nil => rfl
  | cons c s => rw [List.dropWhile_cons, h c rfl, if_neg Bool.false_ne_true]

theorem takeWhile_of_head (h : ∀ c ∈ s.head?, p c = false) : s.takeWhile p = [] := by
  cases s with
  | nil => rfl
  | cons c s => rw [List.takeWhile_cons, h c rfl, if_neg Bool.false_ne_true]

theorem dropWhile_run (hrun : ∀ c ∈ run, p c = true) (hafter : ∀ c ∈ after.head?, p c = false) :
    (run ++ after).dropWhile p = after := by
  rw [List.dropWhile_append_of_pos hrun, dropWhile_of_head hafter]

theorem takeWhile_run (hrun : ∀ c ∈ run, p c = true) (hafter : ∀ c ∈ after.head?, p c = false) :
    (run ++ after).takeWhile p = run := by
  rw [List.takeWhile_append_of_pos hrun, takeWhile_of_head hafter, List.append_nil]

theorem head?_dropWhile (p : Char → Bool) (s : List Char) :
    ∀ c ∈ (s.dropWhile p).head?, p c = false := by
  intro c hc
  have h := List.head?_dropWhile_not p s
  rw [Option.mem_def.mp hc] at h
  exact h

theorem head?_mono {t : List Char} (h : t <+: s) : ∀ c ∈ t.head?, c ∈ s.head? := by
  obtain ⟨after, rfl⟩ := h
  intro c hc
  rw [List.head?_append, Option.mem_def.mp hc]
  rfl

end Run

/-! ## 2. Trimming -/

section Trim

variable {s t after : List Char}

/-- A text and what is left of it without the blanks at both ends. -/
structure Trims (s t : List Char) : Prop where
  around : ∃ before after, s = before ++ t ++ after ∧
    (∀ c ∈ before, isBlank c = true) ∧ ∀ c ∈ after, isBlank c = true
  head : ∀ c ∈ t.head?, isBlank c = false
  last : ∀ c ∈ t.getLast?, isBlank c = false

theorem trimEnd_append (hlast : ∀ c ∈ t.getLast?, isBlank c = false)
    (hafter : ∀ c ∈ after, isBlank c = true) : trimEnd (t ++ after) = t := by
  rw [trimEnd, List.reverse_append, dropWhile_run, List.reverse_reverse]
  · exact fun c hc => hafter c (List.mem_reverse.mp hc)
  · rwa [List.head?_reverse]

/-- What is cut off at the end are blanks, and all of them. -/
theorem exists_trimEnd (s : List Char) :
    ∃ after, s = trimEnd s ++ after ∧ (∀ c ∈ after, isBlank c = true) ∧
      ∀ c ∈ (trimEnd s).getLast?, isBlank c = false := by
  have hend : trimEnd s = s.rdropWhile isBlank := rfl
  refine ⟨s.rtakeWhile isBlank, ?_, fun c => List.mem_rtakeWhile_imp, fun c hc => ?_⟩
  · rw [hend, List.rdropWhile_append_rtakeWhile]
  · obtain ⟨hne, rfl⟩ := List.mem_getLast?_eq_getLast hc
    exact eq_false_of_ne_true (List.rdropWhile_last_not isBlank s hne)

theorem Trims.trim_eq (h : Trims s t) : trim s = t := by
  obtain ⟨before, after, rfl, hbefore, hafter⟩ := h.around
  rw [trim, List.append_assoc]
  cases t with
  | nil =>
    have hblank : ∀ c ∈ before ++ after, isBlank c = true := fun c hc =>
      (List.mem_append.mp hc).elim (hbefore c) (hafter c)
    rw [List.nil_append, List.dropWhile_eq_nil_iff.mpr hblank]
    rfl
  | cons c t =>
    have hhead : ∀ d ∈ (c :: t ++ after).head?, isBlank d = false := h.head
    rw [dropWhile_run hbefore hhead, trimEnd_append h.last hafter]

theorem trims_trim (s : List Char) : Trims s (trim s) := by
  obtain ⟨after, hrest, hafter, hlast⟩ := exists_trimEnd (s.dropWhile isBlank)
  refine ⟨⟨s.takeWhile isBlank, after, ?_, fun c => List.mem_takeWhile_imp, hafter⟩, ?_, hlast⟩
  · rw [List.append_assoc, trim, ← hrest, List.takeWhile_append_dropWhile]
  · intro c hc
    exact head?_dropWhile isBlank s c (head?_mono ⟨after, hrest.symm⟩ c hc)

end Trim

/-! ## 3. The first word -/

section FirstWord

variable {s word : List Char}

/-- A text and its first maximal run of characters that are not blank, empty only if there is no such
character. -/
structure IsFirstWord (s word : List Char) : Prop where
  around : ∃ before after, s = before ++ word ++ after ∧
    (∀ c ∈ before, isBlank c = true) ∧ (∀ c ∈ after.head?, isBlank c = true) ∧
    (word = [] → after = [])
  word : ∀ c ∈ word, isBlank c = false

theorem isFirstWord_firstWord (s : List Char) : IsFirstWord s (firstWord s) := by
  refine ⟨⟨s.takeWhile isBlank, (s.dropWhile isBlank).dropWhile fun c => !isBlank c, ?_,
    fun c => List.mem_takeWhile_imp, fun c hc => ?_, fun hnil => ?_⟩, fun c hc => ?_⟩
  · rw [List.append_assoc, firstWord, List.takeWhile_append_dropWhile,
      List.takeWhile_append_dropWhile]
  · exact (Bool.not_eq_false' _).mp (head?_dropWhile _ _ c hc)
  · -- Behind the blanks nothing is left, or a character that the word begins with.
    have hhead := head?_dropWhile isBlank s
    unfold firstWord at hnil
    cases hrest : s.dropWhile isBlank with
    | nil => rfl
    | cons c rest =>
      rw [hrest] at hnil hhead
      rw [List.takeWhile_cons, hhead c rfl] at hnil
      exact absurd hnil (List.cons_ne_nil _ _)
  · exact (Bool.not_eq_true' _).mp (List.mem_takeWhile_imp (p := fun d => !isBlank d) hc)

theorem IsFirstWord.firstWord_eq (h : IsFirstWord s word) : firstWord s = word := by
  obtain ⟨before, after, rfl, hbefore, hafter, hnone⟩ := h.around
  have hhead : ∀ c ∈ (word ++ after).head?, isBlank c = false := by
    cases word with
    | nil => rw [hnone rfl]; exact fun c hc => nomatch hc
    | cons c word => exact fun d hd => h.word d (List.mem_of_mem_head? hd)
  rw [firstWord, List.append_assoc, dropWhile_run hbefore hhead, takeWhile_run]
  · exact fun c hc => by rw [h.word c hc]; rfl
  · exact fun c hc => by rw [hafter c hc]; rfl

end FirstWord

end VirtBoard.Text
