import Mathlib.Data.Nat.Digits.Defs
import VirtBoard.Proofs.Text.Decimals

/-!
# Integers between blanks

An integer text is a run of ASCII digits behind at most one plus sign, with blanks around it.  It
denotes what its digits say by their places, and reading takes it exactly if that number is below the
bound: no digit on the way takes the value out of range.  The decimal text of a number has no zero in
front and is the text of an integer itself.
-/

namespace VirtBoard.Text

/-! ## 1. The value of digits -/

/-- The number that one digit stands for. -/
def digit (d : Char) : Nat :=
  d.toNat - '0'.toNat

/-- The number that digits denote by their places; the last digit counts ones. -/
def placeValue (digits : List Char) : Nat :=
  Nat.ofDigits 10 (digits.reverse.map digit)

theorem digitsValue_concat (digits : List Char) (d : Char) :
    digitsValue (digits ++ [d]) = 10 * digitsValue digits + digit d := by
  rw [digitsValue, List.foldl_append]
  rfl

theorem placeValue_concat (digits : List Char) (d : Char) :
    placeValue (digits ++ [d]) = 10 * placeValue digits + digit d := by
  rw [placeValue, List.reverse_concat, List.map_cons, Nat.ofDigits_cons, Nat.add_comm]
  rfl

theorem digitsValue_eq_placeValue (digits : List Char) : digitsValue digits = placeValue digits := by
  induction digits using List.reverseRecOn with
  | nil => rfl
  | append_singleton digits d ih => rw [digitsValue_concat, placeValue_concat, ih]

/-- Puts a digit behind a number, unless the number leaves its range. -/
def push? (bound n : Nat) (d : Char) : Option Nat :=
  if 10 * n + digit d < bound then some (10 * n + digit d) else none

/-- A number is in its range exactly if it never leaves it digit by digit. -/
theorem foldlM_push? {bound : Nat} (hbound : 0 < bound) (digits : List Char) :
    digits.foldlM (push? bound) 0 =
      if placeValue digits < bound then some (placeValue digits) else none := by
  induction digits using List.reverseRecOn with
  | nil => exact (if_pos hbound).symm
  | append_singleton digits d ih =>
    rw [List.foldlM_append, ih, placeValue_concat]
    by_cases hlt : placeValue digits < bound
    · rw [if_pos hlt]
      show [d].foldlM (push? bound) (placeValue digits) = _
      rw [List.foldlM_cons, push?]
      split <;> rfl
    · -- One more digit only makes the number larger.
      have hge : ¬10 * placeValue digits + digit d < bound := by omega
      rw [if_neg hlt, if_neg hge]
      rfl

/-! ## 2. Reading integers -/

section Reading

variable {bound n : Nat} {s digits : List Char} {value : String}

/-- A text with nothing in it but digits, at most one plus sign in front of them, and blanks. -/
structure IsInteger (value : String) (digits : List Char) : Prop where
  trims : Trims value.toList digits ∨ Trims value.toList ('+' :: digits)
  ne_nil : digits ≠ []
  isDigit : ∀ d ∈ digits, d.isDigit = true

theorem readDigits_eq_some_iff :
    readDigits bound s = some n ↔
      s ≠ [] ∧ (∀ d ∈ s, d.isDigit = true) ∧ placeValue s = n ∧ n < bound := by
  rw [readDigits, digitsValue_eq_placeValue]
  constructor
  · intro h
    split at h
    next hs =>
      obtain rfl := Option.some.inj h
      exact ⟨hs.1, List.all_eq_true.mp hs.2.1, rfl, hs.2.2⟩
    next => cases h
  · rintro ⟨hne, hdigits, rfl, hlt⟩
    exact if_pos ⟨hne, List.all_eq_true.mpr hdigits, hlt⟩

/-- Text that is not all digits behind at most one plus sign is refused. -/
theorem readUnsigned_eq_some_iff :
    readUnsigned bound s = some n ↔
      ∃ digits, (s = digits ∨ s = '+' :: digits) ∧ digits ≠ [] ∧
        (∀ d ∈ digits, d.isDigit = true) ∧ placeValue digits = n ∧ n < bound := by
  constructor
  · intro h
    unfold readUnsigned at h
    split at h
    next t => exact ⟨t, .inr rfl, readDigits_eq_some_iff.mp h⟩
    next => exact ⟨s, .inl rfl, readDigits_eq_some_iff.mp h⟩
  · rintro ⟨digits, rfl | rfl, hdigits⟩
    · have hplus : s.head? ≠ some '+' := by
        intro he
        exact absurd (hdigits.2.1 '+' (List.mem_of_mem_head? he)) (by decide)
      rw [readUnsigned_of_head hplus]
      exact readDigits_eq_some_iff.mpr hdigits
    · exact readDigits_eq_some_iff.mpr hdigits

theorem trim_eq_iff {t : List Char} : trim s = t ↔ Trims s t := by
  constructor
  · rintro rfl
    exact trims_trim s
  · exact Trims.trim_eq

theorem readInteger_eq_some_iff :
    readInteger bound value = some n ↔
      ∃ digits, IsInteger value digits ∧ placeValue digits = n ∧ n < bound := by
  rw [readInteger, readUnsigned_eq_some_iff]
  constructor
  · rintro ⟨digits, htrim, hne, hdigits, hn⟩
    exact ⟨digits, ⟨htrim.imp trim_eq_iff.mp trim_eq_iff.mp, hne, hdigits⟩, hn⟩
  · rintro ⟨digits, ⟨htrims, hne, hdigits⟩, hn⟩
    exact ⟨digits, htrims.imp trim_eq_iff.mpr trim_eq_iff.mpr, hne, hdigits, hn⟩

end Reading

/-! ## 3. The decimal text of a number -/

/-- The usual decimal text of a number: its digits, and no zero in front of them. -/
structure IsDecimal (text : String) (n : Nat) : Prop where
  isDigit : ∀ d ∈ text.toList, d.isDigit = true
  placeValue : placeValue text.toList = n
  head : text.toList.head? = some '0' → text = "0"
  ne_empty : text ≠ ""

theorem digitChar_ne_zero {k : Nat} (hpos : 0 < k) (hlt : k < 10) : k.digitChar ≠ '0' := by
  have hall : ∀ k < 10, 0 < k → k.digitChar ≠ '0' := by decide
  exact hall k hlt hpos

/-- The first digit of a number is zero for no number but zero. -/
theorem head?_toDigits {n : Nat} (hpos : 0 < n) : (Nat.toDigits 10 n).head? ≠ some '0' := by
  induction n using Nat.strong_induction_on with
  | h n ih =>
    by_cases hlt : n < 10
    · rw [Nat.toDigits_of_lt_base hlt, List.head?_cons]
      exact fun he => digitChar_ne_zero hpos hlt (Option.some.inj he)
    · have hshort : (Nat.toDigits 10 (n / 10)).head? ≠ some '0' := ih (n / 10) (by omega) (by omega)
      rw [Nat.toDigits_of_base_le (by decide) (by omega),
        List.head?_append_of_ne_nil _ Nat.toDigits_ne_nil]
      exact hshort

theorem isDecimal_toString (n : Nat) : IsDecimal (toString n) n where
  isDigit := fun _ => isDigit_of_mem_toString
  placeValue := by rw [← digitsValue_eq_placeValue, digitsValue_toString]
  head := by
    intro hhead
    by_cases hpos : 0 < n
    · have htext : (toString n).toList = Nat.toDigits 10 n := Nat.toList_repr
      rw [htext] at hhead
      exact absurd hhead (head?_toDigits hpos)
    · have hzero : n = 0 := by omega
      rw [hzero]
      rfl
  ne_empty := fun he => toList_toString_ne_nil n (by rw [he]; rfl)

end VirtBoard.Text
