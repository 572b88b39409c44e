import VirtBoard.Proofs.Text.Blanks
import VirtBoard.Text.Decimal

/-!
# Decimal texts

The decimal text of a number consists of ASCII digits and is read back as the same number, so two
numbers never have the same text.  A flag that takes integers below a bound takes the decimal text of
each of them.
-/

namespace VirtBoard.Text

theorem digitsValue_toString (n : Nat) : digitsValue (toString n).toList = n := by
  have htext : (toString n).toList = Nat.toDigits 10 n := Nat.toList_repr
  rw [htext]
  exact Nat.ofDigitChars_ten_toDigits

theorem isDigit_of_mem_toString {n : Nat} {c : Char} (h : c ∈ (toString n).toList) :
    c.isDigit = true := by
  have htext : (toString n).toList = Nat.toDigits 10 n := Nat.toList_repr
  rw [htext] at h
  exact Nat.isDigit_of_mem_toDigits (by decide) (by decide) h

theorem notMem_toString {c : Char} (h : c.isDigit = false) (n : Nat) : c ∉ (toString n).toList := by
  intro hc
  rw [isDigit_of_mem_toString hc] at h
  cases h

theorem comma_notMem_toString (n : Nat) : ',' ∉ (toString n).toList :=
  notMem_toString (by decide) n

theorem toList_toString_ne_nil (n : Nat) : (toString n).toList ≠ [] := by
  have htext : (toString n).toList = Nat.toDigits 10 n := Nat.toList_repr
  rw [htext]
  exact Nat.toDigits_ne_nil

theorem toString_inj {m n : Nat} (h : toString m = toString n) : m = n := by
  rw [← digitsValue_toString m, h, digitsValue_toString]

theorem toString_inj_uInt32 {m n : UInt32} (h : toString m = toString n) : m = n :=
  UInt32.toNat_inj.mp (toString_inj h)

theorem toString_inj_uInt16 {m n : UInt16} (h : toString m = toString n) : m = n :=
  UInt16.toNat_inj.mp (toString_inj h)

theorem not_isBlank_of_isDigit {c : Char} (h : c.isDigit = true) : isBlank c = false := by
  have hrange : 48 ≤ c.toNat ∧ c.toNat ≤ 57 := by
    simp only [Char.isDigit, Bool.and_eq_true, decide_eq_true_eq, ge_iff_le] at h
    exact h
  simp only [isBlank, Bool.or_eq_false_iff, Bool.and_eq_false_iff, decide_eq_false_iff_not,
    beq_eq_false_iff_ne]
  omega

theorem trim_eq_self {s : List Char} (h : ∀ c ∈ s, isBlank c = false) : trim s = s := by
  refine Trims.trim_eq ⟨⟨[], [], by simp, ?_, ?_⟩, ?_, ?_⟩
  · exact fun c hc => absurd hc List.not_mem_nil
  · exact fun c hc => absurd hc List.not_mem_nil
  · exact fun c hc => h c (List.mem_of_mem_head? hc)
  · exact fun c hc => h c (List.mem_of_mem_getLast? hc)

theorem readUnsigned_of_head {bound : Nat} {s : List Char} (h : s.head? ≠ some '+') :
    readUnsigned bound s = readDigits bound s := by
  unfold readUnsigned
  split
  · exact absurd rfl h
  · rfl

theorem readInteger_toString {bound n : Nat} (h : n < bound) :
    readInteger bound (toString n) = some n := by
  have hdigits : ∀ c ∈ (toString n).toList, c.isDigit = true := fun _ => isDigit_of_mem_toString
  have hplus : (toString n).toList.head? ≠ some '+' := by
    intro he
    exact absurd (hdigits '+' (List.mem_of_mem_head? he)) (by decide)
  rw [readInteger, trim_eq_self fun c hc => not_isBlank_of_isDigit (hdigits c hc),
    readUnsigned_of_head hplus, readDigits, digitsValue_toString]
  exact if_pos ⟨toList_toString_ne_nil n, List.all_eq_true.mpr hdigits, h⟩

theorem readInteger_toString_uInt32 (n : UInt32) :
    readInteger UInt32.size (toString n) = some n.toNat :=
  readInteger_toString n.toNat_lt

theorem readInteger_toString_uInt16 (n : UInt16) :
    readInteger UInt16.size (toString n) = some n.toNat :=
  readInteger_toString n.toNat_lt

/-! ## Numbers at the start of a text -/

section LeadingNumber

variable {s after : List Char} {n : Nat}

/-- A text begins with digits, at least one, and all that stand there together denote a number. -/
def LeadingNumber (s : List Char) (n : Nat) : Prop :=
  ∃ digits after, s = digits ++ after ∧ digits ≠ [] ∧ (∀ d ∈ digits, d.isDigit = true) ∧
    (∀ c ∈ after.head?, c.isDigit = false) ∧ digitsValue digits = n

theorem readLeading_eq_some_iff {bound : Nat} :
    readLeading bound s = some n ↔ LeadingNumber s n ∧ n < bound := by
  unfold readLeading readDigits
  constructor
  · intro h
    split at h
    next hdigits =>
      obtain rfl := Option.some.inj h
      exact ⟨⟨_, s.dropWhile Char.isDigit, List.takeWhile_append_dropWhile.symm, hdigits.1,
        List.all_eq_true.mp hdigits.2.1, head?_dropWhile Char.isDigit s, rfl⟩, hdigits.2.2⟩
    next => cases h
  · rintro ⟨⟨digits, after, rfl, hne, hdigits, hafter, rfl⟩, hbound⟩
    rw [takeWhile_run hdigits hafter]
    exact if_pos ⟨hne, List.all_eq_true.mpr hdigits, hbound⟩

/-- The decimal text of a number is read back whatever stands behind it, but for more digits. -/
theorem leadingNumber_toString (n : Nat) (hafter : ∀ c ∈ after.head?, c.isDigit = false) :
    LeadingNumber ((toString n).toList ++ after) n :=
  ⟨_, after, rfl, toList_toString_ne_nil n, fun _ => isDigit_of_mem_toString, hafter,
    digitsValue_toString n⟩

end LeadingNumber

end VirtBoard.Text
