import Mathlib.Algebra.Group.Nat.Defs
import VirtBoard.Proofs.Text.Blanks
import VirtBoard.Text.Line
import VirtBoard.Text.Utf8

/-!
# Bytes read as text

A byte below 0x80 is a character of its own wherever it stands: it ends a character that is not
finished and begins none.  No other byte is part of such a character, because whatever a first byte
begins has a code of at least 0x80.  So the first line of some bytes can be cut off before they are
read as well as afterwards.
-/

namespace VirtBoard.Text

/-! ## 1. Unfinished characters -/

theorem toNat_ofNat_of_valid {n : Nat} (h : n.isValidChar) : (Char.ofNat n).toNat = n := by
  rw [Char.ofNat, dif_pos h]
  rfl

namespace Pending

/-- The least code that an unfinished character can still get. -/
def least (p : Pending) : Nat :=
  (64 * p.bits + (p.low.toNat - 0x80)) * 64 ^ (p.missing - 1)

/-- What the codes stay below that an unfinished character can still get. -/
def bound (p : Pending) : Nat :=
  (64 * p.bits + (p.high.toNat - 0x80) + 1) * 64 ^ (p.missing - 1)

/-- All codes that an unfinished character can still get are those of characters, and none of them is
below 0x80. -/
structure Valid (p : Pending) : Prop where
  low : 0x80 ≤ p.low.toNat
  missing : 1 ≤ p.missing
  least : 0x80 ≤ p.least
  codes : p.bound ≤ 0xD800 ∨ 0xE000 ≤ p.least ∧ p.bound ≤ 0x110000

theorem valid_of_lead {b : UInt8} {p : Pending} (h : lead b = some (.inr p)) : p.Valid := by
  simp only [lead, UInt8.le_iff_toNat_le, UInt8.lt_iff_toNat_lt, UInt8.reduceToNat,
    ← UInt8.toNat_inj] at h
  -- One case for each set of first bytes.
  repeat' split at h
  all_goals
    simp only [Option.some.injEq, Sum.inr.injEq, reduceCtorEq] at h
  all_goals
    subst h
    constructor <;>
      simp only [Pending.least, bound, UInt8.reduceToNat, Nat.reduceSub, Nat.reducePow,
        Nat.mul_one] <;>
      omega

section Continue

variable {p : Pending} {b : UInt8}

/-- The code of an unfinished character with one more byte. -/
def continued (p : Pending) (b : UInt8) : Nat :=
  64 * p.bits + (b.toNat - 0x80)

/-- An unfinished character with one more byte, of which it still misses some. -/
def next (p : Pending) (b : UInt8) : Pending :=
  ⟨p.continued b, p.missing - 1, 0x80, 0xBF⟩

theorem pow_missing (hmissing : 1 < p.missing) :
    64 ^ (p.missing - 1) = 64 * 64 ^ (p.missing - 1 - 1) := by
  rw [← Nat.pow_succ', Nat.succ_eq_add_one, Nat.sub_add_cancel (by omega)]

theorem least_next (hmissing : 1 < p.missing) :
    (p.next b).least = p.continued b * 64 ^ (p.missing - 1) := by
  rw [pow_missing hmissing, ← Nat.mul_assoc, Nat.mul_comm _ 64]
  simp only [least, next, UInt8.reduceToNat, Nat.reduceSub, Nat.add_zero]

theorem bound_next (hmissing : 1 < p.missing) :
    (p.next b).bound = (p.continued b + 1) * 64 ^ (p.missing - 1) := by
  rw [pow_missing hmissing, ← Nat.mul_assoc, Nat.mul_comm _ 64, Nat.mul_add]
  simp only [bound, next, UInt8.reduceToNat, Nat.reduceSub, Nat.mul_one, Nat.add_assoc,
    Nat.reduceAdd]

/-- One more byte leaves some of the codes. -/
theorem Valid.continued_le (hp : p.Valid) (hb : p.low ≤ b ∧ b ≤ p.high) :
    p.least ≤ p.continued b * 64 ^ (p.missing - 1) ∧
      (p.continued b + 1) * 64 ^ (p.missing - 1) ≤ p.bound := by
  have hlow := UInt8.le_iff_toNat_le.mp hb.1
  have hhigh := UInt8.le_iff_toNat_le.mp hb.2
  have hp := hp.low
  unfold continued
  exact ⟨Nat.mul_le_mul_right _ (by omega), Nat.mul_le_mul_right _ (by omega)⟩

theorem Valid.next (hp : p.Valid) (hb : p.low ≤ b ∧ b ≤ p.high) (hmissing : 1 < p.missing) :
    (p.next b).Valid := by
  obtain ⟨hle, hlt⟩ := hp.continued_le hb
  rw [← least_next hmissing] at hle
  rw [← bound_next hmissing] at hlt
  have hleast := hp.least
  have hcodes := hp.codes
  refine ⟨?_, ?_, by omega, by omega⟩
  · simp only [Pending.next, UInt8.reduceToNat, Nat.le_refl]
  · simp only [Pending.next]
    omega

/-- The last byte makes a character of the code. -/
theorem Valid.last (hp : p.Valid) (hb : p.low ≤ b ∧ b ≤ p.high) (hmissing : p.missing = 1) :
    (Char.ofNat (p.continued b)).toNat = p.continued b ∧ 0x80 ≤ p.continued b := by
  obtain ⟨hle, hlt⟩ := hp.continued_le hb
  rw [hmissing, Nat.sub_self, Nat.pow_zero, Nat.mul_one] at hle hlt
  have hcodes := hp.codes
  have hleast := hp.least
  have hvalid : (p.continued b).isValidChar := by
    unfold Nat.isValidChar
    omega
  exact ⟨toNat_ofNat_of_valid hvalid, by omega⟩

end Continue

end Pending

/-! ## 2. Bytes below 0x80 -/

section Ascii

variable {p : Option Pending} {b : UInt8} {c : Char} {line rest bs : List UInt8}

theorem lead_eq_inl (h : lead b = some (.inl c)) : b.toNat < 0x80 ∧ c.toNat = b.toNat := by
  simp only [lead, UInt8.lt_iff_toNat_lt, UInt8.reduceToNat] at h
  split at h
  next hb =>
    obtain rfl := Sum.inl.inj (Option.some.inj h)
    exact ⟨hb, toNat_ofNat_of_valid (Or.inl (by omega))⟩
  next =>
    repeat' split at h
    all_goals simp only [Option.some.injEq, reduceCtorEq] at h

theorem stepFresh_ascii (hb : b.toNat < 0x80) : stepFresh b = ([Char.ofNat b.toNat], none) := by
  rw [stepFresh, lead, if_pos (UInt8.lt_iff_toNat_lt.mpr hb)]

/-- A byte below 0x80 ends what is unfinished, and is a character of its own. -/
theorem step_ascii (hp : ∀ q ∈ p, q.Valid) (hb : b.toNat < 0x80) :
    step p b = (decodeFrom p [] ++ [Char.ofNat b.toNat], none) := by
  cases p with
  | none => exact stepFresh_ascii hb
  | some q =>
    have hlow := (hp q rfl).low
    have hrange : ¬(q.low ≤ b ∧ b ≤ q.high) := fun h => by
      have := UInt8.le_iff_toNat_le.mp h.1
      omega
    rw [step, if_neg hrange, stepFresh_ascii hb]
    rfl

theorem replacement_wide : ∀ c ∈ [replacement], 0x80 ≤ c.toNat := fun c hc => by
  rw [List.mem_singleton.mp hc]
  decide

theorem stepFresh_wide (hb : 0x80 ≤ b.toNat) :
    (∀ c ∈ (stepFresh b).1, 0x80 ≤ c.toNat) ∧ ∀ q ∈ (stepFresh b).2, q.Valid := by
  unfold stepFresh
  split
  next => exact ⟨replacement_wide, fun _ hq => (nomatch hq)⟩
  next c hlead => exact absurd (lead_eq_inl hlead).1 (Nat.not_lt.mpr hb)
  next q hlead =>
    refine ⟨fun _ hc => (nomatch hc), fun q' hq' => ?_⟩
    obtain rfl := Option.some.inj hq'
    exact Pending.valid_of_lead hlead

theorem step_continued {q : Pending} (h : q.low ≤ b ∧ b ≤ q.high) :
    step (some q) b =
      if q.missing = 1 then ([Char.ofNat (q.continued b)], none) else ([], some (q.next b)) := by
  rw [step, if_pos h]
  rfl

/-- No other byte completes a character below 0x80. -/
theorem step_wide (hp : ∀ q ∈ p, q.Valid) (hb : 0x80 ≤ b.toNat) :
    (∀ c ∈ (step p b).1, 0x80 ≤ c.toNat) ∧ ∀ q ∈ (step p b).2, q.Valid := by
  cases p with
  | none => exact stepFresh_wide hb
  | some q =>
    by_cases hrange : q.low ≤ b ∧ b ≤ q.high
    · rw [step_continued hrange]
      by_cases hmissing : q.missing = 1
      · obtain ⟨hcode, hwide⟩ := (hp q rfl).last hrange hmissing
        rw [if_pos hmissing]
        refine ⟨fun c hc => ?_, fun _ hq => (nomatch hq)⟩
        rw [List.mem_singleton.mp hc, hcode]
        exact hwide
      · rw [if_neg hmissing]
        refine ⟨fun _ hc => (nomatch hc), fun q' hq' => ?_⟩
        obtain rfl := Option.some.inj hq'
        have hpos := (hp q rfl).missing
        exact (hp q rfl).next hrange (by omega)
    · rw [step, if_neg hrange]
      obtain ⟨hchars, hnext⟩ := stepFresh_wide hb
      refine ⟨fun c hc => ?_, hnext⟩
      rcases List.mem_cons.mp hc with rfl | hc
      · exact replacement_wide _ (List.mem_singleton_self _)
      · exact hchars c hc

theorem step_valid (hp : ∀ q ∈ p, q.Valid) (b : UInt8) : ∀ q ∈ (step p b).2, q.Valid := by
  by_cases hb : b.toNat < 0x80
  · rw [step_ascii hp hb]
    exact fun _ hq => (nomatch hq)
  · exact (step_wide hp (Nat.le_of_not_lt hb)).2

/-- What bytes are read as does not depend on those behind them, an unfinished character apart. -/
theorem exists_decodeFrom_append (hp : ∀ q ∈ p, q.Valid) (bs : List UInt8) :
    ∃ cs p', (∀ q ∈ p', q.Valid) ∧ ∀ rest, decodeFrom p (bs ++ rest) = cs ++ decodeFrom p' rest := by
  induction bs generalizing p with
  | nil => exact ⟨[], p, hp, fun _ => rfl⟩
  | cons b bs ih =>
    obtain ⟨cs, p', hp', h⟩ := ih (step_valid hp b)
    refine ⟨(step p b).1 ++ cs, p', hp', fun rest => ?_⟩
    rw [List.cons_append, decodeFrom, h, List.append_assoc]

theorem decodeFrom_append_ascii (hp : ∀ q ∈ p, q.Valid) (hb : b.toNat < 0x80)
    (line rest : List UInt8) :
    decodeFrom p (line ++ b :: rest) =
      decodeFrom p line ++ Char.ofNat b.toNat :: decodeFrom none rest := by
  obtain ⟨cs, p', hp', h⟩ := exists_decodeFrom_append hp line
  have hline := h []
  rw [List.append_nil] at hline
  rw [h, hline, decodeFrom, step_ascii hp' hb, List.append_assoc, List.append_assoc]
  rfl

theorem decodeFrom_nil_wide (p : Option Pending) : ∀ c ∈ decodeFrom p [], 0x80 ≤ c.toNat := by
  cases p with
  | none => exact fun _ hc => (nomatch hc)
  | some q => exact replacement_wide

/-- A character below 0x80 is read from its own byte only. -/
theorem toNat_eq_of_mem_step (hp : ∀ q ∈ p, q.Valid) (hc : c.toNat < 0x80)
    (h : c ∈ (step p b).1) : b.toNat = c.toNat := by
  by_cases hb : b.toNat < 0x80
  · rw [step_ascii hp hb] at h
    rcases List.mem_append.mp h with h | h
    · exact absurd (decodeFrom_nil_wide p c h) (Nat.not_le.mpr hc)
    · have hvalid : b.toNat.isValidChar := Or.inl (by omega)
      rw [List.mem_singleton.mp h, toNat_ofNat_of_valid hvalid]
  · exact absurd ((step_wide hp (Nat.le_of_not_lt hb)).1 c h) (Nat.not_le.mpr hc)

theorem exists_byte_of_mem (hp : ∀ q ∈ p, q.Valid) (hc : c.toNat < 0x80)
    (h : c ∈ decodeFrom p bs) : ∃ b ∈ bs, b.toNat = c.toNat := by
  induction bs generalizing p with
  | nil => exact absurd (decodeFrom_nil_wide p c h) (Nat.not_le.mpr hc)
  | cons b bs ih =>
    rw [decodeFrom] at h
    rcases List.mem_append.mp h with h | h
    · exact ⟨b, List.mem_cons_self, toNat_eq_of_mem_step hp hc h⟩
    · obtain ⟨b', hb', heq⟩ := ih (step_valid hp b) h
      exact ⟨b', List.mem_cons_of_mem _ hb', heq⟩

/-- A byte completes a character or leaves one unfinished. -/
theorem decodeFrom_singleton_ne_nil (p : Option Pending) (b : UInt8) : decodeFrom p [b] ≠ [] := by
  have hfresh : (stepFresh b).1 ++ decodeFrom (stepFresh b).2 [] ≠ [] := by
    unfold stepFresh
    split <;> exact List.cons_ne_nil _ _
  rw [decodeFrom]
  cases p with
  | none => exact hfresh
  | some q =>
    by_cases hrange : q.low ≤ b ∧ b ≤ q.high
    · rw [step_continued hrange]
      split <;> exact List.cons_ne_nil _ _
    · rw [step, if_neg hrange]
      exact List.cons_ne_nil _ _

/-- A text ends in a character below 0x80 only if its bytes end in that of the character. -/
theorem exists_byte_of_getLast? (hp : ∀ q ∈ p, q.Valid) (hc : c.toNat < 0x80)
    (h : (decodeFrom p bs).getLast? = some c) : ∃ b ∈ bs.getLast?, b.toNat = c.toNat := by
  rcases List.eq_nil_or_concat bs with rfl | ⟨before, b, rfl⟩
  · have hmem := List.mem_of_getLast? h
    exact absurd (decodeFrom_nil_wide p c hmem) (Nat.not_le.mpr hc)
  · -- Whatever stands before it, the last byte is read as something, which ends the text.
    obtain ⟨cs, p', hp', hsplit⟩ := exists_decodeFrom_append hp before
    rw [List.concat_eq_append] at h ⊢
    rw [hsplit, List.getLast?_append_of_ne_nil _ (decodeFrom_singleton_ne_nil p' b)] at h
    obtain ⟨b', hb', heq⟩ := exists_byte_of_mem hp' hc (List.mem_of_getLast? h)
    obtain rfl := List.mem_singleton.mp hb'
    exact ⟨b', List.getLast?_concat, heq⟩

end Ascii

/-! ## 3. First lines -/

/-- The bytes of the first line of some bytes, less a carriage return right before the line feed. -/
inductive IsFirstLine : List UInt8 → List UInt8 → Prop
  | unended {bs : List UInt8} (h : 0x0A ∉ bs) : IsFirstLine bs bs
  | fed {line : List UInt8} (h : 0x0A ∉ line) (hlast : line.getLast? ≠ some 0x0D)
    (rest : List UInt8) : IsFirstLine (line ++ 0x0A :: rest) line
  | returned {line : List UInt8} (h : 0x0A ∉ line) (rest : List UInt8) :
    IsFirstLine (line ++ 0x0D :: 0x0A :: rest) line

section FirstLine

variable {s : List Char} {bs line rest : List UInt8}

/-- What stands behind a line feed has no part in the first line. -/
theorem exists_isFirstLine_append (h : 0x0A ∉ bs) :
    ∃ line, ∀ rest, IsFirstLine (bs ++ 0x0A :: rest) line := by
  by_cases hlast : bs.getLast? = some 0x0D
  · obtain ⟨line, rfl⟩ := List.getLast?_eq_some_iff.mp hlast
    refine ⟨line, fun rest => ?_⟩
    rw [List.append_assoc]
    exact .returned (fun hmem => h (List.mem_append_left _ hmem)) rest
  · exact ⟨bs, .fed h hlast⟩

theorem exists_isFirstLine (bs : List UInt8) : ∃ line, IsFirstLine bs line := by
  by_cases h : 0x0A ∈ bs
  · obtain ⟨before, rest, rfl, hbefore⟩ := List.eq_append_cons_of_mem h
    obtain ⟨line, hline⟩ := exists_isFirstLine_append hbefore
    exact ⟨line, hline rest⟩
  · exact ⟨bs, .unended h⟩

theorem ne_lineFeed (h : '\n' ∉ s) : ∀ c ∈ s, decide (c ≠ '\n') = true :=
  fun _ hc => decide_eq_true fun heq => h (heq ▸ hc)

theorem firstLine_unended (h : '\n' ∉ s) : firstLine s = s := by
  unfold firstLine
  rw [List.takeWhile_eq_self_iff.mpr (ne_lineFeed h)]
  exact if_neg fun hc => Nat.lt_irrefl _ hc.1

theorem firstLine_append (h : '\n' ∉ s) (rest : List Char) :
    firstLine (s ++ '\n' :: rest) = if s.getLast? = some '\r' then s.dropLast else s := by
  have hfeed : ∀ c ∈ ('\n' :: rest).head?, decide (c ≠ '\n') = false := fun c hc => by
    obtain rfl := Option.some.inj hc
    exact decide_eq_false fun hne => hne rfl
  have hlength : s.length < (s ++ '\n' :: rest).length := by
    rw [List.length_append, List.length_cons]
    omega
  unfold firstLine
  rw [takeWhile_run (ne_lineFeed h) hfeed]
  simp only [hlength, true_and]

theorem none_valid : ∀ q ∈ (none : Option Pending), q.Valid :=
  fun _ hq => (nomatch hq)

theorem decodeLossy_append {b : UInt8} {c : Char} (hb : b.toNat = c.toNat) (hc : c.toNat < 0x80)
    (line rest : List UInt8) :
    decodeLossy (line ++ b :: rest) = decodeLossy line ++ c :: decodeLossy rest := by
  have hread := decodeFrom_append_ascii none_valid (hb ▸ hc) line rest
  rwa [hb, Char.ofNat_toNat] at hread

theorem lineFeed_notMem_decodeLossy (h : 0x0A ∉ bs) : '\n' ∉ decodeLossy bs := fun hc => by
  obtain ⟨b, hb, heq⟩ := exists_byte_of_mem none_valid (by decide) hc
  obtain rfl : b = 0x0A := UInt8.toNat_inj.mp heq
  exact h hb

/-- The first line of a text is the text of the first line. -/
theorem IsFirstLine.firstLine_decodeLossy (h : IsFirstLine bs line) :
    firstLine (decodeLossy bs) = decodeLossy line := by
  cases h with
  | unended h => exact firstLine_unended (lineFeed_notMem_decodeLossy h)
  | fed h hlast rest =>
    rw [decodeLossy_append (c := '\n') rfl (by decide),
      firstLine_append (lineFeed_notMem_decodeLossy h), if_neg]
    intro hreturn
    obtain ⟨b, hb, heq⟩ := exists_byte_of_getLast? none_valid (by decide) hreturn
    obtain rfl : b = 0x0D := UInt8.toNat_inj.mp heq
    exact hlast hb
  | returned h rest =>
    have hreturn : 0x0A ∉ line ++ [0x0D] := fun hc => by
      rcases List.mem_append.mp hc with hc | hc
      · exact h hc
      · exact absurd (List.mem_singleton.mp hc) (by decide)
    -- The carriage return is a character of its own, and the last one of the line.
    have hline : decodeLossy (line ++ [0x0D]) = decodeLossy line ++ ['\r'] :=
      decodeLossy_append rfl (by decide) line []
    rw [List.append_cons, decodeLossy_append (c := '\n') rfl (by decide),
      firstLine_append (lineFeed_notMem_decodeLossy hreturn), hline, if_pos List.getLast?_concat,
      List.dropLast_concat]

end FirstLine

end VirtBoard.Text
