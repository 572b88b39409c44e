import VirtBoard.Proofs.Text.Lossy

/-!
# Whole and broken characters

Bytes are the encodings of characters and, between them, parts that are broken: a longest part that
begins a character but does not become one, or a byte that begins none.
-/

namespace VirtBoard.Text

open String (utf8EncodeChar)

/-! ## 1. Encoded characters -/

/-- The last bytes of the encoding of a code. -/
def lastBytes : Nat → Nat → List UInt8
  | 0, _ => []
  | k + 1, v => UInt8.ofNat (v / 64 ^ k % 64 + 0x80) :: lastBytes k v

/-- The first byte of the encoding of a code. -/
def firstByte (v : Nat) : Nat :=
  if v ≤ 0x7F then v
  else if v ≤ 0x7FF then v / 0x40 + 0xC0
  else if v ≤ 0xFFFF then v / 0x1000 + 0xE0
  else v / 0x40000 + 0xF0

/-- The number of bytes behind the first one. -/
def furtherBytes (v : Nat) : Nat :=
  if v ≤ 0x7F then 0 else if v ≤ 0x7FF then 1 else if v ≤ 0xFFFF then 2 else 3

variable {b : UInt8} {c : Char} {p : Pending} {part rest : List UInt8}

theorem code_valid (c : Char) : c.toNat < 0xD800 ∨ 0xE000 ≤ c.toNat ∧ c.toNat < 0x110000 := by
  have h := c.valid
  unfold UInt32.isValidChar Nat.isValidChar at h
  unfold Char.toNat
  omega

theorem firstByte_lt (c : Char) : firstByte c.toNat < 0x100 := by
  have h := code_valid c
  unfold firstByte
  split_ifs <;> omega

theorem utf8EncodeChar_eq (c : Char) :
    utf8EncodeChar c =
      UInt8.ofNat (firstByte c.toNat) :: lastBytes (furtherBytes c.toNat) c.toNat := by
  have h := code_valid c
  have hval : c.val.toNat = c.toNat := rfl
  rw [utf8EncodeChar]
  unfold firstByte furtherBytes
  rw [hval]
  -- The bits that the first byte takes are all that is left of the code.
  split_ifs
  · rfl
  · rw [Nat.mod_eq_of_lt (by omega)]
    simp only [lastBytes, Nat.pow_zero, Nat.div_one]
  · rw [Nat.mod_eq_of_lt (by omega)]
    simp only [lastBytes, Nat.pow_zero, Nat.div_one, Nat.pow_one]
  · rw [Nat.mod_eq_of_lt (by omega)]
    simp only [lastBytes, Nat.pow_zero, Nat.div_one, Nat.pow_one, Nat.reducePow]

theorem singleton_begins_iff : [b] <+: utf8EncodeChar c ↔ b.toNat = firstByte c.toNat := by
  have h := firstByte_lt c
  rw [utf8EncodeChar_eq, List.cons_prefix_cons, ← UInt8.toNat_inj, UInt8.toNat_ofNat',
    Nat.mod_eq_of_lt h]
  exact and_iff_left List.nil_prefix

/-! ## 2. Begun characters -/

namespace Pending

/-- Some bytes have begun a character: just those characters begin with them that the codes allow,
and what is missing of them are their last bytes. -/
structure Begins (p : Pending) (part : List UInt8) : Prop where
  valid : p.Valid
  range : p.low.toNat ≤ p.high.toNat ∧ p.high.toNat ≤ 0xBF
  codes : ∀ c : Char, part <+: utf8EncodeChar c → p.least ≤ c.toNat ∧ c.toNat < p.bound
  rest : ∀ c : Char, p.least ≤ c.toNat → c.toNat < p.bound →
    utf8EncodeChar c = part ++ lastBytes p.missing c.toNat

theorem begins_of_lead (h : lead b = some (.inr p)) : p.Begins [b] := by
  have hvalid := valid_of_lead h
  simp only [lead, UInt8.le_iff_toNat_le, UInt8.lt_iff_toNat_lt, UInt8.reduceToNat,
    ← UInt8.toNat_inj] at h
  have hrest : ∀ c : Char, b.toNat = firstByte c.toNat → p.missing = furtherBytes c.toNat →
      utf8EncodeChar c = [b] ++ lastBytes p.missing c.toNat := by
    intro c hb hmissing
    rw [utf8EncodeChar_eq, ← hb, UInt8.ofNat_toNat, hmissing]
    rfl
  -- One case for each set of first bytes, and in it one for each length of an encoding.
  repeat' split at h
  all_goals
    simp only [Option.some.injEq, Sum.inr.injEq, reduceCtorEq] at h
  all_goals
    subst h
    refine ⟨hvalid, by simp only [UInt8.reduceToNat]; omega, fun c hc => ?_,
      fun c hleast hbound => ?_⟩
    · have hb := singleton_begins_iff.mp hc
      have hc := code_valid c
      simp only [Pending.least, bound, UInt8.reduceToNat, Nat.reduceSub, Nat.reducePow, Nat.mul_one]
      unfold firstByte at hb
      split_ifs at hb <;> omega
    · simp only [Pending.least, bound, UInt8.reduceToNat, Nat.reduceSub, Nat.reducePow,
        Nat.mul_one] at hleast hbound
      refine hrest c ?_ ?_
      · unfold firstByte
        split_ifs <;> omega
      · dsimp only [furtherBytes]
        split_ifs <;> omega

section Begins

variable {v : Nat}

theorem lastBytes_of_pos (hmissing : 1 ≤ p.missing) (v : Nat) :
    lastBytes p.missing v =
      UInt8.ofNat (v / 64 ^ (p.missing - 1) % 64 + 0x80) :: lastBytes (p.missing - 1) v := by
  obtain ⟨k, hk⟩ := Nat.exists_eq_add_of_le' hmissing
  rw [hk]
  rfl

/-- What a byte has to be to continue a code that is still allowed. -/
theorem Begins.eq_ofNat_iff (hp : p.Begins part) (hle : p.least ≤ v) (hlt : v < p.bound) :
    b = UInt8.ofNat (v / 64 ^ (p.missing - 1) % 64 + 0x80) ↔
      (p.low ≤ b ∧ b ≤ p.high) ∧ p.continued b = v / 64 ^ (p.missing - 1) := by
  have hpos : 0 < 64 ^ (p.missing - 1) := Nat.pow_pos (by decide)
  have hleast := (Nat.le_div_iff_mul_le hpos).mpr hle
  have hbound := (Nat.div_lt_iff_lt_mul hpos).mpr hlt
  have hlow := hp.valid.low
  have hrange := hp.range
  -- The codes that are allowed have the bits so far in common, and the next six bits decide.
  rw [← UInt8.toNat_inj, UInt8.toNat_ofNat', UInt8.le_iff_toNat_le, UInt8.le_iff_toNat_le]
  unfold continued
  omega

/-- What is missing of a character that begins with one byte more. -/
theorem Begins.rest_concat (hp : p.Begins part) (hb : p.low ≤ b ∧ b ≤ p.high)
    (hle : p.continued b * 64 ^ (p.missing - 1) ≤ c.toNat)
    (hlt : c.toNat < (p.continued b + 1) * 64 ^ (p.missing - 1)) :
    utf8EncodeChar c = part ++ [b] ++ lastBytes (p.missing - 1) c.toNat := by
  obtain ⟨hleast, hbound⟩ := hp.valid.continued_le hb
  have hleast := hleast.trans hle
  have hbound := hlt.trans_le hbound
  have hnext := (hp.eq_ofNat_iff hleast hbound).mpr ⟨hb, (Nat.div_eq_of_lt_le hle hlt).symm⟩
  rw [hp.rest c hleast hbound, lastBytes_of_pos hp.valid.missing, ← hnext, List.append_assoc]
  rfl

/-- The characters that begin with one byte more. -/
theorem Begins.concat (hp : p.Begins part) (h : part ++ [b] <+: utf8EncodeChar c) :
    (p.low ≤ b ∧ b ≤ p.high) ∧ p.continued b * 64 ^ (p.missing - 1) ≤ c.toNat ∧
      c.toNat < (p.continued b + 1) * 64 ^ (p.missing - 1) := by
  have hpos : 0 < 64 ^ (p.missing - 1) := Nat.pow_pos (by decide)
  obtain ⟨hle, hlt⟩ := hp.codes c ((List.prefix_append part [b]).trans h)
  rw [hp.rest c hle hlt, List.prefix_append_right_inj, lastBytes_of_pos hp.valid.missing,
    List.cons_prefix_cons] at h
  obtain ⟨hb, hcode⟩ := (hp.eq_ofNat_iff hle hlt).mp h.1
  rw [hcode]
  exact ⟨hb, Nat.div_mul_le_self _ _, (Nat.div_lt_iff_lt_mul hpos).mp (Nat.lt_succ_self _)⟩

theorem Begins.next (hp : p.Begins part) (hb : p.low ≤ b ∧ b ≤ p.high)
    (hmissing : 1 < p.missing) : (p.next b).Begins (part ++ [b]) := by
  refine ⟨hp.valid.next hb hmissing, ?_, fun c hc => ?_, fun c hle hlt => ?_⟩
  · simp only [Pending.next, UInt8.reduceToNat]
    omega
  · rw [least_next hmissing, bound_next hmissing]
    exact (hp.concat hc).2
  · rw [least_next hmissing] at hle
    rw [bound_next hmissing] at hlt
    exact hp.rest_concat hb hle hlt

/-- The last byte makes the character whole. -/
theorem Begins.whole (hp : p.Begins part) (hb : p.low ≤ b ∧ b ≤ p.high)
    (hmissing : p.missing = 1) :
    utf8EncodeChar (Char.ofNat (p.continued b)) = part ++ [b] := by
  have hcode := (hp.valid.last hb hmissing).1
  have hwhole := hp.rest_concat (c := Char.ofNat (p.continued b)) hb
  rw [hcode, hmissing, Nat.sub_self, Nat.pow_zero, Nat.mul_one, Nat.mul_one] at hwhole
  rw [hwhole (Nat.le_refl _) (Nat.lt_succ_self _)]
  exact List.append_nil _

theorem Begins.least_lt_bound (hp : p.Begins part) : p.least < p.bound := by
  have hrange := hp.range
  exact Nat.mul_lt_mul_of_pos_right (by omega) (Nat.pow_pos (by decide))

theorem Begins.begun (hp : p.Begins part) : ∃ c, part <+: utf8EncodeChar c := by
  have hlt := hp.least_lt_bound
  have hcodes := hp.valid.codes
  have hvalid : p.least.isValidChar := by
    unfold Nat.isValidChar
    omega
  have hcode := toNat_ofNat_of_valid hvalid
  have hrest := hp.rest (Char.ofNat p.least)
  rw [hcode] at hrest
  exact ⟨Char.ofNat p.least, lastBytes p.missing p.least, (hrest (Nat.le_refl _) hlt).symm⟩

theorem Begins.unfinished (hp : p.Begins part) (c : Char) : utf8EncodeChar c ≠ part := by
  intro h
  obtain ⟨hle, hlt⟩ := hp.codes c (h ▸ List.prefix_refl part)
  have hrest := hp.rest c hle hlt
  rw [h, lastBytes_of_pos hp.valid.missing] at hrest
  exact List.cons_ne_nil _ _ (List.self_eq_append_right.mp hrest)

theorem Begins.ne_nil (hp : p.Begins part) : part ≠ [] := by
  rintro rfl
  have hletter := (hp.codes 'a' List.nil_prefix).1
  have hleast := hp.valid.least
  have : 'a'.toNat = 97 := rfl
  omega

/-- A byte that may come next continues some character. -/
theorem Begins.continues (hp : p.Begins part) (hb : p.low ≤ b ∧ b ≤ p.high) :
    ∃ c, part ++ [b] <+: utf8EncodeChar c := by
  by_cases hmissing : p.missing = 1
  · exact ⟨_, [], (List.append_nil _).trans (hp.whole hb hmissing).symm⟩
  · have hpos := hp.valid.missing
    exact (hp.next hb (by omega)).begun

end Begins

end Pending

/-! ## 3. What the reader reads -/

/-- A part in front of some bytes that is broken: a longest one that begins a character but does not
become one, or a byte that begins none. -/
structure Broken (part rest : List UInt8) : Prop where
  begun : part.length = 1 ∨ part ≠ [] ∧ ∃ c, part <+: utf8EncodeChar c
  unfinished : ∀ c, utf8EncodeChar c ≠ part
  longest : ∀ b ∈ rest.head?, ∀ c, ¬part ++ [b] <+: utf8EncodeChar c

/-- The text that bytes are read as: the characters that they encode, with a replacement for each
broken part. -/
inductive Reads : List UInt8 → List Char → Prop
  | nil : Reads [] []
  | whole (c : Char) {rest : List UInt8} {s : List Char} (h : Reads rest s) :
    Reads (utf8EncodeChar c ++ rest) (c :: s)
  | broken {part rest : List UInt8} {s : List Char} (hpart : Broken part rest) (h : Reads rest s) :
    Reads (part ++ rest) (replacement :: s)

section Reads

variable {s : List Char} {bs : List UInt8}

theorem Reads.of_eq (hwhole : utf8EncodeChar c = part) (h : Reads rest s) :
    Reads (part ++ rest) (c :: s) :=
  hwhole ▸ .whole c h

theorem lead_whole (h : lead b = some (.inl c)) : utf8EncodeChar c = [b] := by
  obtain ⟨hb, hcode⟩ := lead_eq_inl h
  have hsmall : b.toNat ≤ 0x7F := by omega
  rw [utf8EncodeChar_eq, hcode, firstByte, if_pos hsmall, furtherBytes, if_pos hsmall,
    UInt8.ofNat_toNat]
  rfl

/-- No other character begins with a byte that is a character of its own. -/
theorem eq_of_lead {d : Char} (h : lead b = some (.inl c)) (hd : [b] <+: utf8EncodeChar d) :
    d = c := by
  obtain ⟨hb, hcode⟩ := lead_eq_inl h
  rw [singleton_begins_iff] at hd
  have hcode : d.toNat = c.toNat := by
    unfold firstByte at hd
    split_ifs at hd <;> omega
  rw [← Char.ofNat_toNat d, hcode, Char.ofNat_toNat]

theorem not_begins_of_lead (h : lead b = none) (c : Char) : ¬[b] <+: utf8EncodeChar c := by
  rw [singleton_begins_iff]
  intro hb
  have hc := code_valid c
  simp only [lead, UInt8.le_iff_toNat_le, UInt8.lt_iff_toNat_lt, UInt8.reduceToNat,
    ← UInt8.toNat_inj] at h
  repeat' split at h
  all_goals simp only [reduceCtorEq] at h
  unfold firstByte at hb
  split_ifs at hb <;> omega

theorem Pending.Begins.broken (hp : p.Begins part)
    (h : ∀ b ∈ rest.head?, ¬(p.low ≤ b ∧ b ≤ p.high)) : Broken part rest where
  begun := Or.inr ⟨hp.ne_nil, hp.begun⟩
  unfinished := hp.unfinished
  longest b hb _ hc := h b hb (hp.concat hc).1

theorem broken_of_lead (h : lead b = none) (rest : List UInt8) : Broken [b] rest where
  begun := Or.inl rfl
  unfinished c hc := not_begins_of_lead h c (hc ▸ List.prefix_refl _)
  longest b' _ c hc := not_begins_of_lead h c ((List.prefix_append [b] [b']).trans hc)

theorem decodeFrom_none_cons (b : UInt8) (bs : List UInt8) :
    decodeFrom none (b :: bs) = (stepFresh b).1 ++ decodeFrom (stepFresh b).2 bs := by
  rw [decodeFrom, step]

theorem decodeFrom_some_broken (h : ¬(p.low ≤ b ∧ b ≤ p.high)) (bs : List UInt8) :
    decodeFrom (some p) (b :: bs) = replacement :: decodeFrom none (b :: bs) := by
  rw [decodeFrom_none_cons, decodeFrom, step, if_neg h]
  rfl

/-- The reader reads whole characters and replaces broken parts, also those that it has begun. -/
theorem reads_decodeFrom (bs : List UInt8) :
    Reads bs (decodeFrom none bs) ∧
      ∀ p part, p.Begins part → Reads (part ++ bs) (decodeFrom (some p) bs) := by
  induction bs with
  | nil => exact ⟨.nil, fun p part hp => .broken (hp.broken fun _ hb => (nomatch hb)) .nil⟩
  | cons b bs ih =>
    -- Behind a broken part the byte is read where a character may begin, so that comes first.
    have hfresh : Reads (b :: bs) (decodeFrom none (b :: bs)) := by
      rw [decodeFrom_none_cons, stepFresh]
      cases hlead : lead b with
      | none => exact .broken (broken_of_lead hlead bs) ih.1
      | some begun =>
        cases begun with
        | inl c => exact .of_eq (lead_whole hlead) ih.1
        | inr p => exact ih.2 p [b] (Pending.begins_of_lead hlead)
    refine ⟨hfresh, fun p part hp => ?_⟩
    by_cases hb : p.low ≤ b ∧ b ≤ p.high
    · rw [decodeFrom, step_continued hb, List.append_cons]
      by_cases hmissing : p.missing = 1
      · rw [if_pos hmissing]
        exact .of_eq (hp.whole hb hmissing) ih.1
      · rw [if_neg hmissing]
        have hpos := hp.valid.missing
        exact ih.2 (p.next b) (part ++ [b]) (hp.next hb (by omega))
    · rw [decodeFrom_some_broken hb]
      refine .broken (hp.broken fun b' hb' => ?_) hfresh
      obtain rfl := Option.some.inj hb'
      exact hb

/-- The bytes that are missing of a character make it whole. -/
theorem Pending.Begins.decodeFrom_whole (hp : p.Begins part) {more : List UInt8}
    (h : utf8EncodeChar c = part ++ more) (rest : List UInt8) :
    decodeFrom (some p) (more ++ rest) = c :: decodeFrom none rest := by
  induction more generalizing p part with
  | nil => exact absurd (h.trans (List.append_nil part)) (hp.unfinished c)
  | cons b more ih =>
    rw [List.append_cons] at h
    obtain ⟨hb, hle, hlt⟩ := hp.concat ⟨more, h.symm⟩
    rw [List.cons_append, decodeFrom, step_continued hb]
    by_cases hmissing : p.missing = 1
    · have hrest := h.symm.trans (hp.rest_concat hb hle hlt)
      rw [hmissing] at hle hlt hrest
      rw [List.append_cancel_left hrest, if_pos hmissing]
      have hcode : p.continued b = c.toNat := by
        simp only [Nat.sub_self, Nat.pow_zero, Nat.mul_one] at hle hlt
        omega
      rw [hcode, Char.ofNat_toNat]
      rfl
    · have hpos := hp.valid.missing
      rw [if_neg hmissing]
      exact ih (hp.next hb (by omega)) h

theorem decodeFrom_whole (c : Char) (rest : List UInt8) :
    decodeFrom none (utf8EncodeChar c ++ rest) = c :: decodeFrom none rest := by
  obtain ⟨b, more, hwhole⟩ : ∃ b more, utf8EncodeChar c = b :: more :=
    ⟨_, _, utf8EncodeChar_eq c⟩
  have hfirst : [b] <+: utf8EncodeChar c := ⟨more, hwhole.symm⟩
  rw [hwhole, List.cons_append, decodeFrom_none_cons, stepFresh]
  cases hlead : lead b with
  | none => exact absurd hfirst (not_begins_of_lead hlead c)
  | some begun =>
    cases begun with
    | inl d =>
      obtain rfl := eq_of_lead hlead hfirst
      obtain rfl := (List.cons.inj (hwhole.symm.trans (lead_whole hlead))).2
      rfl
    | inr p => exact (Pending.begins_of_lead hlead).decodeFrom_whole hwhole rest

/-- What stands behind a broken part is read anew. -/
theorem Pending.Begins.decodeFrom_broken (hp : p.Begins part) {more : List UInt8}
    (h : Broken (part ++ more) rest) :
    decodeFrom (some p) (more ++ rest) = replacement :: decodeFrom none rest := by
  induction more generalizing p part with
  | nil =>
    rw [List.append_nil] at h
    cases rest with
    | nil => rfl
    | cons b rest =>
      refine decodeFrom_some_broken (fun hb => ?_) rest
      obtain ⟨c, hc⟩ := hp.continues hb
      exact h.longest b rfl c hc
  | cons b more ih =>
    have hlong : (part ++ b :: more).length ≠ 1 := fun hone => hp.ne_nil (by
      rw [List.length_append, List.length_cons] at hone
      exact List.eq_nil_of_length_eq_zero (by omega))
    obtain ⟨-, c, hc⟩ := h.begun.resolve_left hlong
    rw [List.append_cons] at h hc
    obtain ⟨hb, hle, hlt⟩ := hp.concat ((List.prefix_append _ more).trans hc)
    rw [List.cons_append, decodeFrom, step_continued hb]
    by_cases hmissing : p.missing = 1
    · -- The last byte would make the character whole, and nothing behind it could be part of it.
      have hwhole := hp.rest_concat hb hle hlt
      rw [hmissing] at hwhole
      rw [hwhole] at hc
      obtain rfl := List.prefix_nil.mp ((List.prefix_append_right_inj _).mp hc)
      exact absurd hwhole (h.unfinished c)
    · have hpos := hp.valid.missing
      rw [if_neg hmissing]
      exact ih (hp.next hb (by omega)) h

theorem decodeFrom_broken (h : Broken part rest) :
    decodeFrom none (part ++ rest) = replacement :: decodeFrom none rest := by
  cases part with
  | nil => exact absurd h.begun (by simp)
  | cons b more =>
    have hbegun : more = [] ∨ ∃ c, [b] <+: utf8EncodeChar c ∧ b :: more <+: utf8EncodeChar c := by
      refine h.begun.imp (fun hone => List.eq_nil_of_length_eq_zero (Nat.succ.inj hone)) ?_
      rintro ⟨-, c, hc⟩
      exact ⟨c, (List.prefix_append [b] more).trans hc, hc⟩
    rw [List.cons_append, decodeFrom_none_cons, stepFresh]
    cases hlead : lead b with
    | none =>
      rcases hbegun with rfl | ⟨c, hc, -⟩
      · rfl
      · exact absurd hc (not_begins_of_lead hlead c)
    | some begun =>
      cases begun with
      | inl d =>
        have hwhole := lead_whole hlead
        rcases hbegun with rfl | ⟨c, hfirst, hc⟩
        · exact absurd hwhole (h.unfinished d)
        · obtain rfl := eq_of_lead hlead hfirst
          rw [hwhole] at hc
          obtain rfl := List.prefix_nil.mp ((List.prefix_cons_inj b).mp hc)
          exact absurd hwhole (h.unfinished c)
      | inr p => exact (Pending.begins_of_lead hlead).decodeFrom_broken h

/-- Bytes are read as a text in no other way. -/
theorem decodeLossy_eq_iff : decodeLossy bs = s ↔ Reads bs s := by
  refine ⟨fun h => h ▸ (reads_decodeFrom bs).1, fun h => ?_⟩
  unfold decodeLossy
  induction h with
  | nil => rfl
  | whole c _ ih => rw [decodeFrom_whole, ih]
  | broken hpart _ ih => rw [decodeFrom_broken hpart, ih]

end Reads

end VirtBoard.Text
