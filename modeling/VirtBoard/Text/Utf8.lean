/-!
# Reading bytes as text

A byte string from another program need not be UTF-8.  `decodeLossy` keeps every well-formed
character and puts one replacement character for each maximal part that could have begun a
character but did not become one.

The reader is a machine with one state for each set of bytes that may come next.
-/

namespace VirtBoard.Text

/-- What has been read of a character: its bits so far, how many bytes are missing, and the range
that the next byte has to be in. -/
structure Pending where
  bits : Nat
  missing : Nat
  low : UInt8
  high : UInt8

/-- What the first byte of a character begins; `none` if no character begins with it. -/
def lead (b : UInt8) : Option (Char ⊕ Pending) :=
  if b < 0x80 then some (.inl (Char.ofNat b.toNat))
  else if 0xC2 ≤ b ∧ b ≤ 0xDF then some (.inr ⟨b.toNat - 0xC0, 1, 0x80, 0xBF⟩)
  else if b = 0xE0 then some (.inr ⟨0, 2, 0xA0, 0xBF⟩)
  else if b = 0xED then some (.inr ⟨0xD, 2, 0x80, 0x9F⟩)
  else if 0xE1 ≤ b ∧ b ≤ 0xEF then some (.inr ⟨b.toNat - 0xE0, 2, 0x80, 0xBF⟩)
  else if b = 0xF0 then some (.inr ⟨0, 3, 0x90, 0xBF⟩)
  else if 0xF1 ≤ b ∧ b ≤ 0xF3 then some (.inr ⟨b.toNat - 0xF0, 3, 0x80, 0xBF⟩)
  else if b = 0xF4 then some (.inr ⟨4, 3, 0x80, 0x8F⟩)
  else none

def replacement : Char := '\uFFFD'

/-- Reads a byte where a character may begin. -/
def stepFresh (b : UInt8) : List Char × Option Pending :=
  match lead b with
  | none => ([replacement], none)
  | some (.inl c) => ([c], none)
  | some (.inr p) => ([], some p)

/-- Reads a byte: the characters it completes, and the character it leaves unfinished.  A byte that
cannot continue an unfinished character ends it as a replacement and is read again. -/
def step : Option Pending → UInt8 → List Char × Option Pending
  | none, b => stepFresh b
  | some p, b =>
    if p.low ≤ b ∧ b ≤ p.high then
      let bits := 64 * p.bits + (b.toNat - 0x80)
      if p.missing = 1 then ([Char.ofNat bits], none)
      else ([], some ⟨bits, p.missing - 1, 0x80, 0xBF⟩)
    else
      let (cs, next) := stepFresh b
      (replacement :: cs, next)

/-- Reads the bytes that follow an unfinished character, if any. -/
def decodeFrom : Option Pending → List UInt8 → List Char
  | none, [] => []
  | some _, [] => [replacement]
  | p, b :: bs => (step p b).1 ++ decodeFrom (step p b).2 bs

/-- The text of a byte string, with a replacement character for each part that is not UTF-8. -/
def decodeLossy (bs : List UInt8) : List Char :=
  decodeFrom none bs

end VirtBoard.Text
