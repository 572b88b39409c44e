import VirtBoard.Text.Blank

/-!
# Decimal numbers

Reading of unsigned decimal numbers below a bound.  Only the ASCII digits count, any number of
leading zeros is allowed, and the value is exact: a number too large is refused, not reduced.
-/

namespace VirtBoard.Text

/-- The number that a list of ASCII digits denotes. -/
def digitsValue (ds : List Char) : Nat :=
  ds.foldl (fun n d => 10 * n + (d.toNat - '0'.toNat)) 0

/-- Reads one or more digits that denote a number below `bound`. -/
def readDigits (bound : Nat) (s : List Char) : Option Nat :=
  if s ≠ [] ∧ s.all Char.isDigit ∧ digitsValue s < bound then some (digitsValue s) else none

/-- Reads digits with an optional `+` before them. -/
def readUnsigned (bound : Nat) : List Char → Option Nat
  | '+' :: s => readDigits bound s
  | s => readDigits bound s

/-- Reads a number with blanks around it, as the integer flags take it. -/
def readInteger (bound : Nat) (s : String) : Option Nat :=
  readUnsigned bound (trim s.toList)

/-- Reads the digits that a text begins with; what follows them is ignored. -/
def readLeading (bound : Nat) (s : List Char) : Option Nat :=
  readDigits bound (s.takeWhile Char.isDigit)

end VirtBoard.Text
