/-!
# Hexadecimal digits

Lower-case hexadecimal, for characters that are written by number.
-/

namespace VirtBoard.Text

/-- A digit below sixteen, in lower case. -/
def hexDigit (n : Nat) : Char :=
  if n < 10 then Char.ofNat ('0'.toNat + n) else Char.ofNat ('a'.toNat + (n - 10))

/-- A number in lower-case hexadecimal without leading zeros. -/
def hex (n : Nat) : List Char :=
  if n < 16 then [hexDigit n] else hex (n / 16) ++ [hexDigit (n % 16)]
termination_by n

end VirtBoard.Text
