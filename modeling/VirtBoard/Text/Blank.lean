/-!
# Blank characters

White space as Unicode's property `White_Space` has it, and the two operations the flags and the
version texts need of it: trimming both ends, and taking the first word.
-/

namespace VirtBoard.Text

/-- A character with the property `White_Space`. -/
def isBlank (c : Char) : Bool :=
  let n := c.toNat
  (0x09 ≤ n && n ≤ 0x0D) || n == 0x20 || n == 0x85 || n == 0xA0 || n == 0x1680 ||
    (0x2000 ≤ n && n ≤ 0x200A) || n == 0x2028 || n == 0x2029 || n == 0x202F || n == 0x205F ||
    n == 0x3000

def trimEnd (s : List Char) : List Char :=
  (s.reverse.dropWhile isBlank).reverse

def trim (s : List Char) : List Char :=
  trimEnd (s.dropWhile isBlank)

/-- The first maximal run of characters that are not blank; empty if there is none. -/
def firstWord (s : List Char) : List Char :=
  (s.dropWhile isBlank).takeWhile fun c => !isBlank c

end VirtBoard.Text
