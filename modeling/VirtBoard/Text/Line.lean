/-!
# Lines of a text
-/

namespace VirtBoard.Text

/-- The first line: all before the first line feed, less a carriage return right before that.  A
text without a line feed is its own first line. -/
def firstLine (s : List Char) : List Char :=
  let line := s.takeWhile (· ≠ '\n')
  if line.length < s.length ∧ line.getLast? = some '\r' then line.dropLast else line

end VirtBoard.Text
