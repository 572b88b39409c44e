import VirtBoard.Text.Glyphless
import VirtBoard.Text.Hex

/-!
# Quoted texts

Text that a user gave, as an error message shows it: in double quotes, on one line, with nothing in
it that a terminal would not show.
-/

namespace VirtBoard.Text

/-- A character inside double quotes. -/
def quotedChar (c : Char) : List Char :=
  if c = '"' then ['\\', '"']
  else if c = '\\' then ['\\', '\\']
  else if c = '\n' then ['\\', 'n']
  else if c = '\r' then ['\\', 'r']
  else if c = '\t' then ['\\', 't']
  else if c = '\x00' then ['\\', '0']
  else if isGlyphless c then ['\\', 'u', '\x7b'] ++ hex c.toNat ++ ['\x7d']
  else [c]

def quoted (s : String) : String :=
  "\"" ++ String.ofList (s.toList.flatMap quotedChar) ++ "\""

end VirtBoard.Text
