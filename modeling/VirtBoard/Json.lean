import VirtBoard.Text.Hex

/-!
# JSON texts

The values an invocation needs (texts, lists and objects with fields in a given order) and their two
layouts: `compact` has no white space at all, `pretty` has one element per line and two spaces for
each level.
-/

namespace VirtBoard

inductive Json where
  | str (s : String)
  | arr (elements : List Json)
  | obj (fields : List (String × Json))

namespace Json

def escape (c : Char) : List Char :=
  if c = '"' then ['\\', '"']
  else if c = '\\' then ['\\', '\\']
  else if c = '\x08' then ['\\', 'b']
  else if c = '\x0c' then ['\\', 'f']
  else if c = '\n' then ['\\', 'n']
  else if c = '\r' then ['\\', 'r']
  else if c = '\t' then ['\\', 't']
  else if c.toNat < 0x20 then
    ['\\', 'u', '0', '0', Text.hexDigit (c.toNat / 16), Text.hexDigit (c.toNat % 16)]
  else [c]

def string (s : String) : List Char :=
  '"' :: s.toList.flatMap escape ++ ['"']

/-- The characters that a layout puts around and between the parts of a value: `newline` starts a
new element at a nesting depth, `colon` stands between a key and its value. -/
structure Layout where
  newline : Nat → List Char
  colon : List Char

namespace Layout

def compact : Layout := ⟨fun _ => [], [':']⟩

/-- One element per line, two spaces for each level. -/
def pretty : Layout := ⟨fun depth => '\n' :: List.replicate (2 * depth) ' ', [':', ' ']⟩

end Layout

mutual

/-- The text of a value at a nesting depth.  An empty list or object has nothing between its
brackets. -/
def render (layout : Layout) (depth : Nat) : Json → List Char
  | .str s => string s
  | .arr [] => ['[', ']']
  | .arr (e :: es) =>
    '[' :: layout.newline (depth + 1) ++ render layout (depth + 1) e ++
      renderElements layout (depth + 1) es ++ layout.newline depth ++ [']']
  | .obj [] => ['\x7b', '\x7d']
  | .obj ((k, v) :: fs) =>
    '\x7b' :: layout.newline (depth + 1) ++ string k ++ layout.colon ++
      render layout (depth + 1) v ++ renderFields layout (depth + 1) fs ++
      layout.newline depth ++ ['\x7d']

/-- The further elements of a list, each after a comma. -/
def renderElements (layout : Layout) (depth : Nat) : List Json → List Char
  | [] => []
  | e :: es =>
    ',' :: layout.newline depth ++ render layout depth e ++ renderElements layout depth es

/-- The further fields of an object, each after a comma. -/
def renderFields (layout : Layout) (depth : Nat) : List (String × Json) → List Char
  | [] => []
  | (k, v) :: fs =>
    ',' :: layout.newline depth ++ string k ++ layout.colon ++ render layout depth v ++
      renderFields layout depth fs

end

def compact (j : Json) : String :=
  String.ofList (render .compact 0 j)

def pretty (j : Json) : String :=
  String.ofList (render .pretty 0 j)

end Json

end VirtBoard
