/-!
# Option strings

The value of most emulator options is a list of properties with commas between them.  A comma that
belongs to a property is written twice, so that no text of the user's can end a property.
-/

namespace VirtBoard.Qemu

/-- A piece of an option string. -/
inductive Property where
  | word (text : String)
  | pair (key value : String)
deriving DecidableEq

namespace OptionString

/-- A text inside a property. -/
def escape (s : List Char) : List Char :=
  s.flatMap fun c => if c = ',' then [',', ','] else [c]

/-- The text of a property before its commas are doubled. -/
def plain : Property → List Char
  | .word w => w.toList
  | .pair k v => k.toList ++ '=' :: v.toList

def ofProperties (ps : List Property) : String :=
  String.ofList (List.intercalate [','] (ps.map fun p => escape (plain p)))

end OptionString

end VirtBoard.Qemu
