import VirtBoard.Json
import VirtBoard.Path
import VirtBoard.Qemu.OptionString
import VirtBoard.Shell

/-!
# Invocations of the emulator

A complete command line, and the disk images that it expects to find.
-/

namespace VirtBoard.Qemu

/-- One option of the emulator: a switch that stands alone, or a name with a value. -/
inductive Argument where
  | alone (name : String)
  | option (name value : String)
deriving DecidableEq

namespace Argument

def words : Argument → List String
  | .alone name => [name]
  | .option name value => [name, value]

def ofProperties (name : String) (ps : List Property) : Argument :=
  .option name (OptionString.ofProperties ps)

end Argument

/-- A drive of the board that is backed by an image file. -/
structure DiskImage where
  role : String
  name : String
deriving DecidableEq

def DiskImage.fileName (d : DiskImage) : Path := ⟨d.name ++ ".qcow2"⟩

structure Invocation where
  program : Path
  args : List String
  disks : List DiskImage
deriving DecidableEq

namespace Invocation

/-- The word after the first one that equals `flag`. -/
def valueOf (i : Invocation) (flag : String) : Option String :=
  (i.args.dropWhile (· ≠ flag))[1]?

/-- The form that a reader can give to a shell. -/
def line (i : Invocation) : String :=
  Shell.line (i.program.text :: i.args)

def toJson (i : Invocation) : Json :=
  .obj [
    ("program", .str i.program.text),
    ("args", .arr (i.args.map .str)),
    ("disks", .arr (i.disks.map fun d => .obj [("role", .str d.role), ("name", .str d.name)]))]

end Invocation

end VirtBoard.Qemu
