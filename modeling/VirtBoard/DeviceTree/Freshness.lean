import VirtBoard.Action

/-!
# Names and age of device trees

A device-tree binary stands next to its source, under the same name with another extension.  It is
up to date if it is not older than its source.
-/

namespace VirtBoard

open FileSystem

def Path.treeBinary (source : Path) : Path := source.withExtension "dtb"

def Path.treeSource (binary : Path) : Path := binary.withExtension "dts"

namespace DeviceTree

/-- Whether a binary exists and is not older than its source. -/
def isFresh? (fs : Files) (cwd : Place) (source binary : Path) : Except Failure Bool :=
  match fs.stat cwd binary with
  | .error .notFound => .ok false
  | .error _ => .error (.file .stat binary)
  | .ok b =>
    match fs.stat cwd source with
    | .error _ => .error (.file .stat source)
    | .ok s => .ok (decide (s.modified ≤ b.modified))

def isFresh (source binary : Path) : Action Bool := do
  ofExcept (isFresh? (← get).files (← read).cwd source binary)

end DeviceTree

end VirtBoard
