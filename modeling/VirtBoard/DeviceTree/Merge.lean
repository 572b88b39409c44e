import VirtBoard.Action

/-!
# Merging device-tree sources

The sources are put one after the other, each on lines of its own.
-/

namespace VirtBoard.DeviceTree

/-- Ends a text with a line feed unless it has one at its end. -/
def endLine (s : String) : String :=
  if s.toList.getLast? = some '\n' then s else s ++ "\n"

def addSource (merged source : String) : String :=
  endLine (merged ++ source)

def mergeTexts (sources : List String) : String :=
  sources.foldl addSource ""

/-- Merges files.  Nothing is written unless all of them can be read. -/
def merge (sources : List Path) (output : Path) : Action Unit := do
  let texts ← sources.mapM Action.readText
  Action.writeText output (mergeTexts texts)

end VirtBoard.DeviceTree
