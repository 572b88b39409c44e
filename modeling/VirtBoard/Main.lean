import VirtBoard.CommandLine.Launcher
import VirtBoard.CommandLine.TreeBuilder

/-!
# The program

The two command lines as one program: `launch` takes the launcher's words, `trees` those of the tree
builder.  It starts no other program.  The emulator is a stand-in that is found by name and knows
its version only: the line it prints when asked for it comes from standard input, as in
`qemu-system-aarch64 --version | virtboard launch --dry-run -smp 8`.  So a dry run shows the command
line for that release, and a run that needs more than this says what is missing.
-/

namespace VirtBoard.Program

open FileSystem

/-- The current directory, and a directory with the stand-in. -/
def standInFiles (cwd : Place) (emulator : String) : Files :=
  let directories := ["bin"] :: (List.range (cwd.length + 1)).map cwd.drop
  let fs := directories.foldl (fun fs l => Files.insert fs l (.directory default)) ⟨[]⟩
  fs.insert [emulator, "bin"] (.file .empty default true)

/-- The stand-in answers a question for the version, and nothing else. -/
def standIn (banner : ByteArray) : Programs := fun _ start =>
  if start.command.args = ["--version"] then
    some ⟨start.files, start.now, .success, banner⟩
  else none

/-- Shows what an action printed and how it ended. -/
def report (result : Except Failure Nat × World) : IO UInt32 := do
  for event in result.2.journal do
    match event with
    | .printed text => IO.print text
    | .warned warning => IO.eprintln warning.message
    | _ => pure ()
  if let .error failure := result.1 then
    IO.eprintln ("Error: " ++ failure.message)
  return (CommandLine.resultCode result.1).toUInt32

def refuse : IO UInt32 := do
  IO.eprintln "usage: virtboard launch [OPTIONS] [BOARD_FLAGS]..."
  IO.eprintln "       virtboard trees [OPTIONS] FILES..."
  return 2

def help : IO UInt32 := do
  IO.println "virtboard launch [OPTIONS] [BOARD_FLAGS]...  launch the board"
  IO.println "virtboard trees [OPTIONS] FILES...           compile device trees"
  return 0

/-- Does an action on a machine with the stand-in under a name. -/
def execute (emulator : String) (a : Action Nat) : IO UInt32 := do
  let cwd : Place := (Path.mk (← IO.currentDir).toString).segments.reverse
  let banner ← (← IO.getStdin).getLine
  let machine : Machine := ⟨cwd, [⟨"/bin"⟩], standIn banner.toUTF8⟩
  report (Action.perform a machine ⟨standInFiles cwd emulator, default, []⟩)

def run (args : List String) : IO UInt32 := do
  let envRoot ← IO.getEnv "RTT_ROOT"
  match args with
  | "launch" :: args =>
    match CommandLine.Launcher.read envRoot args with
    | .help => help
    | .misuse => refuse
    | .run s => execute s.qemu.text (CommandLine.Launcher.run s)
  | "trees" :: args =>
    match CommandLine.TreeBuilder.read envRoot args with
    | .help => help
    | .misuse => refuse
    | .run s => execute "" do CommandLine.TreeBuilder.run s; return 0
  | _ => refuse

end VirtBoard.Program

def main (args : List String) : IO UInt32 :=
  VirtBoard.Program.run args
