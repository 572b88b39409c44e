import VirtBoard.FileSystem.Access
import VirtBoard.Qemu.Assembly

/-!
# Other programs

A machine on which other programs can be started, and what is known of each run of one of them.  How
the programs behave is a parameter: any function of what has run before and of the circumstances of
a start.
-/

namespace VirtBoard

open FileSystem

inductive ExitStatus where
  | exited (code : Nat)
  | killed (signal : Nat)
deriving DecidableEq

namespace ExitStatus

def success : ExitStatus := .exited 0

/-- The names of the signals, signal 1 first. -/
def signalNames : List String :=
  ["SIGHUP", "SIGINT", "SIGQUIT", "SIGILL", "SIGTRAP", "SIGABRT", "SIGBUS", "SIGFPE", "SIGKILL",
    "SIGUSR1", "SIGSEGV", "SIGUSR2", "SIGPIPE", "SIGALRM", "SIGTERM", "SIGSTKFLT", "SIGCHLD",
    "SIGCONT", "SIGSTOP", "SIGTSTP", "SIGTTIN", "SIGTTOU", "SIGURG", "SIGXCPU", "SIGXFSZ",
    "SIGVTALRM", "SIGPROF", "SIGWINCH", "SIGIO", "SIGPWR", "SIGSYS"]

def text : ExitStatus → String
  | .exited code => "exit status: " ++ toString code
  | .killed signal =>
    "signal: " ++ toString signal ++
      match (none :: signalNames.map some)[signal]? with
      | some (some name) => " (" ++ name ++ ")"
      | _ => ""

end ExitStatus

structure Command where
  program : Path
  args : List String
deriving DecidableEq

/-- Bytes from which on an argument is too long. -/
def argumentLimit : Nat := 131072

/-- Whether the system can pass a text to a program as an argument. -/
def isPassable (argument : String) : Bool :=
  !argument.toList.contains '\x00' && argument.utf8ByteSize < argumentLimit

/-- The circumstances in which a program starts. -/
structure Start where
  command : Command
  /-- The file that is executed. -/
  executable : Place
  files : Files
  now : Time

/-- What a program did between its start and its end. -/
structure Effect where
  files : Files
  now : Time
  status : ExitStatus
  output : ByteArray

/-- Where the output of a program goes. -/
inductive Output where
  | shown
  | captured
deriving DecidableEq

structure Run where
  start : Start
  output : Output
  effect : Effect

/-- The behaviour of all other programs, given the runs so far.  A start without an effect is one
that the system refuses, because the file is nothing that it can execute. -/
abbrev Programs := List Run → Start → Option Effect

structure Machine where
  cwd : Place
  /-- The directories in which programs are looked for by name. -/
  searchPath : List Path
  programs : Programs

namespace Machine

/-- The program that starts under a name: a name with a slash is a path, any other is looked for in
the search path. -/
def locate (m : Machine) (fs : Files) (name : Path) : Option Place :=
  if '/' ∈ name.chars then fs.program? m.cwd name
  else if name.text = "" then none
  else m.searchPath.findSome? fun dir => fs.program? m.cwd (dir.join name)

/-- What happens when a command is started, after some runs.  Without a result the system refuses:
there is no such program, or the command has a text that cannot be passed on. -/
def run? (m : Machine) (before : List Run) (files : Files) (now : Time) (output : Output)
    (command : Command) : Option Run := do
  guard (command.args.all isPassable)
  let start : Start := ⟨command, ← m.locate files command.program, files, now⟩
  return ⟨start, output, ← m.programs before start⟩

/-- The names along a relative path, without those that stand for the directory itself. -/
def names (p : Path) : List String :=
  p.segments.filter (· ≠ ".")

/-- Whether a path has more than one component.  A dot counts only at the start. -/
def isCompound (p : Path) : Bool :=
  let dot := if p.segments.head? = some "." ∧ ¬p.isAbsolute then 1 else 0
  let root := if p.isAbsolute then 1 else 0
  1 < dot + root + (names p).length

/-- The absolute path of a program.  A path with several components is taken from the current
directory, any other name is looked for in the search path. -/
def which (m : Machine) (fs : Files) (p : Path) : Option Path :=
  let candidates :=
    if isCompound p then
      [if p.isAbsolute then p else m.cwd.path.join ⟨"/".intercalate (names p)⟩]
    else m.searchPath.map (·.join p)
  candidates.find? fun c => (fs.program? m.cwd c).isSome

end Machine

end VirtBoard
