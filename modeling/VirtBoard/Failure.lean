import VirtBoard.Process

/-!
# Failures

Why a task of the launcher or the tree builder ends early.  A failure that has a cause below it
shows only its own message.
-/

namespace VirtBoard

/-- What was being done with a file. -/
inductive FileTask where
  | read | write | remove | stat | check
deriving DecidableEq

def FileTask.verb : FileTask → String
  | .read => "read"
  | .write => "write"
  | .remove => "remove"
  | .stat => "stat"
  | .check => "check"

inductive Failure where
  | usage (e : Board.UsageError)
  | version (e : Qemu.VersionError)
  /-- An error of the system that nothing was said about. -/
  | system (e : FileSystem.OsError)
  | file (task : FileTask) (path : Path)
  | notInSearchPath (program : Path)
  | noPreprocessor (program : Path)
  /-- The system could not start what was to be started. -/
  | notStarted (what : String)
  /-- The system could not run what was to be run for its answer or product. -/
  | notRun (what : String)
  | failed (what : String) (status : ExitStatus)
  | noDump (status : ExitStatus)
  | noStage
deriving DecidableEq

def Failure.message : Failure → String
  | .usage e => e.message
  | .version e => e.message
  | .system e => e.message
  | .file task path => "could not " ++ task.verb ++ " " ++ path.text
  | .notInSearchPath program => "`" ++ program.text ++ "` not found in PATH"
  | .noPreprocessor program => "C preprocessor `" ++ program.text ++ "` not found"
  | .notStarted what => "could not start " ++ what
  | .notRun what => "could not run " ++ what
  | .failed what status => what ++ " failed with status " ++ status.text
  | .noDump status => "QEMU failed to dump its device tree (" ++ status.text ++ ")"
  | .noStage => "no launch stage ran"

end VirtBoard
