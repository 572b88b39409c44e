import VirtBoard.Failure

/-!
# Actions

What the launcher and the tree builder do: computations that change the files, run other programs
and keep a journal of it, and that may fail.  A failure keeps all that was done before it.
-/

namespace VirtBoard

open FileSystem

inductive Event where
  | ran (run : Run)
  | wrote (path : Path) (text : String)
  | removed (path : Path)
  | warned (warning : Qemu.Warning)
  | printed (text : String)

structure World where
  files : Files
  now : Time
  /-- Everything done so far, in order. -/
  journal : List Event

namespace World

def runs (w : World) : List Run :=
  w.journal.filterMap fun
    | .ran r => some r
    | _ => none

def record (w : World) (e : Event) : World :=
  { w with journal := w.journal ++ [e] }

def after (w : World) (r : Run) : World :=
  { w with files := r.effect.files, now := r.effect.now }.record (.ran r)

end World

abbrev Action := ReaderT Machine (ExceptT Failure (StateM World))

namespace Action

def perform (a : Action α) (m : Machine) (w : World) : Except Failure α × World :=
  (a m).run w

def machine : Action Machine := read

/-- The result of an action, be it a failure. -/
def attempt (a : Action α) : Action (Except Failure α) := fun m w =>
  let (result, w) := perform a m w
  (.ok result, w)

/-! ## Steps of an action -/

theorem perform_pure (a : α) (m : Machine) (w : World) : perform (pure a) m w = (.ok a, w) :=
  rfl

theorem perform_bind (a : Action α) (f : α → Action β) (m : Machine) (w : World) :
    perform (a >>= f) m w =
      match perform a m w with
      | (.ok x, w) => perform (f x) m w
      | (.error e, w) => (.error e, w) := by
  show ((a m >>= fun x => f x m).run w) = _
  unfold perform
  rcases h : (a m).run w with ⟨_ | _, _⟩ <;>
    simp_all [ExceptT.run, bind, ExceptT.bind, ExceptT.mk, StateT.bind, ExceptT.bindCont] <;> rfl

theorem perform_attempt (a : Action α) (m : Machine) (w : World) :
    perform (attempt a) m w = (.ok (perform a m w).1, (perform a m w).2) :=
  rfl

/-! ## Asking and telling -/

/-- Asks something about the files as they are. -/
def ask (question : Place → Files → Except OsError α) (failure : OsError → Failure) :
    Action α := do
  match question (← machine).cwd (← get).files with
  | .ok a => return a
  | .error e => throw (failure e)

def warn (warning : Qemu.Warning) : Action Unit :=
  modify (·.record (.warned warning))

def print (text : String) : Action Unit :=
  modify (·.record (.printed text))

/-! ## Files -/

def readText (p : Path) : Action String :=
  ask (fun cwd fs => fs.readText cwd p) fun _ => .file .read p

def writeText (p : Path) (text : String) : Action Unit := do
  let now := (← get).now
  let files ← ask (fun cwd fs => fs.write cwd p text.toUTF8 now) fun _ => .file .write p
  modify fun w => { w with files }.record (.wrote p text)

def remove (p : Path) : Action Unit := do
  let now := (← get).now
  let files ← ask (fun cwd fs => fs.unlink cwd p now) fun _ => .file .remove p
  modify fun w => { w with files }.record (.removed p)

/-- Unlinks a file that may not be there. -/
def discard (p : Path) : Action Unit := do
  let now := (← get).now
  match (← get).files.unlink (← machine).cwd p now with
  | .ok files => modify fun w => { w with files }.record (.removed p)
  | .error .notFound => return
  | .error _ => throw (.file .remove p)

/-! ## Programs -/

/-- Starts a program and waits for its end.  Without a result the system could not start it. -/
def start (command : Command) (output : Output) : Action (Option Effect) := do
  let w ← get
  match (← machine).run? w.runs w.files w.now output command with
  | none => return none
  | some run =>
    set (w.after run)
    return some run.effect

/-- Runs a tool that has to succeed. -/
def run (tool : String) (command : Command) : Action Unit := do
  match ← start command .shown with
  | none => throw (.notStarted tool)
  | some effect => if effect.status ≠ .success then throw (.failed tool effect.status)

def which (p : Path) (failure : Failure) : Action Path := do
  match (← machine).which (← get).files p with
  | some found => return found
  | none => throw failure

end Action

end VirtBoard
