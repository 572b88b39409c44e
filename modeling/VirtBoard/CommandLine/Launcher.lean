import VirtBoard.Board.Flags
import VirtBoard.CommandLine.Basic
import VirtBoard.Launch.Images
import VirtBoard.Launch.Pipeline
import VirtBoard.Launch.Probe

/-!
# The launcher's command line

The launcher's own options come first.  The first word that is none of them starts the board flags,
and from there on every word is a board flag, whatever it looks like.  A word `--` before that only
ends the options.
-/

namespace VirtBoard.CommandLine.Launcher

open Board Launch Qemu

/-- Options with a path as their value. -/
inductive PathOption where
  | root | qemu | qemuImg | kernel | compiler | preprocessor
deriving DecidableEq

/-- Options without a value. -/
inductive Switch where
  | dryRun | json
deriving DecidableEq

/-- What a word means where options may stand. -/
inductive Word where
  | endOfOptions
  | help
  | path (option : PathOption) (attached : Option String)
  | switch (s : Switch)
  /-- A switch or the help option with a value, which none of them takes. -/
  | superfluousValue
  | flag
deriving DecidableEq

def PathOption.ofName? : String → Option PathOption
  | "rtt-root" => some .root
  | "qemu" => some .qemu
  | "qemu-img" => some .qemuImg
  | "kernel" => some .kernel
  | "dtc" => some .compiler
  | "cpp" => some .preprocessor
  | _ => none

/-- The short spelling of the help option; repeating the letter changes nothing. -/
def isShortHelp (word : String) : Bool :=
  match word.toList with
  | '-' :: 'h' :: s => s.all (· = 'h')
  | _ => false

def Word.classify (word : String) : Word :=
  if word = "--" then .endOfOptions
  else if isShortHelp word then .help
  else
    match longOption? word with
    | none => .flag
    | some (name, attached) =>
      match PathOption.ofName? name, attached with
      | some o, attached => .path o attached
      | none, attached =>
        match name, attached with
        | "help", none => .help
        | "dry-run", none => .switch .dryRun
        | "json", none => .switch .json
        | "help", some _ | "dry-run", some _ | "json", some _ => .superfluousValue
        | _, _ => .flag

structure Settings where
  root : Option Path := none
  qemu : Path := ⟨"qemu-system-aarch64"⟩
  qemuImg : Path := ⟨"qemu-img"⟩
  kernel : Path := ⟨"rtthread.bin"⟩
  compiler : Option Path := none
  preprocessor : Option Path := none
  dryRun : Bool := false
  json : Bool := false
  flags : List String := []
deriving DecidableEq

/-! ## Reading -/

structure Given where
  paths : List (PathOption × String) := []
  switches : List Switch := []

/-- The settings once all options are read.  JSON is only for a dry run. -/
def Given.settle (g : Given) (envRoot : Option String) (flags : List String) :
    Request Settings :=
  match root? (path? g.paths .root) envRoot with
  | none => .misuse
  | some root =>
    if .json ∈ g.switches ∧ .dryRun ∉ g.switches then .misuse
    else
      let defaults : Settings := {}
      .run {
        root
        qemu := (path? g.paths .qemu).getD defaults.qemu
        qemuImg := (path? g.paths .qemuImg).getD defaults.qemuImg
        kernel := (path? g.paths .kernel).getD defaults.kernel
        compiler := path? g.paths .compiler
        preprocessor := path? g.paths .preprocessor
        dryRun := .dryRun ∈ g.switches
        json := .json ∈ g.switches
        flags }

/-- Reads on after some options.  The word after an option is its value unless it would itself be
read as an option, or ends the options. -/
def readFrom (envRoot : Option String) (g : Given) : List String → Request Settings
  | [] => g.settle envRoot []
  | word :: rest =>
    match Word.classify word with
    | .endOfOptions => g.settle envRoot rest
    | .help => .help
    | .superfluousValue => .misuse
    | .flag => g.settle envRoot (word :: rest)
    | .switch s =>
      match giveSwitch g.switches s with
      | some switches => readFrom envRoot { g with switches } rest
      | none => .misuse
    | .path o (some value) =>
      match give g.paths o value with
      | some paths => readFrom envRoot { g with paths } rest
      | none => .misuse
    | .path o none =>
      match rest with
      | [] => .misuse
      | value :: rest =>
        match Word.classify value, give g.paths o value with
        | .flag, some paths => readFrom envRoot { g with paths } rest
        | _, _ => .misuse

/-- Reads a command line; `envRoot` is the environment's root of the system's sources. -/
def read (envRoot : Option String) (args : List String) : Request Settings :=
  readFrom envRoot {} args

/-! ## Running -/

/-- Turns a result that is known without the machine into an action. -/
def checked (r : Except UsageError α) : Action α :=
  ofExcept (r.mapError Failure.usage)

def present (json : Bool) (invocation : Invocation) : Action Unit :=
  Action.print ((if json then invocation.toJson.pretty else invocation.line) ++ "\n")

/-- The exit code for a launch: the emulator's own, and 1 if a signal ended it. -/
def exitCode : ExitStatus → Nat
  | .exited code => code
  | .killed _ => 1

/-- Does what the settings say; the result is the exit code. -/
def run (s : Settings) : Action Nat := do
  let options ← checked (Options.parse s.flags)
  let selection ← checked (Selection.resolve options)
  let qemu ← Action.which s.qemu (.notInSearchPath s.qemu)
  let version ← queryVersion qemu
  let host := Host.detect (← get).files (← Action.machine).cwd qemu
  let environment : Environment := { program := qemu, kernel := s.kernel, version, host }
  let invocation ← checked (Invocation.assemble options selection environment)
  for warning in Assembly.warnings options host do
    Action.warn warning
  if s.dryRun then
    present s.json invocation
    return 0
  let work := (← Action.machine).cwd.path
  let qemuImg ← Action.which s.qemuImg (.notInSearchPath s.qemuImg)
  let _ ← ensureImages work qemuImg invocation.disks
  let root ← DeviceTree.sourceRoot s.root
  let tools : TreeTools := ⟨root, s.compiler, s.preprocessor⟩
  let status ← Pipeline.run ⟨options, selection, environment, work, tools⟩
  return exitCode status

end VirtBoard.CommandLine.Launcher
