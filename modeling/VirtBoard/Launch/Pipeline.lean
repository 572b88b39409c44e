import VirtBoard.DeviceTree.Merge
import VirtBoard.DeviceTree.Toolchain

/-!
# Launching the board

Without overlays the emulator is launched once, with the options as they are.  Overlays take two
launches: the emulator makes the board's device tree itself, so a first launch dumps that tree.  The
dump is decompiled, the overlays are put behind it, and the whole is compiled into the tree of the
second launch.

All temporary files have fixed names in the working directory.  The merged tree stays when the
second launch did not succeed, so that it can be looked at.
-/

namespace VirtBoard.Launch

open Board DeviceTree Qemu

def dumpBinary : Path := ⟨"qemu.tmp.dtb"⟩
def dumpSource : Path := ⟨"qemu.tmp.dts"⟩
def mergedSource : Path := ⟨"qemu.run.dts"⟩
def mergedBinary : Path := ⟨"qemu.run.dtb"⟩

inductive Stage where
  /-- Launch with the options as they are. -/
  | direct
  /-- Launch to dump the device tree, and decompile it. -/
  | dump
  /-- Merge the overlays into the dump, compile the whole, and launch with it. -/
  | mergeAndRelaunch
deriving DecidableEq

/-- The stages that a configuration needs, in order. -/
def Stage.plan (o : Options) : List Stage :=
  if o.overlays.isEmpty then [.direct] else [.dump, .mergeAndRelaunch]

/-! ## Device-tree tools -/

/-- Where the device-tree tools come from. -/
structure TreeTools where
  root : Path
  /-- The compiler, for both directions.  Without it the bundled one compiles and the one in the
  search path decompiles. -/
  compiler : Option Path := none
  preprocessor : Option Path := none
deriving DecidableEq

namespace TreeTools

def decompiler (t : TreeTools) : Action Toolchain :=
  match t.compiler with
  | some compiler => return { compiler }
  | none => Toolchain.system

def compileChain (t : TreeTools) : Action Toolchain := do
  let chain ← match t.compiler with
    | some compiler => pure (Toolchain.withInclude { compiler } (t.root.join headerDir))
    | none => Toolchain.bundled t.root
  return match t.preprocessor with
    | some preprocessor => { chain with preprocessor }
    | none => chain

end TreeTools

/-! ## Stages -/

structure Pipeline where
  options : Options
  selection : Selection
  environment : Environment
  work : Path
  tools : TreeTools

namespace Pipeline

/-- Launches the emulator, with options that may differ from the configuration's, and waits for its
end. -/
def launch (p : Pipeline) (o : Options) : Action ExitStatus := do
  match Invocation.assemble o p.selection p.environment with
  | .error e => throw (.usage e)
  | .ok invocation =>
    for warning in Assembly.warnings o p.environment.host do
      Action.warn warning
    match ← Action.start ⟨invocation.program, invocation.args⟩ .shown with
    | none => throw (.notStarted invocation.program.text)
    | some effect => return effect.status

/-- Launches once.  A tree that the user wanted dumped is decompiled next to the dump. -/
def direct (p : Pipeline) : Action ExitStatus := do
  let status ← p.launch p.options
  match p.options.dumpTree with
  | some dump =>
    if status = .success then
      (← p.tools.decompiler).decompile dump dump.treeSource
  | none => pure ()
  return status

def dumpOptions (p : Pipeline) : Options :=
  { p.options with dumpTree := some (p.work.join dumpBinary) }

/-- Gets the source of the emulator's own tree. -/
def dump (p : Pipeline) : Action ExitStatus := do
  let binary := p.work.join dumpBinary
  let status ← p.launch p.dumpOptions
  if status ≠ .success then throw (.noDump status)
  let decompiled ← Action.attempt do
    (← p.tools.decompiler).decompile binary (p.work.join dumpSource)
  Action.discard binary
  ofExcept decompiled
  return status

def sources (p : Pipeline) : List Path :=
  p.work.join dumpSource :: p.options.overlays

/-- Merges the dump and the overlays; the dump is gone afterwards, and so is what a failed merge may
have left. -/
def mergeOverlays (p : Pipeline) : Action Unit := do
  let output := p.work.join mergedSource
  let merged ← Action.attempt (merge p.sources output)
  Action.discard (p.work.join dumpSource)
  if let .error _ := merged then
    Action.discard output
  ofExcept merged

/-- Compiles the merged source, and removes it once the compilation was tried.  A tree that an
earlier run left goes first, because it could be taken for up to date. -/
def compileMerged (p : Pipeline) : Action Compiled := do
  let source := p.work.join mergedSource
  let binary := p.work.join mergedBinary
  if ← Action.ask (fun cwd fs => fs.exists? cwd binary) .system then
    Action.remove binary
  let chain ← p.tools.compileChain
  let compiled ← Action.attempt (chain.compile source)
  Action.remove source
  ofExcept compiled

def relaunchOptions (p : Pipeline) (tree : Path) : Options :=
  { p.options with dumpTree := none, tree := some tree }

/-- Launches with the overlays merged in.  The merged tree is kept if that launch did not
succeed. -/
def mergeAndRelaunch (p : Pipeline) : Action ExitStatus := do
  p.mergeOverlays
  let compiled ← p.compileMerged
  let status ← p.launch (p.relaunchOptions compiled.binary)
  if status = .success then
    Action.remove compiled.binary
  else
    Action.warn .mergedTreeKept
  return status

/-! ## The whole -/

def stage (p : Pipeline) : Stage → Action ExitStatus
  | .direct => p.direct
  | .dump => p.dump
  | .mergeAndRelaunch => p.mergeAndRelaunch

/-- Runs stages in order; the status is that of the last one. -/
def runStages (p : Pipeline) : List Stage → Action ExitStatus
  | [] => throw .noStage
  | [s] => p.stage s
  | s :: rest => do
    let _ ← p.stage s
    p.runStages rest

/-- Launches the board; the status is that of the last launch. -/
def run (p : Pipeline) : Action ExitStatus :=
  p.runStages (Stage.plan p.options)

end Pipeline

end VirtBoard.Launch
