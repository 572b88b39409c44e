import VirtBoard.DeviceTree.Freshness

/-!
# Compiling device trees

A source goes through the C preprocessor, so that it can include headers, and what comes out goes
through the device-tree compiler.  The expanded source is a temporary file next to the source, and
never outlives the compilation, whichever step fails.
-/

namespace VirtBoard.DeviceTree

/-- The programs that turn sources into binaries and back. -/
structure Toolchain where
  compiler : Path
  preprocessor : Path := ⟨"cpp"⟩
  /-- Where the preprocessor looks for headers. -/
  includes : List Path := []
deriving DecidableEq

inductive Outcome where
  | built
  | upToDate
deriving DecidableEq

structure Compiled where
  source : Path
  binary : Path
  outcome : Outcome
deriving DecidableEq

/-- The bundled compiler's directory, below the root of the system's sources. -/
def compilerDir : Path := ⟨"tools/dtc"⟩

/-- The headers that board sources include, below the same root. -/
def headerDir : Path := ⟨"components/drivers/include"⟩

/-- The root of the system's sources: if none is given, two levels above the current directory,
which is where a board's directory is. -/
def sourceRoot (explicit : Option Path) : Action Path := do
  match explicit with
  | some root => return root
  | none => return ((← read).cwd.path.join ⟨".."⟩).join ⟨".."⟩

namespace Toolchain

/-! ## Where the programs come from -/

def withInclude (t : Toolchain) (dir : Path) : Toolchain :=
  { t with includes := t.includes ++ [dir] }

def system : Action Toolchain := do
  let compiler ← Action.which ⟨"dtc"⟩ (.notInSearchPath ⟨"dtc"⟩)
  return { compiler }

/-- The bundled compiler, which is built first. -/
def bundled (root : Path) : Action Toolchain := do
  let dir := root.join compilerDir
  let scons ← Action.which ⟨"scons"⟩ (.notInSearchPath ⟨"scons"⟩)
  Action.run "scons" ⟨scons, ["-C", dir.text]⟩
  return withInclude { compiler := dir.join ⟨"dtc"⟩ } (root.join headerDir)

/-! ## Commands -/

/-- The preprocessor's arguments; `output` is where the expanded source goes. -/
def preprocessArgs (t : Toolchain) (source output : Path) : List String :=
  ["-nostdinc", "-undef", "-D__DTS__", "-x", "assembler-with-cpp"] ++
    t.includes.flatMap (fun dir => ["-I", dir.text]) ++ ["-o", output.text, source.text]

def compileArgs (source output : Path) : List String :=
  ["-I", "dts", "-O", "dtb", "-@", "-A", "-o", output.text, source.text]

def decompileArgs (binary output : Path) : List String :=
  ["-I", "dtb", "-O", "dts", "-@", "-A", "-o", output.text, binary.text]

/-! ## Compiling -/

def preprocess (t : Toolchain) (source output : Path) : Action Unit := do
  let cpp ← Action.which t.preprocessor (.noPreprocessor t.preprocessor)
  Action.run "cpp" ⟨cpp, t.preprocessArgs source output⟩

def expanded (source : Path) : Path := source.append ".tmp"

/-- Compiles a source whose binary is not up to date. -/
def compile (t : Toolchain) (source : Path) : Action Compiled := do
  let binary := source.treeBinary
  if ← isFresh source binary then
    return ⟨source, binary, .upToDate⟩
  if let .error e ← Action.attempt (t.preprocess source (expanded source)) then
    -- The preprocessor may or may not have left its output behind.
    Action.discard (expanded source)
    throw e
  let compiled ← Action.attempt
    (Action.run "dtc" ⟨t.compiler, compileArgs (expanded source) binary⟩)
  Action.remove (expanded source)
  ofExcept compiled
  return ⟨source, binary, .built⟩

/-- Compiles sources in order, up to the first one that fails. -/
def compileAll (t : Toolchain) (sources : List Path) : Action (List Compiled) :=
  sources.mapM t.compile

/-- Turns a binary back into a source.  Labels and symbols are kept, so that overlays can refer to
them. -/
def decompile (t : Toolchain) (binary source : Path) : Action Unit :=
  Action.run "dtc" ⟨t.compiler, decompileArgs binary source⟩

end Toolchain

end VirtBoard.DeviceTree
