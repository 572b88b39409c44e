import VirtBoard.CommandLine.Basic
import VirtBoard.DeviceTree.Toolchain

/-!
# The tree builder's command line

Options and files stand in any order.  After a word `--` everything is a file.
-/

namespace VirtBoard.CommandLine.TreeBuilder

open DeviceTree

/-- Options with a path as their value. -/
inductive PathOption where
  | root | compiler | preprocessor
deriving DecidableEq

/-- What a word means before the end of the options. -/
inductive Word where
  | endOfOptions
  | help
  | path (option : PathOption) (attached : Option String)
  | decompile
  /-- An option that is not known, or has a value that it does not take. -/
  | wrong
  | file
deriving DecidableEq

def PathOption.ofName? : String → Option PathOption
  | "rtt-root" => some .root
  | "dtc" => some .compiler
  | "cpp" => some .preprocessor
  | _ => none

def Word.classify (word : String) : Word :=
  if word = "--" then .endOfOptions
  else
    match longOption? word with
    | some (name, attached) =>
      match PathOption.ofName? name, attached with
      | some o, attached => .path o attached
      | none, attached =>
        match name, attached with
        | "help", none => .help
        | "decompile", none => .decompile
        | _, _ => .wrong
    | none =>
      match word.toList with
      | '-' :: 'h' :: _ => .help
      | '-' :: _ :: _ => .wrong
      | _ => .file

structure Settings where
  root : Option Path
  compiler : Option Path
  preprocessor : Option Path
  decompile : Bool
  files : List Path
deriving DecidableEq

/-! ## Reading -/

/-- What has been read so far; the files are in reverse order. -/
structure Given where
  paths : List (PathOption × String) := []
  decompile : Bool := false
  files : List String := []

/-- The settings once everything is read.  At least one file is needed. -/
def Given.settle (g : Given) (envRoot : Option String) (moreFiles : List String) :
    Request Settings :=
  let files := g.files.reverse ++ moreFiles
  match root? (path? g.paths .root) envRoot with
  | none => .misuse
  | some root =>
    if files = [] ∨ "" ∈ files then .misuse
    else
      .run {
        root
        compiler := path? g.paths .compiler
        preprocessor := path? g.paths .preprocessor
        decompile := g.decompile
        files := files.map Path.mk }

/-- Reads on after some words.  The word after an option is its value if it could be a file. -/
def readFrom (envRoot : Option String) (g : Given) : List String → Request Settings
  | [] => g.settle envRoot []
  | word :: rest =>
    match Word.classify word with
    | .endOfOptions => g.settle envRoot rest
    | .help => .help
    | .wrong => .misuse
    | .file =>
      if word = "" then .misuse
      else readFrom envRoot { g with files := word :: g.files } rest
    | .decompile =>
      if g.decompile then .misuse else readFrom envRoot { g with decompile := true } rest
    | .path o (some value) =>
      match give g.paths o value with
      | some paths => readFrom envRoot { g with paths } rest
      | none => .misuse
    | .path o none =>
      match rest with
      | [] => .misuse
      | value :: rest =>
        match Word.classify value, give g.paths o value with
        | .file, some paths => readFrom envRoot { g with paths } rest
        | _, _ => .misuse

/-- Reads a command line; `envRoot` is the environment's root of the system's sources. -/
def read (envRoot : Option String) (args : List String) : Request Settings :=
  readFrom envRoot {} args

/-! ## Running -/

/-- The tools for the files.  Decompiling needs no headers, so the search path's compiler will
do. -/
def toolchain (s : Settings) : Action Toolchain := do
  let root ← sourceRoot s.root
  let chain ← match s.compiler with
    | some compiler => pure (Toolchain.withInclude { compiler } (root.join headerDir))
    | none => if s.decompile then Toolchain.system else Toolchain.bundled root
  return match s.preprocessor with
    | some preprocessor => { chain with preprocessor }
    | none => chain

/-- Compiles or decompiles the files in order, up to the first failure. -/
def run (s : Settings) : Action Unit := do
  let chain ← toolchain s
  if s.decompile then
    for file in s.files do
      chain.decompile file file.treeSource
  else
    let _ ← chain.compileAll s.files

end VirtBoard.CommandLine.TreeBuilder
