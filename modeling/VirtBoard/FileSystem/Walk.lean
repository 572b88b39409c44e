import VirtBoard.FileSystem.Basic

/-!
# Where a path leads

A path is walked step by step from the root or from the current directory.  A symbolic link on the
way is replaced by its target, and a walk goes through at most `linkBudget` of them.  The last name
of a path may be missing: then the walk ends at a vacant place, where a file could be made.
-/

namespace VirtBoard.FileSystem

/-- Why the system refuses to do something with a path. -/
inductive OsError where
  | notFound
  | notDirectory
  | isDirectory
  | nameTooLong
  | tooManyLinks
  /-- No path of the system can hold a NUL character. -/
  | nulInPath
  | notText
deriving DecidableEq

def OsError.message : OsError → String
  | .notFound => "No such file or directory (os error 2)"
  | .notDirectory => "Not a directory (os error 20)"
  | .isDirectory => "Is a directory (os error 21)"
  | .nameTooLong => "File name too long (os error 36)"
  | .tooManyLinks => "Too many levels of symbolic links (os error 40)"
  | .nulInPath => "file name contained an unexpected NUL byte"
  | .notText => "stream did not contain valid UTF-8"

/-- Bytes in the longest name. -/
def nameLimit : Nat := 255

/-- Bytes from which on a path is too long. -/
def pathLimit : Nat := 4096

/-- Links that a walk may follow. -/
def linkBudget : Nat := 40

inductive Destination where
  | occupied (place : Place) (entry : Entry)
  | vacant (place : Place)

namespace Files

def origin (here : Place) (p : Path) : Place :=
  if p.isAbsolute then [] else here

/-- Walks from a directory; `follow` goes on after a link has been replaced by its target. -/
def walkSteps (fs : Files) (follow : Place → List String → Except OsError Destination) :
    Place → List String → Except OsError Destination
  | here, [] =>
    match fs.find? here with
    | some e => .ok (.occupied here e)
    | none => .error .notFound
  | here, name :: rest =>
    if name = "." then walkSteps fs follow here rest
    else if name = ".." then walkSteps fs follow here.tail rest
    else if nameLimit < name.utf8ByteSize then .error .nameTooLong
    else
      match fs.find? (name :: here) with
      | none => if rest = [] then .ok (.vacant (name :: here)) else .error .notFound
      | some (.directory _) => walkSteps fs follow (name :: here) rest
      | some (.file content modified executable) =>
        if rest = [] then .ok (.occupied (name :: here) (.file content modified executable))
        else .error .notDirectory
      | some (.link target) => follow (origin here target) (target.steps ++ rest)

/-- Walks through at most `budget` links. -/
def walkFrom (fs : Files) : Nat → Place → List String → Except OsError Destination
  | 0 => fs.walkSteps fun _ _ => .error .tooManyLinks
  | budget + 1 => fs.walkSteps (walkFrom fs budget)

/-- Refuses the texts that no path of the system can have. -/
def checkPath (p : Path) : Except OsError Unit :=
  if '\x00' ∈ p.chars then .error .nulInPath
  else if p.text = "" then .error .notFound
  else if pathLimit ≤ p.text.utf8ByteSize then .error .nameTooLong
  else .ok ()

/-- Where a path leads from the current directory. -/
def walk (fs : Files) (cwd : Place) (p : Path) : Except OsError Destination := do
  checkPath p
  fs.walkFrom linkBudget (origin cwd p) p.steps

/-- The directory that a path without its last name leads to. -/
def walkParent (fs : Files) (cwd : Place) (p : Path) : Except OsError Place := do
  match ← fs.walkFrom linkBudget (origin cwd p) (p.segments.dropLast ++ ["."]) with
  | .occupied place (.directory _) => return place
  | .occupied _ _ => throw .notDirectory
  | .vacant _ => throw .notFound

end Files

end VirtBoard.FileSystem
