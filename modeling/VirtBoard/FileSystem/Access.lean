import VirtBoard.FileSystem.Walk

/-!
# Access to files

The few operations that the board's tools need: looking at an entry, reading, writing and unlinking
a file, and finding a program.  All follow links to the end but `unlink`, which takes away the name
itself.
-/

namespace VirtBoard.FileSystem.Files

/-- The entry that a path leads to. -/
def stat (fs : Files) (cwd : Place) (p : Path) : Except OsError Entry := do
  match ← fs.walk cwd p with
  | .occupied _ e => return e
  | .vacant _ => throw .notFound

/-- Whether a path leads to an entry; an error if that cannot be told. -/
def exists? (fs : Files) (cwd : Place) (p : Path) : Except OsError Bool :=
  match fs.stat cwd p with
  | .ok _ => .ok true
  | .error .notFound => .ok false
  | .error e => .error e

def read (fs : Files) (cwd : Place) (p : Path) : Except OsError ByteArray := do
  match ← fs.stat cwd p with
  | .file content _ _ => return content
  | .directory _ => throw .isDirectory
  | .link _ => throw .tooManyLinks

def readText (fs : Files) (cwd : Place) (p : Path) : Except OsError String := do
  match String.fromUTF8? (← fs.read cwd p) with
  | some text => return text
  | none => throw .notText

/-- Replaces the content of a file, which keeps its mode, or makes a new file. -/
def write (fs : Files) (cwd : Place) (p : Path) (content : ByteArray) (now : Time) :
    Except OsError Files := do
  match ← fs.walk cwd p with
  | .occupied place (.file _ _ executable) =>
    return fs.insert place (.file content now executable)
  | .occupied _ _ => throw .isDirectory
  | .vacant place => return fs.create place (.file content now false) now

/-- Takes away the name that a path ends in, be it a file's or a link's. -/
def unlink (fs : Files) (cwd : Place) (p : Path) (now : Time) : Except OsError Files := do
  checkPath p
  let dir ← fs.walkParent cwd p
  match p.segments.getLast? with
  | none | some "." | some ".." => throw .isDirectory
  | some name =>
    if nameLimit < name.utf8ByteSize then throw .nameTooLong
    match fs.find? (name :: dir) with
    | none => throw .notFound
    | some (.directory _) => throw .isDirectory
    | some _ =>
      if p.endsInSlash then throw .notDirectory
      return fs.delete (name :: dir) now

/-- The place of the program that a path leads to: a regular file that may be executed. -/
def program? (fs : Files) (cwd : Place) (p : Path) : Option Place :=
  match fs.walk cwd p with
  | .ok (.occupied place (.file _ _ true)) => some place
  | _ => none

end VirtBoard.FileSystem.Files
