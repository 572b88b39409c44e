/-!
# Path texts

A path is its text, kept exactly as it was given.  The operations here only look at that text: what
lies there is a question for the file system.

A path has a file name if its last component is neither `.` nor `..`; slashes and `/.` after the
component are passed over.  The stem of a file name is all before its last dot, or the whole name if
it has no dot but at its start.
-/

namespace VirtBoard

@[ext]
structure Path where
  text : String
deriving DecidableEq, Inhabited

namespace Path

def chars (p : Path) : List Char := p.text.toList

def ofChars (s : List Char) : Path := ⟨String.ofList s⟩

theorem chars_ofChars (s : List Char) : (ofChars s).chars = s :=
  String.toList_ofList

def isAbsolute (p : Path) : Bool := p.chars.head? == some '/'

def endsInSlash (p : Path) : Bool := p.chars.getLast? == some '/'

/-- The texts between slashes that are not empty. -/
def segments (p : Path) : List String :=
  ((p.chars.splitOn '/').filter (· ≠ [])).map String.ofList

/-- The steps that a path spells.  A slash at its end asks for a directory. -/
def steps (p : Path) : List String :=
  p.segments ++ if p.endsInSlash then ["."] else []

/-- A path relative to a directory; an absolute one stands for itself. -/
def join (dir p : Path) : Path :=
  if p.isAbsolute then p
  else if dir.text = "" ∨ dir.endsInSlash then ⟨dir.text ++ p.text⟩
  else ⟨dir.text ++ "/" ++ p.text⟩

def append (p : Path) (suffix : String) : Path := ⟨p.text ++ suffix⟩

/-! ## File names -/

/-- Drops what may follow a file name, from the end of a path backwards: slashes, and dots that
stand for the directory itself. -/
def dropTrailing : List Char → List Char
  | '/' :: r => dropTrailing r
  | '.' :: '/' :: r => dropTrailing r
  | r => r

/-- A path cut at its file name: `before ++ stem ++ suffix ++ after` is the text, `stem ++ suffix`
the file name, and `suffix` is empty or begins with the last dot of the name. -/
structure NameParts where
  before : List Char
  stem : List Char
  suffix : List Char
  after : List Char

/-- Cuts a file name, given backwards, into stem and suffix. -/
def cutName (reversedName : List Char) : List Char × List Char :=
  match reversedName.dropWhile (· ≠ '.') with
  | [] | ['.'] => (reversedName.reverse, [])
  | _ :: stem => (stem.reverse, '.' :: (reversedName.takeWhile (· ≠ '.')).reverse)

/-- The parts of the path around its file name, if it has one. -/
def nameParts? (p : Path) : Option NameParts :=
  let reversed := p.chars.reverse
  let kept := dropTrailing reversed
  let name := kept.takeWhile (· ≠ '/')
  if name = [] ∨ name = ['.'] ∨ name = ['.', '.'] then none
  else
    let (stem, suffix) := cutName name
    some {
      before := (kept.dropWhile (· ≠ '/')).reverse
      stem, suffix
      after := p.chars.drop kept.length }

/-- Puts `.extension` in place of everything after the stem.  A path without a file name stays as it
is.  The old extension goes first: a path that ends in a name such as `..x`, whose stem is a single
dot, is then left with `..`, which is no file name, and gets no extension. -/
def withExtension (p : Path) (extension : String) : Path :=
  match p.nameParts? with
  | none => p
  | some n =>
    if n.stem = ['.'] ∧ n.after = [] then ofChars (n.before ++ ['.', '.'])
    else ofChars (n.before ++ n.stem ++ '.' :: extension.toList)

end Path

end VirtBoard
