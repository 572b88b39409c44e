/-!
# Words of a shell command line

How a list of words is printed so that a POSIX shell reads the same words back.  Such a line is for
the reader's eye only: nothing here is ever given to a shell.
-/

namespace VirtBoard.Shell

/-- The characters, besides ASCII letters and digits, that no shell treats specially. -/
def plainMarks : List Char := ['_', '-', '.', '/', ',', '=', ':', '+', '@', '%']

def isPlain (c : Char) : Bool :=
  c.isAlphanum || plainMarks.contains c

/-- A character inside single quotes; a quote closes them, stands escaped and opens them again. -/
def quotedChar (c : Char) : List Char :=
  if c = '\'' then ['\'', '\\', '\'', '\''] else [c]

/-- A word, in single quotes unless it is plain. -/
def word (s : List Char) : List Char :=
  if s ≠ [] ∧ s.all isPlain then s
  else '\'' :: s.flatMap quotedChar ++ ['\'']

def line (words : List String) : String :=
  String.ofList (List.intercalate [' '] (words.map fun w => word w.toList))

end VirtBoard.Shell
