import VirtBoard.Action

/-!
# Command lines

What the two command lines have in common: words of the form `--name` or `--name=value`, options
that are given at most once and never with an empty value, and the root of the system's sources,
which an environment variable may give instead.
-/

namespace VirtBoard.CommandLine

/-- What a command line asks for. -/
inductive Request (σ : Type) where
  | help
  | misuse
  | run (settings : σ)

/-- The name in a word with two dashes, and the text after its first `=`, if it has one. -/
def longOption? (word : String) : Option (String × Option String) :=
  match word.toList with
  | '-' :: '-' :: s =>
    let name := String.ofList (s.takeWhile (· ≠ '='))
    match s.dropWhile (· ≠ '=') with
    | [] => some (name, none)
    | _ :: value => some (name, some (String.ofList value))
  | _ => none

/-- Adds a value to those given so far, unless it is empty or the option has one already. -/
def give [DecidableEq κ] (given : List (κ × String)) (option : κ) (value : String) :
    Option (List (κ × String)) :=
  if value = "" ∨ (given.lookup option).isSome then none else some ((option, value) :: given)

/-- Adds a switch to those given so far, unless it is there already. -/
def giveSwitch [DecidableEq κ] (given : List κ) (switch : κ) : Option (List κ) :=
  if switch ∈ given then none else some (switch :: given)

def path? [DecidableEq κ] (given : List (κ × String)) (option : κ) : Option Path :=
  (given.lookup option).map Path.mk

/-- The root of the system's sources: the option's value, else the one of the environment, which
must not be empty then.  The outer `none` means that it is. -/
def root? (option : Option Path) (envRoot : Option String) : Option (Option Path) :=
  match option, envRoot with
  | some p, _ => some (some p)
  | none, some "" => none
  | none, v => some (v.map Path.mk)

/-- The exit code of a program: the one that it ends with, and 1 for a failure. -/
def resultCode : Except Failure Nat → Nat
  | .ok code => code
  | .error _ => 1

end VirtBoard.CommandLine
