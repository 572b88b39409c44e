import VirtBoard.Qemu.Invocation

/-!
# Reading a shell command line

How a POSIX shell takes a line apart into words: spaces that are not quoted separate words, single
quotes keep everything up to the next one, and a backslash outside quotes keeps the character after
it.  A printed line reads as exactly the words it was printed from, and outside quotes it has no
character that a shell would do anything else with.
-/

namespace VirtBoard.Shell

/-! ## 1. The reader -/

/-- What the next character is read as. -/
inductive Mode where
  | bare
  | quoted
  /-- After a backslash outside quotes. -/
  | escaped
deriving DecidableEq

structure Reader where
  /-- The words that have ended. -/
  words : List (List Char) := []
  /-- The word that has begun, which may still be empty. -/
  word : Option (List Char) := none
  mode : Mode := .bare
  /-- The characters so far that stood for themselves outside quotes. -/
  bare : List Char := []
deriving DecidableEq

namespace Reader

/-- Begins a word unless one has begun. -/
def begin (r : Reader) : Reader :=
  { r with word := some (r.word.getD []) }

/-- Puts a character at the end of the word. -/
def add (r : Reader) (c : Char) : Reader :=
  { r with word := some (r.word.getD [] ++ [c]) }

/-- Ends the word that has begun, if one has. -/
def finish (r : Reader) : Reader :=
  { r with words := r.words ++ r.word.toList, word := none }

def step (r : Reader) (c : Char) : Reader :=
  match r.mode with
  | .escaped => { r.add c with mode := .bare }
  | .quoted => if c = '\'' then { r with mode := .bare } else r.add c
  | .bare =>
    if c = '\'' then { r.begin with mode := .quoted }
    else if c = '\\' then { r.begin with mode := .escaped }
    else if c = ' ' then r.finish
    else { r.add c with bare := r.bare ++ [c] }

end Reader

/-- The reader behind the end of a line. -/
def read (line : String) : Reader :=
  (line.toList.foldl Reader.step {}).finish

/-- The words of a line, or `none` if it ends inside quotes or after a backslash. -/
def words? (line : String) : Option (List String) :=
  if (read line).mode = .bare then some ((read line).words.map String.ofList) else none

/-- The characters that a shell expands or takes for an operator, a comment or another kind of
quotes when they stand for themselves outside quotes. -/
def special : List Char :=
  ['|', '&', ';', '<', '>', '(', ')', '$', '`', '\\', '"', '\'', '*', '?', '[', ']', '#', '~', '!',
    '\x7b', '\x7d', '^', ' ', '\t', '\n']

/-! ## 2. Reading one word -/

section

variable {ws : List (List Char)} {b : List Char}

-- A quote in the word leaves the quotes, stands escaped, and enters them again.
theorem foldl_quotedChar (c : Char) (w : List Char) :
    (quotedChar c).foldl Reader.step ⟨ws, some w, .quoted, b⟩ =
      ⟨ws, some (w ++ [c]), .quoted, b⟩ := by
  by_cases hc : c = '\''
  · subst hc
    rfl
  · rw [quotedChar, if_neg hc, List.foldl_cons, List.foldl_nil]
    exact if_neg hc

theorem foldl_quoted (s w : List Char) :
    (s.flatMap quotedChar).foldl Reader.step ⟨ws, some w, .quoted, b⟩ =
      ⟨ws, some (w ++ s), .quoted, b⟩ := by
  induction s generalizing w with
  | nil => rw [List.append_nil]; rfl
  | cons c s ih =>
    rw [List.flatMap_cons, List.foldl_append, foldl_quotedChar, ih, List.append_assoc]
    rfl

theorem not_special_of_isPlain {c : Char} (h : isPlain c) : c ∉ special := by
  intro hc
  have hnone : special.all (fun d => !isPlain d) = true := by decide
  have hc' := List.all_eq_true.mp hnone c hc
  rw [h] at hc'
  cases hc'

theorem step_plain {c : Char} (h : isPlain c) (w : Option (List Char)) :
    Reader.step ⟨ws, w, .bare, b⟩ c = ⟨ws, some (w.getD [] ++ [c]), .bare, b ++ [c]⟩ := by
  have hc := not_special_of_isPlain h
  have hquote : c ≠ '\'' := fun he => hc (he ▸ by decide)
  have hslash : c ≠ '\\' := fun he => hc (he ▸ by decide)
  have hspace : c ≠ ' ' := fun he => hc (he ▸ by decide)
  exact (if_neg hquote).trans ((if_neg hslash).trans (if_neg hspace))

theorem foldl_plain (s : List Char) (h : s.all isPlain) (w : List Char) (b : List Char) :
    s.foldl Reader.step ⟨ws, some w, .bare, b⟩ = ⟨ws, some (w ++ s), .bare, b ++ s⟩ := by
  induction s generalizing w b with
  | nil => simp
  | cons c s ih =>
    rw [List.all_cons, Bool.and_eq_true] at h
    rw [List.foldl_cons, step_plain h.1, ih h.2]
    simp

/-- The characters of a word that are printed outside quotes. -/
def exposed (s : List Char) : List Char :=
  if s ≠ [] ∧ s.all isPlain then s else []

theorem isPlain_of_mem_exposed {s : List Char} {c : Char} (h : c ∈ exposed s) : isPlain c := by
  unfold exposed at h
  split at h
  next hs => exact List.all_eq_true.mp hs.2 c h
  next => cases h

/-- A printed word is read whole, and nothing of it stays behind. -/
theorem foldl_word (s : List Char) :
    (word s).foldl Reader.step ⟨ws, none, .bare, b⟩ = ⟨ws, some s, .bare, b ++ exposed s⟩ := by
  unfold word exposed
  split
  next hs =>
    obtain ⟨c, s, rfl⟩ := List.exists_cons_of_ne_nil hs.1
    have hplain := hs.2
    rw [List.all_cons, Bool.and_eq_true] at hplain
    rw [List.foldl_cons, step_plain hplain.1, foldl_plain s hplain.2]
    simp
  next =>
    -- The quotes begin a word even if there is nothing between them.
    have hopen : Reader.step ⟨ws, none, .bare, b⟩ '\'' = ⟨ws, some [], .quoted, b⟩ := rfl
    rw [List.cons_append, List.foldl_cons, hopen, List.foldl_append, foldl_quoted,
      List.append_nil]
    rfl

end

/-! ## 3. Reading a line -/

-- A space ends the word before it.
theorem foldl_words (s : List Char) (ss ws : List (List Char)) (b : List Char) :
    ((List.intercalate [' '] ((s :: ss).map word)).foldl Reader.step
        ⟨ws, none, .bare, b⟩).finish =
      ⟨ws ++ s :: ss, none, .bare, b ++ (s :: ss).flatMap exposed⟩ := by
  induction ss generalizing s ws b with
  | nil =>
    rw [List.map_singleton, List.intercalate_singleton, foldl_word, List.flatMap_singleton]
    rfl
  | cons t ss ih =>
    have hspace : Reader.step ⟨ws, some s, .bare, b ++ exposed s⟩ ' ' =
        ⟨ws ++ [s], none, .bare, b ++ exposed s⟩ := rfl
    rw [List.map_cons, List.map_cons, List.intercalate_cons_cons, List.foldl_append,
      List.foldl_append, foldl_word, List.foldl_cons, List.foldl_nil, hspace, ← List.map_cons, ih]
    simp

theorem read_line (w : String) (ws : List String) :
    read (line (w :: ws)) =
      ⟨(w :: ws).map String.toList, none, .bare,
        ((w :: ws).map String.toList).flatMap exposed⟩ := by
  have hwords : (w :: ws).map (fun w => word w.toList) =
      (w.toList :: ws.map String.toList).map word := by
    simp
  rw [read, line, String.toList_ofList, hwords]
  exact foldl_words w.toList (ws.map String.toList) [] []

/-- A printed line reads as the words that it was printed from. -/
theorem words?_line (w : String) (ws : List String) : words? (line (w :: ws)) = some (w :: ws) := by
  have htexts : ((w :: ws).map String.toList).map String.ofList = w :: ws := by
    simp
  rw [words?, read_line, if_pos rfl, htexts]

/-- Outside quotes, a printed line shows a shell nothing to expand and no operator. -/
theorem not_special_of_mem_bare {w : String} {ws : List String} {c : Char}
    (h : c ∈ (read (line (w :: ws))).bare) : c ∉ special := by
  rw [read_line] at h
  obtain ⟨s, -, hs⟩ := List.mem_flatMap.mp h
  exact not_special_of_isPlain (isPlain_of_mem_exposed hs)

end VirtBoard.Shell

namespace VirtBoard.Qemu

/-- A printed command line reads as the program and its arguments, whatever characters these are
made of, and leaves a shell nothing else to do.  So no two command lines are printed alike. -/
theorem Invocation.line_reads_back (i : Invocation) :
    Shell.words? i.line = some (i.program.text :: i.args) ∧
      (∀ c ∈ (Shell.read i.line).bare, c ∉ Shell.special) ∧
      ∀ j : Invocation, j.line = i.line → j.program = i.program ∧ j.args = i.args := by
  have hread (i : Invocation) : Shell.words? i.line = some (i.program.text :: i.args) :=
    Shell.words?_line _ _
  refine ⟨hread i, fun c hc => Shell.not_special_of_mem_bare hc, fun j hj => ?_⟩
  have hwords : some (j.program.text :: j.args) = some (i.program.text :: i.args) := by
    rw [← hread j, ← hread i, hj]
  obtain ⟨hprogram, hargs⟩ := List.cons.inj (Option.some.inj hwords)
  exact ⟨Path.ext hprogram, hargs⟩

/-- A command line with no word that a shell would take as it is. -/
def unquotable : Invocation where
  program := ⟨""⟩
  args := ["'", "it's", "", "\\", "a b\\", "$HOME", "*", "~", "é\n", "\x00", "''"]
  disks := []

theorem quotes_and_blanks_read_back :
    Shell.words? unquotable.line =
        some ["", "'", "it's", "", "\\", "a b\\", "$HOME", "*", "~", "é\n", "\x00", "''"] ∧
      (∀ c ∈ (Shell.read unquotable.line).bare, c ∉ Shell.special) ∧
      ∀ j : Invocation, j.line = unquotable.line →
        j.program = ⟨""⟩ ∧ j.args = unquotable.args :=
  unquotable.line_reads_back

end VirtBoard.Qemu
