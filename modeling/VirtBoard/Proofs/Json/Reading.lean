import VirtBoard.Json

/-!
# Reading JSON texts

A reader of the JSON texts that are made of texts, lists and objects.  It takes the characters apart
into tokens, with any white space between them and all the escapes there are, and puts the tokens
together with a stack of the lists and objects that are still open.  Whatever layout a value is
printed with, it is read as the same value.
-/

namespace VirtBoard.Json

/-! ## 1. Characters of texts -/

/-- What a text holds before its characters are put together: a character that stands for itself or
has a short escape, or a number of four hexadecimal digits. -/
inductive Piece where
  | char (c : Char)
  | unit (n : Nat)
deriving DecidableEq

def isHighSurrogate (n : Nat) : Bool := 0xD800 ≤ n && n < 0xDC00
def isLowSurrogate (n : Nat) : Bool := 0xDC00 ≤ n && n < 0xE000

/-- Puts pieces together.  Surrogates have to come in pairs, the high one first. -/
def join? : List Piece → Option (List Char)
  | [] => some []
  | .char c :: ps => (join? ps).map (c :: ·)
  | .unit n :: ps =>
    if isHighSurrogate n then
      match ps with
      | .unit l :: ps =>
        if isLowSurrogate l then
          (join? ps).map (Char.ofNat (0x10000 + (n - 0xD800) * 0x400 + (l - 0xDC00)) :: ·)
        else none
      | _ => none
    else if isLowSurrogate n then none
    else (join? ps).map (Char.ofNat n :: ·)

def hexValue? (c : Char) : Option Nat :=
  if '0' ≤ c ∧ c ≤ '9' then some (c.toNat - '0'.toNat)
  else if 'a' ≤ c ∧ c ≤ 'f' then some (c.toNat - 'a'.toNat + 10)
  else if 'A' ≤ c ∧ c ≤ 'F' then some (c.toNat - 'A'.toNat + 10)
  else none

/-- The character that a letter stands for behind a backslash. -/
def shortEscape? : Char → Option Char
  | '"' => some '"'
  | '\\' => some '\\'
  | '/' => some '/'
  | 'b' => some '\x08'
  | 'f' => some '\x0c'
  | 'n' => some '\n'
  | 'r' => some '\r'
  | 't' => some '\t'
  | _ => none

/-! ## 2. Tokens -/

inductive Token where
  | openList
  | closeList
  | openObject
  | closeObject
  | comma
  | colon
  | text (s : String)
deriving DecidableEq

def isBlank (c : Char) : Bool :=
  c = ' ' || c = '\t' || c = '\n' || c = '\r'

def punctuation? : Char → Option Token
  | '[' => some .openList
  | ']' => some .closeList
  | '\x7b' => some .openObject
  | '\x7d' => some .closeObject
  | ',' => some .comma
  | ':' => some .colon
  | _ => none

/-- What the next character is read as. -/
inductive Mode where
  | between
  | inside (pieces : List Piece)
  /-- After a backslash in a text. -/
  | escaped (pieces : List Piece)
  /-- After some of the four digits of a number. -/
  | digits (pieces : List Piece) (read value : Nat)
deriving DecidableEq

structure Lexer where
  tokens : List Token := []
  mode : Mode := .between
deriving DecidableEq

namespace Lexer

def step (l : Lexer) (c : Char) : Option Lexer :=
  match l.mode with
  | .between =>
    if isBlank c then some l
    else if c = '"' then some { l with mode := .inside [] }
    else (punctuation? c).map fun t => { l with tokens := l.tokens ++ [t] }
  | .inside ps =>
    if c = '"' then
      (join? ps).map fun s => ⟨l.tokens ++ [.text (String.ofList s)], .between⟩
    else if c = '\\' then some { l with mode := .escaped ps }
    else if c.toNat < 0x20 then none
    else some { l with mode := .inside (ps ++ [.char c]) }
  | .escaped ps =>
    if c = 'u' then some { l with mode := .digits ps 0 0 }
    else (shortEscape? c).map fun c => { l with mode := .inside (ps ++ [.char c]) }
  | .digits ps read value =>
    (hexValue? c).map fun d =>
      if read = 3 then { l with mode := .inside (ps ++ [.unit (16 * value + d)]) }
      else { l with mode := .digits ps (read + 1) (16 * value + d) }

end Lexer

/-- The tokens of a text, which must not end inside one of its texts. -/
def tokens? (s : List Char) : Option (List Token) :=
  match s.foldlM Lexer.step {} with
  | some ⟨ts, .between⟩ => some ts
  | _ => none

/-! ## 3. Values -/

/-- A list or an object that is still open, while one of its values is read. -/
inductive Frame where
  | element (before : List Json)
  | field (before : List (String × Json)) (key : String)

/-- What the next token is read as, within the lists and objects that are open. -/
inductive State where
  | value (stack : List Frame)
  /-- At the start of a list. -/
  | firstElement (stack : List Frame)
  | afterElement (elements : List Json) (stack : List Frame)
  /-- At the start of an object. -/
  | firstField (stack : List Frame)
  | key (fields : List (String × Json)) (stack : List Frame)
  | afterKey (fields : List (String × Json)) (key : String) (stack : List Frame)
  | afterField (fields : List (String × Json)) (stack : List Frame)
  | finished (j : Json)

namespace State

/-- Goes on after a value. -/
def deliver (j : Json) : List Frame → State
  | [] => .finished j
  | .element before :: stack => .afterElement (before ++ [j]) stack
  | .field before k :: stack => .afterField (before ++ [(k, j)]) stack

def startValue (stack : List Frame) : Token → Option State
  | .text s => some (deliver (.str s) stack)
  | .openList => some (.firstElement stack)
  | .openObject => some (.firstField stack)
  | _ => none

def step (s : State) (t : Token) : Option State :=
  match s with
  | .value stack => startValue stack t
  | .firstElement stack =>
    if t = .closeList then some (deliver (.arr []) stack)
    else startValue (.element [] :: stack) t
  | .afterElement es stack =>
    match t with
    | .comma => some (.value (.element es :: stack))
    | .closeList => some (deliver (.arr es) stack)
    | _ => none
  | .firstField stack =>
    match t with
    | .closeObject => some (deliver (.obj []) stack)
    | .text k => some (.afterKey [] k stack)
    | _ => none
  | .key fs stack =>
    match t with
    | .text k => some (.afterKey fs k stack)
    | _ => none
  | .afterKey fs k stack =>
    match t with
    | .colon => some (.value (.field fs k :: stack))
    | _ => none
  | .afterField fs stack =>
    match t with
    | .comma => some (.key fs stack)
    | .closeObject => some (deliver (.obj fs) stack)
    | _ => none
  | .finished _ => none

end State

/-- Reads a text that is one value, with white space around it if need be. -/
def read (text : String) : Option Json := do
  match (← tokens? text.toList).foldlM State.step (.value []) with
  | some (.finished j) => some j
  | _ => none

/-- The value of a field, the last one if there are several of the name. -/
def field? (j : Json) (key : String) : Option Json :=
  match j with
  | .obj fields => fields.reverse.lookup key
  | _ => none

/-! ## 4. What a text gives -/

/-- A piece of text gives tokens, whatever stands before it. -/
def Lexes (s : List Char) (ts : List Token) : Prop :=
  ∀ before, s.foldlM Lexer.step ⟨before, .between⟩ = some ⟨before ++ ts, .between⟩

theorem lexes_nil : Lexes [] [] := by
  intro before
  rw [List.append_nil]
  rfl

theorem Lexes.append {s s' : List Char} {ts ts' : List Token} (h : Lexes s ts)
    (h' : Lexes s' ts') : Lexes (s ++ s') (ts ++ ts') := by
  intro before
  rw [List.foldlM_append, h before]
  exact (h' _).trans (by rw [List.append_assoc])

theorem lexes_blank {s : List Char} (h : s.all isBlank) : Lexes s [] := by
  intro before
  induction s with
  | nil => exact lexes_nil before
  | cons c s ih =>
    rw [List.all_cons, Bool.and_eq_true] at h
    have hstep : Lexer.step ⟨before, .between⟩ c = some ⟨before, .between⟩ := if_pos h.1
    rw [List.foldlM_cons, hstep]
    exact ih h.2

theorem lexes_punctuation {c : Char} {t : Token} (h : punctuation? c = some t) :
    Lexes [c] [t] := by
  intro before
  have hc : isBlank c = false ∧ c ≠ '"' := by
    unfold punctuation? at h
    split at h <;> first | decide | cases h
  have hstep : Lexer.step ⟨before, .between⟩ c = some ⟨before ++ [t], .between⟩ := by
    unfold Lexer.step
    dsimp only
    rw [if_neg (by simp [hc.1]), if_neg hc.2, h]
    rfl
  rw [List.foldlM_cons, hstep]
  rfl

/-! ## 5. Texts in quotes -/

/-- The number that hexadecimal digits add to a value. -/
def hexNumber? (value : Nat) : List Char → Option Nat
  | [] => some value
  | c :: s => (hexValue? c).bind fun d => hexNumber? (16 * value + d) s

/-- How the pieces of a text are spelled between quotes: a character by itself, by its short escape,
or by four hexadecimal digits. -/
inductive Quotes : List Piece → List Char → Prop where
  | nil : Quotes [] []
  | plain {c : Char} {ps : List Piece} {s : List Char} (hcontrol : 0x20 ≤ c.toNat)
      (hquote : c ≠ '"') (hslash : c ≠ '\\') (h : Quotes ps s) : Quotes (.char c :: ps) (c :: s)
  | short {letter c : Char} {ps : List Piece} {s : List Char} (hc : shortEscape? letter = some c)
      (h : Quotes ps s) : Quotes (.char c :: ps) ('\\' :: letter :: s)
  | number {digits : List Char} {n : Nat} {ps : List Piece} {s : List Char}
      (hlength : digits.length = 4) (hn : hexNumber? 0 digits = some n) (h : Quotes ps s) :
      Quotes (.unit n :: ps) ('\\' :: 'u' :: digits ++ s)

theorem shortEscape?_ne_u {letter c : Char} (h : shortEscape? letter = some c) : letter ≠ 'u' := by
  rintro rfl
  cases h

theorem foldlM_digits {digits : List Char} (hne : digits ≠ []) {read value n : Nat}
    (hlength : digits.length + read = 4) (hn : hexNumber? value digits = some n)
    (ts : List Token) (ps : List Piece) :
    digits.foldlM Lexer.step ⟨ts, .digits ps read value⟩ =
      some ⟨ts, .inside (ps ++ [.unit n])⟩ := by
  induction digits generalizing read value with
  | nil => exact absurd rfl hne
  | cons c digits ih =>
    obtain ⟨d, hd, hn⟩ := Option.bind_eq_some_iff.mp hn
    have hstep : Lexer.step ⟨ts, .digits ps read value⟩ c =
        if read = 3 then some ⟨ts, .inside (ps ++ [.unit (16 * value + d)])⟩
        else some ⟨ts, .digits ps (read + 1) (16 * value + d)⟩ := by
      unfold Lexer.step
      dsimp only
      rw [hd, Option.map_some]
      split <;> rfl
    rw [List.foldlM_cons, hstep]
    rw [List.length_cons] at hlength
    cases digits with
    | nil =>
      obtain rfl : read = 3 := by simp only [List.length_nil] at hlength; omega
      obtain rfl := Option.some.inj hn
      rfl
    | cons c' digits =>
      rw [List.length_cons] at hlength
      rw [if_neg (by omega)]
      exact ih (List.cons_ne_nil _ _) (by rw [List.length_cons]; omega) hn

theorem Quotes.foldlM {ps : List Piece} {q : List Char} (h : Quotes ps q) (ts : List Token)
    (before : List Piece) :
    q.foldlM Lexer.step ⟨ts, .inside before⟩ = some ⟨ts, .inside (before ++ ps)⟩ := by
  induction h generalizing before with
  | nil =>
    rw [List.append_nil]
    rfl
  | @plain c ps s hcontrol hquote hslash _ ih =>
    have hstep : Lexer.step ⟨ts, .inside before⟩ c = some ⟨ts, .inside (before ++ [.char c])⟩ :=
      (if_neg hquote).trans ((if_neg hslash).trans (if_neg (Nat.not_lt.mpr hcontrol)))
    rw [List.foldlM_cons, hstep, Option.bind_eq_bind, Option.bind_some, ih, List.append_assoc]
    rfl
  | @short letter c ps s hc _ ih =>
    have hopen : Lexer.step ⟨ts, .inside before⟩ '\\' = some ⟨ts, .escaped before⟩ := rfl
    have hstep : Lexer.step ⟨ts, .escaped before⟩ letter =
        some ⟨ts, .inside (before ++ [.char c])⟩ := by
      refine (if_neg (shortEscape?_ne_u hc)).trans ?_
      rw [hc]
      rfl
    rw [List.foldlM_cons, hopen, Option.bind_eq_bind, Option.bind_some, List.foldlM_cons, hstep,
      Option.bind_eq_bind, Option.bind_some, ih, List.append_assoc]
    rfl
  | @number digits n ps s hlength hn _ ih =>
    have hne : digits ≠ [] := by
      rintro rfl
      cases hlength
    have hopen : Lexer.step ⟨ts, .inside before⟩ '\\' = some ⟨ts, .escaped before⟩ := rfl
    have hu : Lexer.step ⟨ts, .escaped before⟩ 'u' = some ⟨ts, .digits before 0 0⟩ := rfl
    rw [List.cons_append, List.foldlM_cons, hopen, Option.bind_eq_bind, Option.bind_some,
      List.cons_append, List.foldlM_cons, hu, Option.bind_eq_bind, Option.bind_some,
      List.foldlM_append, foldlM_digits hne hlength hn, Option.bind_eq_bind, Option.bind_some, ih,
      List.append_assoc]
    rfl

theorem Quotes.lexes {ps : List Piece} {q chars : List Char} (h : Quotes ps q)
    (hchars : join? ps = some chars) :
    Lexes ('"' :: q ++ ['"']) [.text (String.ofList chars)] := by
  intro before
  have hopen : Lexer.step ⟨before, .between⟩ '"' = some ⟨before, .inside []⟩ := rfl
  have hclose : Lexer.step ⟨before, .inside ps⟩ '"' =
      some ⟨before ++ [.text (String.ofList chars)], .between⟩ := by
    unfold Lexer.step
    dsimp only
    rw [if_pos rfl, hchars]
    rfl
  rw [List.cons_append, List.foldlM_cons, hopen, Option.bind_eq_bind, Option.bind_some,
    List.foldlM_append, h.foldlM, List.nil_append, Option.bind_eq_bind, Option.bind_some,
    List.foldlM_cons, hclose]
  rfl

theorem Quotes.append {ps ps' : List Piece} {q q' : List Char} (h : Quotes ps q)
    (h' : Quotes ps' q') : Quotes (ps ++ ps') (q ++ q') := by
  induction h with
  | nil => exact h'
  | plain hcontrol hquote hslash _ ih => exact .plain hcontrol hquote hslash ih
  | short hc _ ih => exact .short hc ih
  | number hlength hn _ ih =>
    rw [List.append_assoc]
    exact .number hlength hn ih

/-! ## 6. Printed texts -/

/-- Whether a character is printed by its number. -/
def isNumbered (c : Char) : Bool :=
  c.toNat < 0x20 && c ∉ ['\x08', '\x0c', '\n', '\r', '\t']

/-- How a printed character is read. -/
def pieceOf (c : Char) : Piece :=
  if isNumbered c then .unit c.toNat else .char c

theorem join?_unit {n : Nat} (hhigh : isHighSurrogate n = false) (hlow : isLowSurrogate n = false)
    (ps : List Piece) : join? (.unit n :: ps) = (join? ps).map (Char.ofNat n :: ·) := by
  conv => lhs; unfold join?
  rw [if_neg (by simp [hhigh]), if_neg (by simp [hlow])]

theorem join?_pieces (s : List Char) : join? (s.map pieceOf) = some s := by
  induction s with
  | nil => rfl
  | cons c s ih =>
    rw [List.map_cons, pieceOf]
    split
    next hc =>
      have hlow : c.toNat < 0x20 := by
        rw [isNumbered, Bool.and_eq_true] at hc
        exact of_decide_eq_true hc.1
      have hhigh : isHighSurrogate c.toNat = false ∧ isLowSurrogate c.toNat = false := by
        unfold isHighSurrogate isLowSurrogate
        simp
        omega
      rw [join?_unit hhigh.1 hhigh.2, ih, Option.map_some, Char.ofNat_toNat]
    next => rw [join?, ih]; rfl

theorem hexValue?_hexDigit {n : Nat} (h : n < 16) : hexValue? (Text.hexDigit n) = some n := by
  have hall : ∀ n < 16, hexValue? (Text.hexDigit n) = some n := by decide
  exact hall n h

theorem hexNumber?_low {n : Nat} (h : n < 0x20) :
    hexNumber? 0 ['0', '0', Text.hexDigit (n / 16), Text.hexDigit (n % 16)] = some n := by
  have hzero : hexValue? '0' = some 0 := by decide
  have hvalue : 16 * (16 * (16 * (16 * 0 + 0) + 0) + n / 16) + n % 16 = n := by omega
  simp only [hexNumber?, hzero, hexValue?_hexDigit (show n / 16 < 16 by omega),
    hexValue?_hexDigit (Nat.mod_lt n (by decide : 0 < 16)), Option.bind_some, hvalue]

-- Seven characters have short escapes; the others are printed by their number or as they stand.
theorem quotes_escape (c : Char) : Quotes [pieceOf c] (escape c) := by
  by_cases hquote : c = '"'
  · subst hquote; exact .short rfl .nil
  by_cases hslash : c = '\\'
  · subst hslash; exact .short rfl .nil
  by_cases hb : c = '\x08'
  · subst hb; exact .short rfl .nil
  by_cases hf : c = '\x0c'
  · subst hf; exact .short rfl .nil
  by_cases hn : c = '\n'
  · subst hn; exact .short rfl .nil
  by_cases hr : c = '\r'
  · subst hr; exact .short rfl .nil
  by_cases ht : c = '\t'
  · subst ht; exact .short rfl .nil
  rw [escape, if_neg hquote, if_neg hslash, if_neg hb, if_neg hf, if_neg hn, if_neg hr, if_neg ht]
  by_cases hlow : c.toNat < 0x20
  · have hpiece : pieceOf c = .unit c.toNat := by
      rw [pieceOf, isNumbered]
      simp [hlow, hb, hf, hn, hr, ht]
    rw [if_pos hlow, hpiece]
    exact .number rfl (hexNumber?_low hlow) .nil
  · have hpiece : pieceOf c = .char c := by
      rw [pieceOf, isNumbered]
      simp [hlow]
    rw [if_neg hlow, hpiece]
    exact .plain (Nat.not_lt.mp hlow) hquote hslash .nil

theorem quotes_escapes (s : List Char) : Quotes (s.map pieceOf) (s.flatMap escape) := by
  induction s with
  | nil => exact .nil
  | cons c s ih => exact (quotes_escape c).append ih

theorem lexes_string (s : String) : Lexes (string s) [.text s] := by
  have hlexes := (quotes_escapes s.toList).lexes (join?_pieces s.toList)
  rwa [String.ofList_toList] at hlexes

/-! ## 7. Printed values -/

mutual

/-- The tokens of a value. -/
def tokens : Json → List Token
  | .str s => [.text s]
  | .arr [] => [.openList, .closeList]
  | .arr (e :: es) => .openList :: tokens e ++ tokensOfElements es ++ [.closeList]
  | .obj [] => [.openObject, .closeObject]
  | .obj ((k, v) :: fs) =>
    .openObject :: .text k :: .colon :: tokens v ++ tokensOfFields fs ++ [.closeObject]

def tokensOfElements : List Json → List Token
  | [] => []
  | e :: es => .comma :: tokens e ++ tokensOfElements es

def tokensOfFields : List (String × Json) → List Token
  | [] => []
  | (k, v) :: fs => .comma :: .text k :: .colon :: tokens v ++ tokensOfFields fs

end

/-- A layout that puts nothing but white space around and between the parts of a value. -/
structure Layout.Lawful (layout : Layout) : Prop where
  newline : ∀ depth, (layout.newline depth).all isBlank
  colon : ∃ a b, layout.colon = a ++ ':' :: b ∧ a.all isBlank ∧ b.all isBlank

theorem Layout.compact_lawful : Layout.compact.Lawful where
  newline _ := rfl
  colon := ⟨[], [], rfl, rfl, rfl⟩

theorem Layout.pretty_lawful : Layout.pretty.Lawful where
  newline depth := by
    rw [Layout.pretty, List.all_cons, List.all_eq_true.mpr fun c hc => ?_]
    · rfl
    · rw [List.eq_of_mem_replicate hc]
      rfl
  colon := ⟨[], [' '], rfl, rfl, rfl⟩

section

variable {layout : Layout}

theorem Layout.Lawful.lexes_newline (h : layout.Lawful) (depth : Nat) :
    Lexes (layout.newline depth) [] :=
  lexes_blank (h.newline depth)

theorem Layout.Lawful.lexes_colon (h : layout.Lawful) : Lexes layout.colon [.colon] := by
  obtain ⟨a, b, hcolon, ha, hb⟩ := h.colon
  rw [hcolon]
  exact (lexes_blank ha).append ((lexes_punctuation rfl).append (lexes_blank hb))

-- The induction is on the value and takes the depth along, because the parts of a value stand one
-- level below it.
mutual

theorem lexes_render (h : layout.Lawful) (depth : Nat) (j : Json) :
    Lexes (render layout depth j) (tokens j) := by
  match j with
  | .str s => exact lexes_string s
  | .arr [] => exact (lexes_punctuation rfl).append (lexes_punctuation rfl)
  | .arr (e :: es) =>
    have hopen : Lexes ['['] [.openList] := lexes_punctuation rfl
    have hclose : Lexes [']'] [.closeList] := lexes_punctuation rfl
    simpa [render, tokens] using
      hopen.append ((h.lexes_newline (depth + 1)).append ((lexes_render h (depth + 1) e).append
        ((lexes_renderElements h (depth + 1) es).append ((h.lexes_newline depth).append hclose))))
  | .obj [] => exact (lexes_punctuation rfl).append (lexes_punctuation rfl)
  | .obj ((k, v) :: fs) =>
    have hopen : Lexes ['\x7b'] [.openObject] := lexes_punctuation rfl
    have hclose : Lexes ['\x7d'] [.closeObject] := lexes_punctuation rfl
    simpa [render, tokens] using
      hopen.append ((h.lexes_newline (depth + 1)).append ((lexes_string k).append
        (h.lexes_colon.append ((lexes_render h (depth + 1) v).append
          ((lexes_renderFields h (depth + 1) fs).append ((h.lexes_newline depth).append hclose))))))

theorem lexes_renderElements (h : layout.Lawful) (depth : Nat) (es : List Json) :
    Lexes (renderElements layout depth es) (tokensOfElements es) := by
  match es with
  | [] => exact lexes_nil
  | e :: es =>
    have hcomma : Lexes [','] [.comma] := lexes_punctuation rfl
    simpa [renderElements, tokensOfElements] using
      hcomma.append ((h.lexes_newline depth).append ((lexes_render h depth e).append
        (lexes_renderElements h depth es)))

theorem lexes_renderFields (h : layout.Lawful) (depth : Nat) (fs : List (String × Json)) :
    Lexes (renderFields layout depth fs) (tokensOfFields fs) := by
  match fs with
  | [] => exact lexes_nil
  | (k, v) :: fs =>
    have hcomma : Lexes [','] [.comma] := lexes_punctuation rfl
    simpa [renderFields, tokensOfFields] using
      hcomma.append ((h.lexes_newline depth).append ((lexes_string k).append
        (h.lexes_colon.append ((lexes_render h depth v).append (lexes_renderFields h depth fs)))))

end

end

/-! ## 8. Values put together again -/

theorem tokens_head (j : Json) : ∃ t ts, tokens j = t :: ts ∧ t ≠ .closeList := by
  match j with
  | .str s => exact ⟨_, _, rfl, by simp⟩
  | .arr [] => exact ⟨_, _, rfl, by simp⟩
  | .arr (_ :: _) => exact ⟨_, _, rfl, by simp⟩
  | .obj [] => exact ⟨_, _, rfl, by simp⟩
  | .obj (_ :: _) => exact ⟨_, _, rfl, by simp⟩

-- A list that does not end at once begins with an element.
theorem foldlM_firstElement (j : Json) (stack : List Frame) :
    (tokens j).foldlM State.step (.firstElement stack) =
      (tokens j).foldlM State.step (.value (.element [] :: stack)) := by
  obtain ⟨t, ts, hj, ht⟩ := tokens_head j
  have hstep : State.step (.firstElement stack) t = State.step (.value (.element [] :: stack)) t :=
    if_neg ht
  rw [hj, List.foldlM_cons, List.foldlM_cons, hstep]

-- What is open around a value is arbitrary, so that the same fact serves for a value at any depth.
mutual

theorem foldlM_tokens (j : Json) (stack : List Frame) :
    (tokens j).foldlM State.step (.value stack) = some (State.deliver j stack) := by
  match j with
  | .str s => rfl
  | .arr [] => rfl
  | .arr (e :: es) =>
    have hopen : State.step (.value stack) .openList = some (.firstElement stack) := rfl
    have hclose : State.step (.afterElement (e :: es) stack) .closeList =
        some (State.deliver (.arr (e :: es)) stack) := rfl
    simp [tokens, hopen, foldlM_firstElement, foldlM_tokens e, State.deliver,
      foldlM_tokensOfElements es, hclose]
  | .obj [] => rfl
  | .obj ((k, v) :: fs) =>
    have hopen : State.step (.value stack) .openObject = some (.firstField stack) := rfl
    have hkey : State.step (.firstField stack) (.text k) = some (.afterKey [] k stack) := rfl
    have hcolon : State.step (.afterKey [] k stack) .colon = some (.value (.field [] k :: stack)) :=
      rfl
    have hclose : State.step (.afterField ((k, v) :: fs) stack) .closeObject =
        some (State.deliver (.obj ((k, v) :: fs)) stack) := rfl
    simp [tokens, hopen, hkey, hcolon, foldlM_tokens v, State.deliver, foldlM_tokensOfFields fs,
      hclose]

theorem foldlM_tokensOfElements (es before : List Json) (stack : List Frame) :
    (tokensOfElements es).foldlM State.step (.afterElement before stack) =
      some (.afterElement (before ++ es) stack) := by
  match es with
  | [] => simp [tokensOfElements]
  | e :: es =>
    have hcomma : State.step (.afterElement before stack) .comma =
        some (.value (.element before :: stack)) := rfl
    simp [tokensOfElements, hcomma, foldlM_tokens e, State.deliver, foldlM_tokensOfElements es]

theorem foldlM_tokensOfFields (fs before : List (String × Json)) (stack : List Frame) :
    (tokensOfFields fs).foldlM State.step (.afterField before stack) =
      some (.afterField (before ++ fs) stack) := by
  match fs with
  | [] => simp [tokensOfFields]
  | (k, v) :: fs =>
    have hcomma : State.step (.afterField before stack) .comma = some (.key before stack) := rfl
    have hkey : State.step (.key before stack) (.text k) = some (.afterKey before k stack) := rfl
    have hcolon : State.step (.afterKey before k stack) .colon =
        some (.value (.field before k :: stack)) := rfl
    simp [tokensOfFields, hcomma, hkey, hcolon, foldlM_tokens v, State.deliver,
      foldlM_tokensOfFields fs]

end

/-- A value in any layout, with white space behind it, is read as the value. -/
theorem read_render {layout : Layout} (h : layout.Lawful) (j : Json) {blank : List Char}
    (hblank : blank.all isBlank) : read (String.ofList (render layout 0 j ++ blank)) = some j := by
  have hlexed : tokens? (render layout 0 j ++ blank) = some (tokens j) := by
    have hfold := ((lexes_render h 0 j).append (lexes_blank hblank)) []
    rw [List.append_nil, List.nil_append] at hfold
    unfold tokens?
    rw [hfold]
  unfold read
  rw [String.toList_ofList, hlexed, Option.bind_eq_bind, Option.bind_some, foldlM_tokens]
  rfl

/-- What is printed in one of the two layouts is read as the value. -/
theorem read_pretty (j : Json) : read j.pretty = some j := by
  rw [pretty, ← List.append_nil (render _ _ j)]
  exact read_render Layout.pretty_lawful j rfl

theorem read_compact (j : Json) : read j.compact = some j := by
  rw [compact, ← List.append_nil (render _ _ j)]
  exact read_render Layout.compact_lawful j rfl

end VirtBoard.Json
