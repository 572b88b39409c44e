import VirtBoard.Proofs.Json.Reading

/-!
# The grammar of JSON texts

Which texts stand for a value: its tokens in order, with white space between them, and the texts in
quotes with any of their characters escaped.  The reader reads a text as a value if and only if it
is one of these.
-/

namespace VirtBoard.Json

/-! ## 1. The grammar -/

/-- How tokens are spelled one after the other. -/
inductive Spells : List Token → List Char → Prop where
  | nil : Spells [] []
  | blank {c : Char} {ts : List Token} {s : List Char} (hc : isBlank c = true) (h : Spells ts s) :
      Spells ts (c :: s)
  | punctuation {c : Char} {t : Token} {ts : List Token} {s : List Char}
      (hc : punctuation? c = some t) (h : Spells ts s) : Spells (t :: ts) (c :: s)
  | text {ps : List Piece} {chars q : List Char} {ts : List Token} {s : List Char}
      (hq : Quotes ps q) (hchars : join? ps = some chars) (h : Spells ts s) :
      Spells (.text (String.ofList chars) :: ts) ('"' :: q ++ '"' :: s)

/-- A text of a value, in whatever layout and with whatever escapes. -/
def IsTextOf (text : String) (j : Json) : Prop :=
  Spells (tokens j) text.toList

/-! ## 2. What is spelled is read -/

theorem Spells.lexes {ts : List Token} {s : List Char} (h : Spells ts s) : Lexes s ts := by
  induction h with
  | nil => exact lexes_nil
  | @blank c ts s hc _ ih => exact (lexes_blank (s := [c]) (by simpa using hc)).append ih
  | punctuation hc _ ih => exact (lexes_punctuation hc).append ih
  | @text ps chars q ts s hq hchars _ ih =>
    have htext := hq.lexes hchars
    have happend := htext.append ih
    rwa [List.append_assoc] at happend

/-! ## 3. What is read is spelled -/

/-- What is still to come of a text in quotes. -/
def Mode.Continues : Mode → List Piece → List Char → Prop
  | .between, _, _ => False
  | .inside _, ps, q => Quotes ps q
  | .escaped _, ps, q => Quotes ps ('\\' :: q)
  | .digits _ read value, ps, q => ∃ digits n ps' q', digits.length + read = 4 ∧
      hexNumber? value digits = some n ∧ Quotes ps' q' ∧ ps = .unit n :: ps' ∧ q = digits ++ q'

def Mode.pieces : Mode → List Piece
  | .between => []
  | .inside ps | .escaped ps | .digits ps _ _ => ps

/-- What is still to come in a mode, and the tokens that it gives. -/
inductive Resumes : Mode → List Token → List Char → Prop where
  | between {ts : List Token} {s : List Char} (h : Spells ts s) : Resumes .between ts s
  | quoted {mode : Mode} {ps : List Piece} {q chars : List Char} {ts : List Token} {s : List Char}
      (hq : mode.Continues ps q) (hchars : join? (mode.pieces ++ ps) = some chars)
      (h : Spells ts s) : Resumes mode (.text (String.ofList chars) :: ts) (q ++ '"' :: s)

theorem Resumes.cons {mode mode' : Mode} {c : Char} {ts : List Token} {s : List Char}
    (h : Resumes mode' ts s) (hne : mode' ≠ .between)
    (hcontinues : ∀ ps q, mode'.Continues ps q →
      ∃ ps', mode.Continues ps' (c :: q) ∧ mode'.pieces ++ ps = mode.pieces ++ ps') :
    Resumes mode ts (c :: s) := by
  cases h with
  | between => exact absurd rfl hne
  | quoted hq hchars h =>
    obtain ⟨ps', hq', hpieces⟩ := hcontinues _ _ hq
    rw [hpieces] at hchars
    exact .quoted hq' hchars h

/-- One more character in front of what is still to come. -/
theorem resumes_of_step {before before' : List Token} {mode mode' : Mode} {c : Char}
    (hstep : Lexer.step ⟨before, mode⟩ c = some ⟨before', mode'⟩) {ts : List Token} {s : List Char}
    (h : Resumes mode' ts s) :
    ∃ ts', before' ++ ts = before ++ ts' ∧ Resumes mode ts' (c :: s) := by
  cases mode with
  | between =>
    simp only [Lexer.step] at hstep
    split at hstep
    next hblank =>
      cases hstep
      cases h with
      | between h => exact ⟨ts, rfl, .between (.blank hblank h)⟩
      | quoted hq => cases hq
    next =>
      split at hstep
      next hquote =>
        cases hstep
        subst hquote
        cases h with
        | quoted hq hchars h => exact ⟨_, rfl, .between (.text hq hchars h)⟩
      next =>
        obtain ⟨t, ht, hl⟩ := Option.map_eq_some_iff.mp hstep
        cases hl
        cases h with
        | between h => exact ⟨t :: ts, by simp, .between (.punctuation ht h)⟩
        | quoted hq => cases hq
  | inside ps =>
    simp only [Lexer.step] at hstep
    split at hstep
    next hquote =>
      obtain ⟨chars, hchars, hl⟩ := Option.map_eq_some_iff.mp hstep
      cases hl
      subst hquote
      cases h with
      | between h =>
        have hchars' : join? ((Mode.inside ps).pieces ++ []) = some chars := by
          rwa [List.append_nil]
        have hresumes : Resumes (.inside ps) (.text (String.ofList chars) :: ts) ('"' :: s) :=
          .quoted (q := []) .nil hchars' h
        exact ⟨_, by simp, hresumes⟩
      | quoted hq => cases hq
    next hquote =>
      split at hstep
      next hslash =>
        cases hstep
        subst hslash
        exact ⟨ts, rfl, h.cons (by simp) fun ps' q hq => ⟨ps', hq, rfl⟩⟩
      next hslash =>
        split at hstep
        next => cases hstep
        next hcontrol =>
          cases hstep
          have hplain {ps' : List Piece} {q : List Char} (hq : Quotes ps' q) :
              Quotes (.char c :: ps') (c :: q) :=
            .plain (Nat.not_lt.mp hcontrol) hquote hslash hq
          exact ⟨ts, rfl, h.cons (by simp) fun ps' q hq =>
            ⟨.char c :: ps', hplain hq, by simp [Mode.pieces]⟩⟩
  | escaped ps =>
    simp only [Lexer.step] at hstep
    split at hstep
    next hu =>
      cases hstep
      subst hu
      refine ⟨ts, rfl, h.cons (by simp) ?_⟩
      rintro ps' q ⟨digits, n, ps', q, hlength, hn, hq, rfl, rfl⟩
      exact ⟨_, .number hlength hn hq, rfl⟩
    next =>
      obtain ⟨c', hc, hl⟩ := Option.map_eq_some_iff.mp hstep
      cases hl
      exact ⟨ts, rfl, h.cons (by simp) fun ps' q hq =>
        ⟨.char c' :: ps', .short hc hq, by simp [Mode.pieces]⟩⟩
  | digits ps read value =>
    simp only [Lexer.step] at hstep
    obtain ⟨d, hd, hl⟩ := Option.map_eq_some_iff.mp hstep
    split at hl
    next hread =>
      cases hl
      subst hread
      have hn : hexNumber? value [c] = some (16 * value + d) := by
        rw [hexNumber?, hd]
        rfl
      exact ⟨ts, rfl, h.cons (by simp) fun ps' q hq =>
        ⟨_, ⟨[c], _, ps', q, rfl, hn, hq, rfl, rfl⟩, by simp [Mode.pieces]⟩⟩
    next =>
      cases hl
      refine ⟨ts, rfl, h.cons (by simp) ?_⟩
      rintro ps' q ⟨digits, n, ps', q, hlength, hn, hq, rfl, rfl⟩
      have hn' : hexNumber? value (c :: digits) = some n := by
        rw [hexNumber?, hd]
        exact hn
      exact ⟨_, ⟨c :: digits, n, ps', q, by rw [List.length_cons]; omega, hn', hq, rfl, rfl⟩, rfl⟩

theorem resumes_of_foldlM {before final : List Token} {mode : Mode} {s : List Char}
    (h : s.foldlM Lexer.step ⟨before, mode⟩ = some ⟨final, .between⟩) :
    ∃ ts, final = before ++ ts ∧ Resumes mode ts s := by
  induction s generalizing before mode with
  | nil =>
    cases h
    exact ⟨[], (List.append_nil _).symm, .between .nil⟩
  | cons c s ih =>
    rw [List.foldlM_cons] at h
    obtain ⟨⟨before', mode'⟩, hstep, hrest⟩ := Option.bind_eq_some_iff.mp h
    obtain ⟨ts, rfl, hresumes⟩ := ih hrest
    exact resumes_of_step hstep hresumes

/-- Tokens are read where they are spelled, and nowhere else. -/
theorem tokens?_eq_some_iff {s : List Char} {ts : List Token} :
    tokens? s = some ts ↔ Spells ts s := by
  constructor
  · intro h
    unfold tokens? at h
    split at h
    next final hfold =>
      obtain rfl := Option.some.inj h
      obtain ⟨ts, rfl, hresumes⟩ := resumes_of_foldlM hfold
      cases hresumes with
      | between h => exact h
      | quoted hq => cases hq
    next => cases h
  · intro h
    have hfold := h.lexes []
    rw [List.nil_append] at hfold
    unfold tokens?
    rw [show s.foldlM Lexer.step {} = some ⟨ts, .between⟩ from hfold]

/-! ## 4. The tokens of what is read -/

/-- The tokens of the elements of a list, and with the comma before the next one. -/
def elementTokens : List Json → List Token
  | [] => []
  | e :: es => tokens e ++ tokensOfElements es

def elementsThen (es : List Json) : List Token :=
  if es = [] then [] else elementTokens es ++ [.comma]

def fieldTokens : List (String × Json) → List Token
  | [] => []
  | (k, v) :: fs => .text k :: .colon :: tokens v ++ tokensOfFields fs

def fieldsThen (fs : List (String × Json)) : List Token :=
  if fs = [] then [] else fieldTokens fs ++ [.comma]

theorem tokens_arr (es : List Json) :
    tokens (.arr es) = .openList :: elementTokens es ++ [.closeList] := by
  cases es <;> simp [tokens, elementTokens]

theorem tokens_obj (fs : List (String × Json)) :
    tokens (.obj fs) = .openObject :: fieldTokens fs ++ [.closeObject] := by
  cases fs <;> simp [tokens, fieldTokens]

theorem tokensOfElements_concat (es : List Json) (j : Json) :
    tokensOfElements (es ++ [j]) = tokensOfElements es ++ .comma :: tokens j := by
  induction es with
  | nil => simp [tokensOfElements]
  | cons e es ih => simp [tokensOfElements, ih]

theorem tokensOfFields_concat (fs : List (String × Json)) (k : String) (j : Json) :
    tokensOfFields (fs ++ [(k, j)]) =
      tokensOfFields fs ++ .comma :: .text k :: .colon :: tokens j := by
  induction fs with
  | nil => simp [tokensOfFields]
  | cons f fs ih => simp [tokensOfFields, ih]

theorem elementTokens_concat (es : List Json) (j : Json) :
    elementTokens (es ++ [j]) = elementsThen es ++ tokens j := by
  cases es with
  | nil => simp [elementTokens, elementsThen, tokensOfElements]
  | cons e es => simp [elementTokens, elementsThen, tokensOfElements_concat]

theorem fieldTokens_concat (fs : List (String × Json)) (k : String) (j : Json) :
    fieldTokens (fs ++ [(k, j)]) = fieldsThen fs ++ .text k :: .colon :: tokens j := by
  cases fs with
  | nil => simp [fieldTokens, fieldsThen, tokensOfFields]
  | cons f fs => simp [fieldTokens, fieldsThen, tokensOfFields_concat]

def Frame.tokens : Frame → List Token
  | .element before => .openList :: elementsThen before
  | .field before k => .openObject :: fieldsThen before ++ [.text k, .colon]

def stackTokens (stack : List Frame) : List Token :=
  stack.reverse.flatMap Frame.tokens

theorem stackTokens_cons (frame : Frame) (stack : List Frame) :
    stackTokens (frame :: stack) = stackTokens stack ++ frame.tokens := by
  simp [stackTokens]

namespace State

/-- All tokens that were read on the way to a state. -/
def sofar : State → List Token
  | .value stack => stackTokens stack
  | .firstElement stack => stackTokens stack ++ [.openList]
  | .afterElement es stack => stackTokens stack ++ .openList :: elementTokens es
  | .firstField stack => stackTokens stack ++ [.openObject]
  | .key fs stack => stackTokens stack ++ .openObject :: fieldsThen fs
  | .afterKey fs k stack => stackTokens stack ++ .openObject :: fieldsThen fs ++ [.text k]
  | .afterField fs stack => stackTokens stack ++ .openObject :: fieldTokens fs
  | .finished j => tokens j

/-- Behind an element or a field there is one. -/
def Proper : State → Prop
  | .afterElement es _ => es ≠ []
  | .afterField fs _ => fs ≠ []
  | _ => True

theorem deliver_sofar (j : Json) (stack : List Frame) :
    (deliver j stack).sofar = stackTokens stack ++ tokens j ∧ (deliver j stack).Proper := by
  cases stack with
  | nil => exact ⟨rfl, trivial⟩
  | cons frame stack =>
    rw [stackTokens_cons]
    cases frame with
    | element before =>
      refine ⟨?_, List.concat_ne_nil _ _⟩
      rw [deliver, sofar, elementTokens_concat, Frame.tokens]
      simp
    | field before k =>
      refine ⟨?_, List.concat_ne_nil _ _⟩
      rw [deliver, sofar, fieldTokens_concat, Frame.tokens]
      simp

theorem startValue_sofar {stack : List Frame} {t : Token} {s : State}
    (h : startValue stack t = some s) : s.sofar = stackTokens stack ++ [t] ∧ s.Proper := by
  unfold startValue at h
  split at h
  · cases h
    exact deliver_sofar _ stack
  · cases h
    exact ⟨rfl, trivial⟩
  · cases h
    exact ⟨rfl, trivial⟩
  · cases h

/-- A step reads one token. -/
theorem step_sofar {s s' : State} {t : Token} (hproper : s.Proper) (h : s.step t = some s') :
    s'.sofar = s.sofar ++ [t] ∧ s'.Proper := by
  cases s with
  | value stack => exact startValue_sofar h
  | firstElement stack =>
    unfold step at h
    dsimp only at h
    split at h
    next hclose =>
      cases h
      subst hclose
      obtain ⟨hsofar, hproper'⟩ := deliver_sofar (.arr []) stack
      refine ⟨?_, hproper'⟩
      rw [hsofar, sofar, tokens_arr]
      simp [elementTokens]
    next =>
      obtain ⟨hsofar, hproper'⟩ := startValue_sofar h
      refine ⟨?_, hproper'⟩
      rw [hsofar, stackTokens_cons, sofar]
      simp [Frame.tokens, elementsThen]
  | afterElement es stack =>
    unfold step at h
    dsimp only at h
    split at h
    · cases h
      refine ⟨?_, trivial⟩
      rw [sofar, sofar, stackTokens_cons, Frame.tokens, elementsThen, if_neg hproper]
      simp
    · cases h
      obtain ⟨hsofar, hproper'⟩ := deliver_sofar (.arr es) stack
      refine ⟨?_, hproper'⟩
      rw [hsofar, sofar, tokens_arr]
      simp
    · cases h
  | firstField stack =>
    unfold step at h
    dsimp only at h
    split at h
    · cases h
      obtain ⟨hsofar, hproper'⟩ := deliver_sofar (.obj []) stack
      refine ⟨?_, hproper'⟩
      rw [hsofar, sofar, tokens_obj]
      simp [fieldTokens]
    · cases h
      exact ⟨by simp [sofar, fieldsThen], trivial⟩
    · cases h
  | key fs stack =>
    unfold step at h
    dsimp only at h
    split at h
    · cases h
      exact ⟨by simp [sofar], trivial⟩
    · cases h
  | afterKey fs k stack =>
    unfold step at h
    dsimp only at h
    split at h
    · cases h
      refine ⟨?_, trivial⟩
      rw [sofar, sofar, stackTokens_cons, Frame.tokens]
      simp
    · cases h
  | afterField fs stack =>
    unfold step at h
    dsimp only at h
    split at h
    · cases h
      exact ⟨by simp [sofar, fieldsThen, show fs ≠ [] from hproper], trivial⟩
    · cases h
      obtain ⟨hsofar, hproper'⟩ := deliver_sofar (.obj fs) stack
      refine ⟨?_, hproper'⟩
      rw [hsofar, sofar, tokens_obj]
      simp
    · cases h
  | finished j => cases h

theorem foldlM_sofar {s s' : State} {ts : List Token} (hproper : s.Proper)
    (h : ts.foldlM step s = some s') : s'.sofar = s.sofar ++ ts := by
  induction ts generalizing s with
  | nil =>
    cases h
    exact (List.append_nil _).symm
  | cons t ts ih =>
    rw [List.foldlM_cons] at h
    obtain ⟨s₁, hstep, hrest⟩ := Option.bind_eq_some_iff.mp h
    obtain ⟨hsofar, hproper₁⟩ := step_sofar hproper hstep
    rw [ih hproper₁ hrest, hsofar, List.append_assoc]
    rfl

end State

/-- A text is read as a value if and only if it is one of the value's texts. -/
theorem read_eq_some_iff {text : String} {j : Json} : read text = some j ↔ IsTextOf text j := by
  unfold read IsTextOf
  constructor
  · intro h
    obtain ⟨ts, hts, hread⟩ := Option.bind_eq_some_iff.mp h
    split at hread
    next j' hfold =>
      obtain rfl := Option.some.inj hread
      have hsofar := State.foldlM_sofar (s := .value []) trivial hfold
      rw [State.sofar, State.sofar] at hsofar
      rw [hsofar]
      exact tokens?_eq_some_iff.mp hts
    next => cases hread
  · intro h
    rw [tokens?_eq_some_iff.mpr h, Option.bind_eq_bind, Option.bind_some, foldlM_tokens]
    rfl

end VirtBoard.Json
