import VirtBoard.DeviceTree.Merge

/-!
# Merged texts

What the merge of several sources is, as a text: each source ends its last line, and one without any
text adds nothing, unless it is the first.  So no line of one source runs on into the next, and what
was merged can be merged further.
-/

namespace VirtBoard.DeviceTree

/-! ## 1. Ended lines -/

/-- The last line of a text has its line feed. -/
abbrev EndsLine (s : String) : Prop :=
  s.toList.getLast? = some '\n'

theorem endLine_of_ends {s : String} (h : s.toList.getLast? = some '\n') : endLine s = s :=
  if_pos h

theorem endLine_ends (s : String) : (endLine s).toList.getLast? = some '\n' := by
  unfold endLine
  split
  next h => exact h
  next => rw [String.toList_append]; exact List.getLast?_concat

theorem getLast?_toList_append {s t : String} (ht : t ≠ "") :
    (s ++ t).toList.getLast? = t.toList.getLast? := by
  have hne : t.toList ≠ [] := fun h => ht (String.toList_eq_nil_iff.mp h)
  rw [String.toList_append, List.getLast?_append, List.getLast?_eq_some_getLast hne]
  rfl

theorem endLine_append {s t : String} (ht : t ≠ "") : endLine (s ++ t) = s ++ endLine t := by
  unfold endLine
  rw [getLast?_toList_append ht]
  split
  · rfl
  · exact String.append_assoc

/-! ## 2. The merged text in closed form -/

theorem foldl_addSource {merged : String} (h : merged.toList.getLast? = some '\n')
    (texts : List String) :
    texts.foldl addSource merged =
      merged ++ String.join ((texts.filter (· ≠ "")).map endLine) := by
  induction texts generalizing merged with
  | nil => simp
  | cons text texts ih =>
    rw [List.foldl_cons]
    by_cases ht : text = ""
    · have hsame : addSource merged text = merged := by
        rw [addSource, ht, String.append_empty, endLine_of_ends h]
      rw [hsame, ih h, List.filter_cons_of_neg (by simpa using ht)]
    · have hadd : addSource merged text = merged ++ endLine text := endLine_append ht
      rw [hadd, ih, List.filter_cons_of_pos (by simpa using ht), List.map_cons, String.join_cons,
        String.append_assoc]
      rw [← endLine_append ht]
      exact endLine_ends _

/-- The sources in order, each on lines of its own; one without any text adds none. -/
theorem mergeTexts_cons (source : String) (texts : List String) :
    mergeTexts (source :: texts) =
      endLine source ++ String.join ((texts.filter (· ≠ "")).map endLine) := by
  have hfirst : addSource "" source = endLine source := by
    rw [addSource, String.empty_append]
  rw [mergeTexts, List.foldl_cons, hfirst, foldl_addSource (endLine_ends source)]

/-- A merged text ends its last line, if there was anything to merge. -/
theorem mergeTexts_ends {texts : List String} (h : texts ≠ []) : EndsLine (mergeTexts texts) := by
  rw [← List.dropLast_concat_getLast h, mergeTexts, List.foldl_append]
  exact endLine_ends _

/-- Merging can go on from what was merged so far. -/
theorem mergeTexts_append {first : List String} (h : first ≠ []) (rest : List String) :
    mergeTexts (mergeTexts first :: rest) = mergeTexts (first ++ rest) := by
  have hfirst : addSource "" (mergeTexts first) = mergeTexts first := by
    rw [addSource, String.empty_append, endLine_of_ends (mergeTexts_ends h)]
  rw [mergeTexts, List.foldl_cons, hfirst]
  exact List.foldl_append.symm

/-! ## 3. The pieces of a merged text -/

/-- What a source becomes behind a text. -/
def pieceAfter (before text : String) : String :=
  if EndsLine (before ++ text) then text else text ++ "\n"

theorem addSource_eq (before text : String) :
    addSource before text = before ++ pieceAfter before text := by
  unfold addSource endLine pieceAfter
  split
  · rfl
  · exact String.append_assoc

def piecesAfter (before : String) : List String → List String
  | [] => []
  | text :: texts =>
    pieceAfter before text :: piecesAfter (before ++ pieceAfter before text) texts

theorem foldl_addSource_eq (before : String) (texts : List String) :
    texts.foldl addSource before = before ++ String.join (piecesAfter before texts) := by
  induction texts generalizing before with
  | nil => simp [piecesAfter]
  | cons text texts ih =>
    rw [List.foldl_cons, addSource_eq, ih, piecesAfter, String.join_cons, String.append_assoc]

theorem length_piecesAfter (before : String) (texts : List String) :
    (piecesAfter before texts).length = texts.length := by
  induction texts generalizing before with
  | nil => rfl
  | cons text texts ih => rw [piecesAfter, List.length_cons, ih, List.length_cons]

-- A piece depends on its source and on all that stands before it.
theorem getElem?_piecesAfter (before : String) (texts : List String) (k : Nat) :
    (piecesAfter before texts)[k]? =
      texts[k]?.map (pieceAfter (before ++ String.join ((piecesAfter before texts).take k))) := by
  induction texts generalizing before k with
  | nil => rfl
  | cons text texts ih =>
    cases k with
    | zero => simp [piecesAfter]
    | succ k =>
      rw [piecesAfter, List.getElem?_cons_succ, ih, List.getElem?_cons_succ, List.take_succ_cons,
        String.join_cons, String.append_assoc]

/-- How the sources stand in a merged text, one piece for each of them. -/
structure Pieces (texts pieces : List String) : Prop where
  length : pieces.length = texts.length
  /-- A source is kept whole, and gets a line feed exactly if the text up to its end has none. -/
  piece : ∀ (k : Nat) (text : String), texts[k]? = some text → pieces[k]? = some
    (if EndsLine (String.join (pieces.take k) ++ text) then text else text ++ "\n")
  /-- Whether a source with a text gets a line feed depends on its own end only. -/
  ofText : ∀ (k : Nat) (text : String), texts[k]? = some text → text ≠ "" →
    pieces[k]? = some (if EndsLine text then text else text ++ "\n")
  /-- One without a text gets a line feed only as the first of all. -/
  ofEmpty : ∀ k : Nat, texts[k]? = some "" → pieces[k]? = some (if k = 0 then "\n" else "")
  /-- Behind every piece a new line begins. -/
  ends : ∀ k < texts.length, EndsLine (String.join (pieces.take (k + 1)))

theorem ends_piecesAfter (before : String) {texts : List String} {k : Nat} (h : k < texts.length) :
    EndsLine (before ++ String.join ((piecesAfter before texts).take (k + 1))) := by
  have hpiece := getElem?_piecesAfter before texts k
  rw [List.getElem?_eq_getElem h, Option.map_some] at hpiece
  rw [List.take_add_one, hpiece, Option.toList_some, String.join_append, String.join_cons,
    String.join_nil, String.append_empty, ← String.append_assoc, ← addSource_eq]
  exact endLine_ends _

theorem pieces_piecesAfter (texts : List String) : Pieces texts (piecesAfter "" texts) := by
  have hpiece : ∀ k text, texts[k]? = some text → (piecesAfter "" texts)[k]? =
      some (pieceAfter (String.join ((piecesAfter "" texts).take k)) text) := by
    intro k text htext
    rw [getElem?_piecesAfter, htext, String.empty_append]
    rfl
  have hends : ∀ k < texts.length,
      EndsLine (String.join ((piecesAfter "" texts).take (k + 1))) := by
    intro k hk
    have hend := ends_piecesAfter "" hk
    rwa [String.empty_append] at hend
  refine ⟨length_piecesAfter "" texts, hpiece, fun k text htext hne => ?_, fun k hempty => ?_,
    hends⟩
  · rw [hpiece k text htext]
    simp only [pieceAfter, EndsLine, getLast?_toList_append hne]
  · rw [hpiece k "" hempty, pieceAfter, String.append_empty]
    cases k with
    | zero => rfl
    | succ k =>
      have hk : k + 1 < texts.length := (List.getElem?_eq_some_iff.mp hempty).1
      rw [if_pos (hends k (Nat.lt_of_succ_lt hk))]
      rfl

theorem mergeTexts_eq_join (texts : List String) :
    mergeTexts texts = String.join (piecesAfter "" texts) := by
  rw [mergeTexts, foldl_addSource_eq, String.empty_append]

/-! ## 4. The lines of a merged text -/

/-- The lines of a text, of which the last one need not have a line feed. -/
def lines : List Char → List (List Char)
  | [] => []
  | c :: s =>
    if c = '\n' then [] :: lines s
    else
      match lines s with
      | [] => [[c]]
      | l :: ls => (c :: l) :: ls

theorem lines_ne_nil {s : List Char} (h : s ≠ []) : lines s ≠ [] := by
  cases s with
  | nil => exact absurd rfl h
  | cons c s =>
    rw [lines]
    split
    · exact List.cons_ne_nil _ _
    · split <;> exact List.cons_ne_nil _ _

theorem lines_append {s : List Char} (h : s.getLast? = some '\n') (t : List Char) :
    lines (s ++ t) = lines s ++ lines t := by
  induction s with
  | nil => cases h
  | cons c s ih =>
    rw [List.cons_append, lines, lines]
    cases s with
    | nil =>
      obtain rfl := Option.some.inj h
      rfl
    | cons d s =>
      rw [ih h]
      split
      · rfl
      · -- The rest is not at its end, so it has a first line, which the character begins.
        obtain ⟨l, ls, hlines⟩ := List.exists_cons_of_ne_nil (lines_ne_nil (List.cons_ne_nil d s))
        rw [hlines]
        rfl

theorem lines_concat {s : List Char} (hne : s ≠ []) (h : s.getLast? ≠ some '\n') :
    lines (s ++ ['\n']) = lines s := by
  induction s with
  | nil => exact absurd rfl hne
  | cons c s ih =>
    rw [List.cons_append, lines, lines]
    cases s with
    | nil =>
      have hc : c ≠ '\n' := fun hc => h (congrArg some hc)
      rw [if_neg hc, if_neg hc]
      rfl
    | cons d s => rw [ih (List.cons_ne_nil d s) h]

theorem lines_endLine {s : String} (h : s ≠ "") : lines (endLine s).toList = lines s.toList := by
  unfold endLine
  split
  · rfl
  next hend =>
    rw [String.toList_append]
    exact lines_concat (fun he => h (String.toList_eq_nil_iff.mp he)) hend

theorem lines_join_endLine (texts : List String) :
    lines (String.join ((texts.filter (· ≠ "")).map endLine)).toList =
      texts.flatMap fun text => lines text.toList := by
  induction texts with
  | nil => rfl
  | cons text texts ih =>
    rw [List.flatMap_cons, ← ih]
    by_cases ht : text = ""
    · rw [List.filter_cons_of_neg (by simpa using ht), ht]
      rfl
    · rw [List.filter_cons_of_pos (by simpa using ht), List.map_cons, String.join_cons,
        String.toList_append, lines_append (endLine_ends text), lines_endLine ht]

/-- The lines of a merged text are those of the sources, in order; a first source without any text
makes an empty line. -/
theorem lines_mergeTexts (texts : List String) :
    lines (mergeTexts texts).toList =
      (if texts.head? = some "" then [[]] else []) ++
        texts.flatMap fun text => lines text.toList := by
  cases texts with
  | nil => rfl
  | cons text texts =>
    rw [mergeTexts_cons, String.toList_append, lines_append (endLine_ends text),
      lines_join_endLine, List.flatMap_cons, ← List.append_assoc]
    congr 1
    by_cases ht : text = ""
    · rw [ht]
      rfl
    · rw [lines_endLine ht, List.head?_cons, if_neg fun he => ht (Option.some.inj he)]
      rfl

end VirtBoard.DeviceTree
