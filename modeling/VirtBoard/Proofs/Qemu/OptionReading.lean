import VirtBoard.Qemu.OptionString

/-!
# Reading option strings

How the emulator takes an option string apart: from left to right, two commas are one literal comma,
a single comma ends a piece, and the first `=` of a piece ends its key.  A string made of properties
reads as exactly these properties, whatever commas and equals signs their values hold: the commas of
a value come in pairs, so the comma behind it is always seen as a single one.  A value whose commas
were not doubled reads as itself only if it has none; otherwise it spills into further properties.
-/

namespace VirtBoard.Qemu

namespace OptionString

/-! ## 1. The reader -/

/-- Puts a character in front of the first piece. -/
def push (c : Char) : List (List Char) → List (List Char)
  | [] => [[c]]
  | p :: ps => (c :: p) :: ps

/-- The pieces of an option string, their double commas undone. -/
def pieces : List Char → List (List Char)
  | [] => []
  | ',' :: ',' :: s => push ',' (pieces s)
  | ',' :: s => [] :: pieces s
  | c :: s => push c (pieces s)

/-- What a piece says: a key and a value around its first `=`, or a word. -/
def property (piece : List Char) : Property :=
  match piece.dropWhile (· ≠ '=') with
  | [] => .word (String.ofList piece)
  | _ :: value => .pair (String.ofList (piece.takeWhile (· ≠ '='))) (String.ofList value)

/-- The properties that an option string spells. -/
def read (s : String) : List Property :=
  (pieces s.toList).map property

/-! ## 2. Pieces of an escaped text -/

theorem pieces_comma {s : List Char} (h : s.head? ≠ some ',') :
    pieces (',' :: s) = [] :: pieces s := by
  cases s with
  | nil => rfl
  | cons c s =>
    have hc : c ≠ ',' := fun he => h (by rw [he]; rfl)
    rw [pieces]
    intro s' he
    exact hc (List.cons.inj he).1

theorem pieces_cons {c : Char} (h : c ≠ ',') (s : List Char) :
    pieces (c :: s) = push c (pieces s) := by
  rw [pieces]
  · intro s' he _
    exact h he
  · intro he
    exact h he

-- An escaped text goes into the first piece of what follows it, whatever that is.
theorem pieces_escape_append (s t : List Char) :
    pieces (escape s ++ t) = s.foldr push (pieces t) := by
  induction s with
  | nil => rfl
  | cons c s ih =>
    rw [List.foldr_cons, ← ih]
    by_cases hc : c = ','
    · subst hc
      rfl
    · have he : escape (c :: s) = c :: escape s := by
        simp only [escape, List.flatMap_cons, hc, ↓reduceIte, List.singleton_append]
      rw [he, List.cons_append, pieces_cons hc]

theorem foldr_push_cons (s p : List Char) (ps : List (List Char)) :
    s.foldr push (p :: ps) = (s ++ p) :: ps := by
  induction s with
  | nil => rfl
  | cons c s ih => rw [List.foldr_cons, ih]; rfl

theorem foldr_push_nil {s : List Char} (h : s ≠ []) : s.foldr push [] = [s] := by
  obtain ⟨init, c, rfl⟩ := List.eq_nil_or_concat s |>.resolve_left h
  rw [List.concat_eq_append, List.foldr_append]
  exact foldr_push_cons init [c] []

theorem head?_escape (s t : List Char) (hs : s ≠ []) :
    (escape s ++ t).head? = s.head? := by
  cases s with
  | nil => exact absurd rfl hs
  | cons c s =>
    by_cases hc : c = ','
    · subst hc
      rfl
    · simp [escape, hc]

/-- A comma ends an escaped text unless another comma follows. -/
theorem pieces_escape_comma (s : List Char) {t : List Char} (h : t.head? ≠ some ',') :
    pieces (escape s ++ ',' :: t) = s :: pieces t := by
  rw [pieces_escape_append, pieces_comma h, foldr_push_cons, List.append_nil]

theorem head?_intercalate {s : List Char} (hs : s ≠ []) (ss : List (List Char)) (t : List Char) :
    (List.intercalate [','] ((s :: ss).map escape) ++ t).head? = s.head? := by
  cases ss with
  | nil => rw [List.map_singleton, List.intercalate_singleton, head?_escape s t hs]
  | cons u us =>
    rw [List.map_cons, List.map_cons, List.intercalate_cons_cons, List.append_assoc,
      List.append_assoc, head?_escape s _ hs]

/-- Texts that are not empty and do not begin with a comma can be told apart again after they were
escaped and joined. -/
theorem pieces_intercalate (ss : List (List Char))
    (h : ∀ s ∈ ss, s ≠ [] ∧ s.head? ≠ some ',') :
    pieces (List.intercalate [','] (ss.map escape)) = ss := by
  induction ss with
  | nil => rfl
  | cons s ss ih =>
    have hs := h s List.mem_cons_self
    have ih := ih fun t ht => h t (List.mem_cons_of_mem s ht)
    cases ss with
    | nil =>
      rw [List.map_singleton, List.intercalate_singleton, ← List.append_nil (escape s),
        pieces_escape_append, show pieces [] = [] from rfl, foldr_push_nil hs.1]
    | cons t ss =>
      have ht := h t (List.mem_cons_of_mem s List.mem_cons_self)
      -- The separator is single because the next text does not begin with a comma.
      have hnext : (List.intercalate [','] ((t :: ss).map escape)).head? ≠ some ',' := by
        rw [← List.append_nil (List.intercalate _ _), head?_intercalate ht.1]
        exact ht.2
      rw [List.map_cons, List.map_cons, List.intercalate_cons_cons, List.append_assoc,
        List.singleton_append, ← List.map_cons, pieces_escape_comma s hnext, ih]

/-- The same with one more text behind them, which is read by itself. -/
theorem pieces_intercalate_append {ss : List (List Char)} (hne : ss ≠ [])
    (h : ∀ s ∈ ss, s ≠ [] ∧ s.head? ≠ some ',') {t : List Char} (ht : t.head? ≠ some ',') :
    pieces (List.intercalate [','] (ss.map escape) ++ ',' :: t) = ss ++ pieces t := by
  induction ss with
  | nil => exact absurd rfl hne
  | cons s ss ih =>
    cases ss with
    | nil =>
      rw [List.map_singleton, List.intercalate_singleton, pieces_escape_comma s ht,
        List.singleton_append]
    | cons u us =>
      have hu := h u (List.mem_cons_of_mem s List.mem_cons_self)
      have hnext : (List.intercalate [','] ((u :: us).map escape) ++ ',' :: t).head? ≠
          some ',' := by
        rw [head?_intercalate hu.1]
        exact hu.2
      have ih := ih (List.cons_ne_nil u us) fun x hx => h x (List.mem_cons_of_mem s hx)
      calc pieces (List.intercalate [','] ((s :: u :: us).map escape) ++ ',' :: t)
          _ = pieces (escape s ++
                ',' :: (List.intercalate [','] ((u :: us).map escape) ++ ',' :: t)) := by
            simp only [List.map_cons, List.intercalate_cons_cons, List.append_assoc,
              List.cons_append, List.nil_append]
          _ = s :: (u :: us ++ pieces t) := by rw [pieces_escape_comma s hnext, ih]

/-! ## 3. Reading what was made of properties -/

/-- A text that can be the key of a property. -/
def IsKey (k : String) : Prop :=
  '=' ∉ k.toList ∧ k.toList.head? ≠ some ','

instance (k : String) : Decidable (IsKey k) :=
  inferInstanceAs (Decidable (_ ∧ _))

/-- A property that can be told from its neighbours: what stands before the first `=` is fixed by
the program, and all user text is in values. -/
def Readable : Property → Prop
  | .word w => IsKey w ∧ w ≠ ""
  | .pair k _ => IsKey k

instance : DecidablePred Readable
  | .word _ => inferInstanceAs (Decidable (_ ∧ _))
  | .pair _ _ => inferInstanceAs (Decidable (IsKey _))

@[simp] theorem readable_word (w : String) : Readable (.word w) ↔ IsKey w ∧ w ≠ "" :=
  Iff.rfl

@[simp] theorem readable_pair (k v : String) : Readable (.pair k v) ↔ IsKey k :=
  Iff.rfl

theorem dropWhile_key {k : List Char} (h : '=' ∉ k) (t : List Char) :
    (k ++ t).dropWhile (· ≠ '=') = t.dropWhile (· ≠ '=') := by
  induction k with
  | nil => rfl
  | cons c k ih =>
    have hc : c ≠ '=' := fun he => h (he ▸ List.mem_cons_self)
    rw [List.cons_append, List.dropWhile_cons_of_pos (by simpa using hc)]
    exact ih fun hk => h (List.mem_cons_of_mem c hk)

theorem takeWhile_key {k : List Char} (h : '=' ∉ k) (t : List Char) :
    (k ++ t).takeWhile (· ≠ '=') = k ++ t.takeWhile (· ≠ '=') := by
  induction k with
  | nil => rfl
  | cons c k ih =>
    have hc : c ≠ '=' := fun he => h (he ▸ List.mem_cons_self)
    rw [List.cons_append, List.takeWhile_cons_of_pos (by simpa using hc), List.cons_append]
    rw [ih fun hk => h (List.mem_cons_of_mem c hk)]

theorem property_plain {p : Property} (h : Readable p) : property (plain p) = p := by
  cases p with
  | word w =>
    have hd := dropWhile_key h.1.1 []
    rw [List.append_nil] at hd
    simp only [property, plain, hd, List.dropWhile_nil, String.ofList_toList]
  | pair k v =>
    have hk : '=' ∉ k.toList := h.1
    simp only [property, plain, dropWhile_key hk, takeWhile_key hk]
    simp

theorem plain_ne_nil {p : Property} (h : Readable p) :
    plain p ≠ [] ∧ (plain p).head? ≠ some ',' := by
  cases p with
  | word w => exact ⟨fun he => h.2 (String.toList_eq_nil_iff.mp he), h.1.2⟩
  | pair k v =>
    refine ⟨by simp [plain], ?_⟩
    have hk : k.toList.head? ≠ some ',' := h.2
    cases hl : k.toList with
    | nil => simp [plain, hl]
    | cons c s =>
      rw [hl] at hk
      simpa [plain, hl] using hk

theorem map_property_plain {ps : List Property} (h : ∀ p ∈ ps, Readable p) :
    (ps.map plain).map property = ps := by
  rw [List.map_map]
  calc ps.map (property ∘ plain)
      _ = ps.map id := List.map_congr_left fun p hm => property_plain (h p hm)
      _ = ps := List.map_id ps

theorem forall_plain {ps : List Property} (h : ∀ p ∈ ps, Readable p) :
    ∀ s ∈ ps.map plain, s ≠ [] ∧ s.head? ≠ some ',' := by
  intro s hs
  obtain ⟨p, hm, rfl⟩ := List.mem_map.mp hs
  exact plain_ne_nil (h p hm)

theorem toList_ofProperties (ps : List Property) :
    (ofProperties ps).toList = List.intercalate [','] ((ps.map plain).map escape) := by
  rw [ofProperties, String.toList_ofList, List.map_map]
  rfl

/-- An option string reads as the properties it was made of. -/
theorem read_ofProperties {ps : List Property} (h : ∀ p ∈ ps, Readable p) :
    read (ofProperties ps) = ps := by
  rw [read, toList_ofProperties, pieces_intercalate _ (forall_plain h), map_property_plain h]

/-- A value that ends in three commas stays in its property. -/
example : read (ofProperties [.pair "file" "a,=,,,", .pair "id" "x"]) =
    [.pair "file" "a,=,,,", .pair "id" "x"] := by decide

/-! ## 4. Values whose commas were not doubled -/

theorem escape_eq_self {s : List Char} (h : ',' ∉ s) : escape s = s := by
  induction s with
  | nil => rfl
  | cons c s ih =>
    have hc : c ≠ ',' := fun he => h (he ▸ List.mem_cons_self)
    have hs : ',' ∉ s := fun hm => h (List.mem_cons_of_mem c hm)
    rw [escape, List.flatMap_cons, if_neg hc, List.singleton_append]
    exact congrArg (c :: ·) (ih hs)

/-- What a value adds to the properties in front of it when its commas are not doubled: it ends at
its first single comma, and each piece behind that is a property of its own. -/
def spill (k v : String) : List Property :=
  .pair k (String.ofList ((pieces v.toList).headD [])) ::
    (pieces v.toList).tail.map property

theorem pieces_key_append {k : List Char} (hk : ',' ∉ k) (v : List Char) :
    pieces (k ++ '=' :: v) = (k ++ '=' :: (pieces v).headD []) :: (pieces v).tail := by
  have hke : ',' ∉ k ++ ['='] := by simp [hk]
  have hsplit : k ++ '=' :: v = escape (k ++ ['=']) ++ v := by
    rw [escape_eq_self hke, List.append_assoc, List.singleton_append]
  rw [hsplit, pieces_escape_append]
  cases hp : pieces v with
  | nil => 
    rw [foldr_push_nil (by simp)]
    rfl
  | cons p ps =>
    rw [foldr_push_cons, List.append_assoc, List.singleton_append]
    rfl

theorem read_spill {ps : List Property} (hne : ps ≠ []) (h : ∀ p ∈ ps, Readable p) {k : String}
    (hk : IsKey k) (hc : ',' ∉ k.toList) (v : String) :
    read (ofProperties ps ++ "," ++ k ++ "=" ++ v) = ps ++ spill k v := by
  have hcomma : ",".toList = [','] := by decide
  have hequals : "=".toList = ['='] := by decide
  have hhead : (k.toList ++ '=' :: v.toList).head? ≠ some ',' :=
    (plain_ne_nil (p := .pair k v) hk).2
  have htext : (ofProperties ps ++ "," ++ k ++ "=" ++ v).toList =
      List.intercalate [','] ((ps.map plain).map escape) ++ ',' :: (k.toList ++ '=' :: v.toList) := by
    simp only [String.toList_append, hcomma, hequals, toList_ofProperties, List.append_assoc,
      List.cons_append, List.nil_append]
  have hproperty (p : List Char) :
      property (k.toList ++ '=' :: p) = .pair k (String.ofList p) := by
    have hp := property_plain (p := .pair k (String.ofList p)) hk
    rwa [plain, String.toList_ofList] at hp
  rw [read, htext, pieces_intercalate_append (by simpa using hne) (forall_plain h) hhead,
    pieces_key_append hc, List.map_append, map_property_plain h, List.map_cons, hproperty, spill]

theorem length_headD_push (c : Char) (ps : List (List Char)) :
    ((push c ps).headD []).length = (ps.headD []).length + 1 := by
  cases ps <;> rfl

theorem length_headD_pieces (s : List Char) : ((pieces s).headD []).length ≤ s.length := by
  fun_induction pieces s with
  | case1 => exact Nat.le_refl 0
  | case2 s ih => rw [length_headD_push, List.length_cons, List.length_cons]; omega
  | case3 s => exact Nat.zero_le _
  | case4 c s _ _ ih => rw [length_headD_push, List.length_cons]; omega

/-- A text with a comma in it is longer than what is read of it before the first single comma. -/
theorem length_headD_pieces_lt {s : List Char} (h : ',' ∈ s) :
    ((pieces s).headD []).length < s.length := by
  fun_induction pieces s with
  | case1 => cases h
  | case2 s =>
    have hle := length_headD_pieces s
    rw [length_headD_push, List.length_cons, List.length_cons]
    omega
  | case3 s => exact Nat.zero_lt_succ _
  | case4 c s _ hc ih =>
    have hs : ',' ∈ s := (List.mem_cons.mp h).resolve_left fun he => hc he.symm
    have hlt := ih hs
    rw [length_headD_push, List.length_cons]
    omega

theorem pieces_of_no_comma {s : List Char} (h : ',' ∉ s) :
    pieces s = if s = [] then [] else [s] := by
  have hs := pieces_escape_append s []
  rw [escape_eq_self h, List.append_nil] at hs
  rw [hs]
  split
  · next he => rw [he]; rfl
  · next hne => exact foldr_push_nil hne

theorem spill_eq_iff (k v : String) : spill k v = [.pair k v] ↔ ',' ∉ v.toList := by
  constructor
  · intro h hc
    have hhead : String.ofList ((pieces v.toList).headD []) = v := by
      injection (List.cons.inj h).1
    have hlt := length_headD_pieces_lt hc
    rw [← String.toList_ofList (l := (pieces v.toList).headD []), hhead] at hlt
    exact Nat.lt_irrefl _ hlt
  · intro hc
    rw [spill, pieces_of_no_comma hc]
    split
    · next he => simp [String.toList_eq_nil_iff.mp he]
    · simp

end OptionString

end VirtBoard.Qemu
