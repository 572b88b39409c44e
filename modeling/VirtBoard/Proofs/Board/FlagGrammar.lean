import VirtBoard.Board.Flags

/-!
# The grammar of the board flags

A token list falls in exactly one way into items and tokens that mean nothing, with at most a flag
at its end whose value is missing.  What the list means is said by its items alone: the leftmost
number that cannot be read is the error, a missing value is the error if all numbers can be read, and
otherwise each flag has the last value that it was given, and the overlays add up.
-/

namespace VirtBoard.Board

/-! ## 1. Tokens of the flags -/

namespace Flag

/-- The token that spells a flag. -/
def token : Flag → String
  | .switch s => "-" ++ s.name
  | .value f => "-" ++ f.name

theorem ofToken?_eq_some_iff {t : String} {flag : Flag} :
    ofToken? t = some flag ↔ t = flag.token := by
  constructor
  · intro h
    have hmem : (t, flag) ∈ table := by
      obtain ⟨before, after, htable, -⟩ := List.lookup_eq_some_iff.mp h
      rw [htable]
      exact List.mem_append_right before List.mem_cons_self
    have hall : ∀ e ∈ table, e.1 = e.2.token := by decide
    exact hall _ hmem
  · rintro rfl
    cases flag with
    | switch s => cases s <;> decide
    | value f => cases f <;> decide

theorem ofToken?_token (flag : Flag) : ofToken? flag.token = some flag :=
  ofToken?_eq_some_iff.mpr rfl

theorem ofToken?_eq_none_iff {t : String} : ofToken? t = none ↔ ∀ flag : Flag, t ≠ flag.token := by
  simp only [ne_eq, ← ofToken?_eq_some_iff, Option.eq_none_iff_forall_ne_some]

theorem token_inj {flag flag' : Flag} (h : flag.token = flag'.token) : flag = flag' := by
  have hflag := ofToken?_token flag
  rw [h, ofToken?_token] at hflag
  exact (Option.some.inj hflag).symm

end Flag

theorem Switch.name_inj {s s' : Switch} (h : s.name = s'.name) : s = s' :=
  Flag.switch.inj (Flag.token_inj (congrArg ("-" ++ ·) h))

theorem ValueFlag.name_inj {f f' : ValueFlag} (h : f.name = f'.name) : f = f' :=
  Flag.value.inj (Flag.token_inj (congrArg ("-" ++ ·) h))

def Item.tokens : Item → List String
  | .switch s => [Flag.token (.switch s)]
  | .setting f value => [Flag.token (.value f), value]

/-! ## 2. Parts of a token list -/

inductive Part where
  | item (i : Item)
  /-- A token that means nothing. -/
  | skipped (token : String)
deriving DecidableEq

namespace Part

def tokens : Part → List String
  | .item i => i.tokens
  | .skipped t => [t]

def item? : Part → Option Item
  | .item i => some i
  | .skipped _ => none

/-- The items among some parts. -/
def items (parts : List Part) : List Item :=
  parts.filterMap item?

end Part

/-- The parts are a cut of the token list: their tokens are the whole list, but for a flag at its
end whose value is missing, and no token is skipped that spells a flag. -/
structure IsCut (tokens : List String) (parts : List Part) (dangling : Option ValueFlag) :
    Prop where
  tokens_eq :
    tokens = parts.flatMap Part.tokens ++ (dangling.map fun f => Flag.token (.value f)).toList
  skipped : ∀ t, .skipped t ∈ parts → ∀ flag : Flag, t ≠ flag.token

section IsCut

variable {tokens rest : List String} {t value : String} {parts : List Part} {part : Part}
  {dangling : Option ValueFlag}

theorem isCut_nil :
    IsCut tokens [] dangling ↔ tokens = (dangling.map fun f => Flag.token (.value f)).toList :=
  ⟨fun h => h.tokens_eq, fun h => ⟨h, fun _ ht => absurd ht List.not_mem_nil⟩⟩

theorem isCut_cons :
    IsCut tokens (part :: parts) dangling ↔
      (∀ t, part = .skipped t → Flag.ofToken? t = none) ∧
        ∃ rest, tokens = part.tokens ++ rest ∧ IsCut rest parts dangling := by
  constructor
  · rintro ⟨htokens, hskipped⟩
    rw [List.flatMap_cons, List.append_assoc] at htokens
    refine ⟨fun t ht => Flag.ofToken?_eq_none_iff.mpr ?_, _, htokens, rfl, fun t ht => ?_⟩
    · exact hskipped t (ht ▸ List.mem_cons_self)
    · exact hskipped t (List.mem_cons_of_mem part ht)
  · rintro ⟨hpart, rest, rfl, hrest, hskipped⟩
    refine ⟨?_, fun t ht => ?_⟩
    · rw [List.flatMap_cons, List.append_assoc, ← hrest]
    · rcases List.mem_cons.mp ht with he | ht
      · exact Flag.ofToken?_eq_none_iff.mp (hpart t he.symm)
      · exact hskipped t ht

/-- The first token decides what the first part is. -/
theorem isCut_cons_tokens :
    IsCut (t :: rest) parts dangling ↔
      match Flag.ofToken? t, rest with
      | none, rest => ∃ ps, parts = .skipped t :: ps ∧ IsCut rest ps dangling
      | some (.switch s), rest => ∃ ps, parts = .item (.switch s) :: ps ∧ IsCut rest ps dangling
      | some (.value f), [] => parts = [] ∧ dangling = some f
      | some (.value f), value :: rest =>
        ∃ ps, parts = .item (.setting f value) :: ps ∧ IsCut rest ps dangling := by
  constructor
  · intro h
    cases parts with
    | nil =>
      rw [isCut_nil] at h
      cases dangling with
      | none => cases h
      | some f =>
        obtain ⟨rfl, rfl⟩ := List.cons.inj h
        rw [Flag.ofToken?_token]
        exact ⟨rfl, rfl⟩
    | cons part ps =>
      obtain ⟨hskipped, more, htokens, hps⟩ := isCut_cons.mp h
      cases part with
      | skipped u =>
        obtain ⟨rfl, rfl⟩ := List.cons.inj htokens
        rw [hskipped t rfl]
        exact ⟨ps, rfl, hps⟩
      | item i =>
        cases i with
        | switch s =>
          obtain ⟨rfl, rfl⟩ := List.cons.inj htokens
          rw [Flag.ofToken?_token]
          exact ⟨ps, rfl, hps⟩
        | setting f value =>
          obtain ⟨rfl, rfl⟩ := List.cons.inj htokens
          rw [Flag.ofToken?_token]
          exact ⟨ps, rfl, hps⟩
  · intro h
    split at h
    next hflag =>
      obtain ⟨ps, rfl, hps⟩ := h
      refine isCut_cons.mpr ⟨fun u hu => ?_, _, rfl, hps⟩
      obtain rfl := Part.skipped.inj hu
      exact hflag
    next hflag =>
      obtain ⟨ps, rfl, hps⟩ := h
      obtain rfl := Flag.ofToken?_eq_some_iff.mp hflag
      exact isCut_cons.mpr ⟨fun _ hu => (by cases hu), _, rfl, hps⟩
    next hflag =>
      obtain ⟨rfl, rfl⟩ := h
      obtain rfl := Flag.ofToken?_eq_some_iff.mp hflag
      exact isCut_nil.mpr rfl
    next hflag =>
      obtain ⟨ps, rfl, hps⟩ := h
      obtain rfl := Flag.ofToken?_eq_some_iff.mp hflag
      exact isCut_cons.mpr ⟨fun _ hu => (by cases hu), _, rfl, hps⟩

theorem exists_cons_iff {rest : List Part} {p : Prop} :
    (∃ ps, parts = part :: ps ∧ ps = rest ∧ p) ↔ parts = part :: rest ∧ p :=
  ⟨fun ⟨_, hparts, hps, hp⟩ => ⟨hps ▸ hparts, hp⟩, fun ⟨hparts, hp⟩ => ⟨rest, hparts, rfl, hp⟩⟩

/-- There is exactly one cut, and its items are those that are read. -/
theorem isCut_iff (tokens : List String) :
    ∃ parts, Part.items parts = (Item.cut tokens).1 ∧
      ∀ parts' dangling, IsCut tokens parts' dangling ↔
        parts' = parts ∧ dangling = (Item.cut tokens).2 := by
  -- The recursion of the reader; behind each first token the rest is cut on its own.
  fun_induction Item.cut tokens with
  | case1 =>
    refine ⟨[], rfl, fun parts' dangling => ?_⟩
    cases parts' with
    | nil => cases dangling <;> simp [isCut_nil]
    | cons part ps =>
      rw [isCut_cons]
      cases part with
      | skipped t => simp [Part.tokens]
      | item i => cases i <;> simp [Part.tokens, Item.tokens]
  | case2 token rest htoken ih =>
    obtain ⟨parts, hitems, hiff⟩ := ih
    refine ⟨.skipped token :: parts, hitems, fun parts' dangling => ?_⟩
    rw [isCut_cons_tokens, htoken]
    simp only [hiff, exists_cons_iff]
  | case3 token rest s htoken items missing hcut ih =>
    obtain ⟨parts, hitems, hiff⟩ := ih
    rw [hcut] at hitems hiff
    refine ⟨.item (.switch s) :: parts, congrArg _ hitems, fun parts' dangling => ?_⟩
    rw [isCut_cons_tokens, htoken]
    simp only [hiff, exists_cons_iff]
  | case4 token f htoken =>
    refine ⟨[], rfl, fun parts' dangling => ?_⟩
    rw [isCut_cons_tokens, htoken]
  | case5 token f htoken value rest items missing hcut ih =>
    obtain ⟨parts, hitems, hiff⟩ := ih
    rw [hcut] at hitems hiff
    refine ⟨.item (.setting f value) :: parts, congrArg _ hitems, fun parts' dangling => ?_⟩
    rw [isCut_cons_tokens, htoken]
    simp only [hiff, exists_cons_iff]

end IsCut

/-! ## 3. What items mean -/

namespace Item

/-- The values that a flag is given, in order. -/
def values (name : String) (items : List Item) : List String :=
  items.filterMap fun
    | .switch _ => none
    | .setting f value => if f.name = name then some value else none

/-- A switch is among the items. -/
def isOn (name : String) (items : List Item) : Bool :=
  items.any fun
    | .switch s => s.name = name
    | .setting _ _ => false

theorem values_append (name : String) (is js : List Item) :
    values name (is ++ js) = values name is ++ values name js :=
  List.filterMap_append

@[simp] theorem values_concat_switch (name : String) (items : List Item) (s : Switch) :
    values name (items ++ [.switch s]) = values name items := by
  rw [values_append]
  exact List.append_nil _

@[simp] theorem values_concat_setting (name : String) (items : List Item) (f : ValueFlag)
    (value : String) :
    values name (items ++ [.setting f value]) =
      if f.name = name then values name items ++ [value] else values name items := by
  rw [values_append]
  by_cases h : f.name = name <;> simp [values, h]

theorem values_eq_nil_iff {f : ValueFlag} {items : List Item} :
    values f.name items = [] ↔ ∀ value, Item.setting f value ∉ items := by
  rw [values, List.filterMap_eq_nil_iff]
  constructor
  · intro h value hmem
    simpa using h _ hmem
  · intro h i hi
    cases i with
    | switch s => rfl
    | setting g value =>
      refine if_neg fun hname => ?_
      obtain rfl := ValueFlag.name_inj hname
      exact h value hi

end Item

/-- What the value of an integer flag has to be below. -/
def ValueFlag.bound? : ValueFlag → Option Nat
  | .gic | .exceptionLevel | .cpus | .memory => some UInt32.size
  | .sshForward => some UInt16.size
  | _ => none

/-- The error of an integer item whose value cannot be read. -/
def Item.refusal? : Item → Option UsageError
  | .switch _ => none
  | .setting f value =>
    match f.bound? with
    | none => none
    | some bound =>
      if Text.readInteger bound value = none then some (.invalidInteger f.name value) else none

namespace Options

/-- The options that items mean.  Of each flag the last value counts, and without one its default;
only the overlays add up. -/
def ofItems (items : List Item) : Options :=
  let defaults : Options := {}
  let last (name : String) : Option String := (Item.values name items).getLast?
  let number (bound : Nat) (name : String) : Option Nat :=
    (last name).bind (Text.readInteger bound)
  { gic := ((number UInt32.size "gic").map UInt32.ofNat).getD defaults.gic
    exceptionLevel := ((number UInt32.size "el").map UInt32.ofNat).getD defaults.exceptionLevel
    cpus := ((number UInt32.size "smp").map UInt32.ofNat).getD defaults.cpus
    memory := ((number UInt32.size "mem").map UInt32.ofNat).getD defaults.memory
    sshForward := ((number UInt16.size "ssh").map UInt16.ofNat).getD defaults.sshForward
    debug := Item.isOn "debug" items
    graphic := Item.isOn "graphic" items
    tap := Item.isOn "tap" items
    gl := Item.isOn "gl" items
    bootArgs := (last "bootargs").getD defaults.bootArgs
    block := (last "block").getD defaults.block
    scsi := defaults.scsi
    flash := (last "flash").getD defaults.flash
    emmc := (last "emmc").getD defaults.emmc
    nvme := (last "nvme").getD defaults.nvme
    ufs := (last "ufs").getD defaults.ufs
    iommu := (last "iommu").getD defaults.iommu
    sound := (last "sound").getD defaults.sound
    pluggedMemory := last "plugged-mem"
    dumpTree := (last "dumpdtb").map Path.mk
    initrd := (last "initrd").map Path.mk
    share := (last "9p").map Path.mk
    tree := (last "dtb").map Path.mk
    overlays := (Item.values "dtbo" items).map Path.mk }

/-- One more item changes the options as it is applied to them. -/
theorem apply_ofItems (items : List Item) (i : Item) :
    (ofItems items).apply i =
      match i.refusal? with
      | some e => .error e
      | none => .ok (ofItems (items ++ [i])) := by
  have herror {α β : Type} (f : α → β) (e : UsageError) :
      f <$> (.error e : Except UsageError α) = .error e := rfl
  have hok {α β : Type} (f : α → β) (a : α) :
      f <$> (.ok a : Except UsageError α) = .ok (f a) := rfl
  cases i with
  | switch s => cases s <;> simp [apply, turnOn, ofItems, Item.refusal?, Item.isOn, Switch.name]
  | setting f value =>
    cases f with
    | gic | exceptionLevel | cpus | memory =>
      cases hread : Text.readInteger UInt32.size value <;>
        simp [apply, set, integer32, integer, ofItems, Item.refusal?, ValueFlag.bound?,
          ValueFlag.name, Item.isOn, hread, herror, hok]
    | sshForward =>
      cases hread : Text.readInteger UInt16.size value <;>
        simp [apply, set, integer16, integer, ofItems, Item.refusal?, ValueFlag.bound?,
          ValueFlag.name, Item.isOn, hread, herror, hok]
    | _ => simp [apply, set, ofItems, Item.refusal?, ValueFlag.bound?, ValueFlag.name, Item.isOn]

/-- Items applied in order stop at the first error, and otherwise mean what they mean together. -/
theorem foldlM_ofItems (done items : List Item) :
    items.foldlM apply (ofItems done) =
      match items.findSome? Item.refusal? with
      | some e => .error e
      | none => .ok (ofItems (done ++ items)) := by
  induction items generalizing done with
  | nil => rw [List.foldlM_nil, List.append_nil]; rfl
  | cons i items ih =>
    rw [List.foldlM_cons, apply_ofItems, List.findSome?_cons]
    cases hi : i.refusal? with
    | some e => rfl
    | none =>
      show items.foldlM apply (ofItems (done ++ [i])) = _
      rw [ih (done ++ [i]), List.append_assoc]
      rfl

/-- The error of a token list that is cut into items and a flag without its value: numbers first. -/
theorem parse_eq (tokens : List String) :
    parse tokens =
      match (Item.cut tokens).1.findSome? Item.refusal?, (Item.cut tokens).2 with
      | some e, _ => .error e
      | none, some f => .error (.missingValue f.name)
      | none, none => .ok (ofItems (Item.cut tokens).1) := by
  have hfold := foldlM_ofItems [] (Item.cut tokens).1
  unfold parse
  show (Item.cut tokens).1.foldlM apply (ofItems []) >>= _ = _
  rw [hfold]
  cases (Item.cut tokens).1.findSome? Item.refusal? with
  | some e => rfl
  | none => cases (Item.cut tokens).2 <;> rfl

/-- A token list is cut in exactly one way, and means what its items say.  A token that is taken as
a value is no item, whatever it looks like. -/
theorem parse_follows_the_grammar (tokens : List String) :
    ∃ parts dangling, IsCut tokens parts dangling ∧
      (∀ parts' dangling', IsCut tokens parts' dangling' →
        parts' = parts ∧ dangling' = dangling) ∧
      parse tokens =
        match (Part.items parts).findSome? Item.refusal?, dangling with
        | some e, _ => .error e
        | none, some f => .error (.missingValue f.name)
        | none, none => .ok (ofItems (Part.items parts)) := by
  obtain ⟨parts, hitems, hcut⟩ := isCut_iff tokens
  refine ⟨parts, (Item.cut tokens).2, (hcut _ _).mpr ⟨rfl, rfl⟩, fun _ _ => (hcut _ _).mp, ?_⟩
  rw [hitems]
  exact parse_eq tokens

-- A flag that is taken as a value turns nothing on.
example :
    parse ["-bootargs", "-debug", "-gl"] = .ok { bootArgs := "-debug", gl := true } :=
  rfl

end Options

end VirtBoard.Board
