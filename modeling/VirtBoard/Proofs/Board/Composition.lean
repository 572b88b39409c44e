import VirtBoard.Proofs.Board.FlagGrammar

/-!
# Flag lists behind one another

A token list that parses ends where one of its items or a token without meaning ends, so what is put
behind it is cut as it is cut alone.  Of the two lists the later one counts for each flag that it
gives a value, while switches and overlays add up.
-/

namespace VirtBoard.Board

/-! ## 1. The cut of a longer list -/

namespace Item

/-- No flag at the end of the first list takes the head of the second as its value. -/
theorem cut_append {xs : List String} (h : (cut xs).2 = none) (ys : List String) :
    cut (xs ++ ys) = ((cut xs).1 ++ (cut ys).1, (cut ys).2) := by
  fun_induction cut xs with
  | case1 => rfl
  | case2 token rest htoken ih => rw [List.cons_append, cut, htoken, ih h]
  | case3 token rest s htoken items dangling hcut ih =>
    rw [hcut] at ih
    rw [List.cons_append, cut, htoken, ih h]
    rfl
  | case4 token f htoken => cases h
  | case5 token f htoken value rest items dangling hcut ih =>
    rw [hcut] at ih
    rw [List.cons_append, List.cons_append, cut, htoken]
    simp only [ih h, List.cons_append]

/-- Whatever stands behind a list, its own items come first. -/
theorem cut_prefix (xs ys : List String) : (cut xs).1 <+: (cut (xs ++ ys)).1 := by
  fun_induction cut xs with
  | case1 => exact List.nil_prefix
  | case2 token rest htoken ih =>
    rw [List.cons_append, cut, htoken]
    exact ih
  | case3 token rest s htoken items dangling hcut ih =>
    rw [hcut] at ih
    rw [List.cons_append, cut, htoken]
    exact (List.prefix_cons_inj _).mpr ih
  | case4 token f htoken => exact List.nil_prefix
  | case5 token f htoken value rest items dangling hcut ih =>
    rw [hcut] at ih
    rw [List.cons_append, List.cons_append, cut, htoken]
    exact (List.prefix_cons_inj _).mpr ih

/-! ## 2. Flags that are given a value -/

/-- A flag is given a value among the items. -/
def Sets (items : List Item) (f : ValueFlag) : Prop :=
  ∃ value, Item.setting f value ∈ items

theorem sets_iff {items : List Item} {f : ValueFlag} :
    Sets items f ↔ values f.name items ≠ [] := by
  rw [ne_eq, values_eq_nil_iff, Classical.not_forall_not]
  rfl

instance (items : List Item) : DecidablePred (Sets items) := fun f =>
  decidable_of_iff (values f.name items ≠ []) sets_iff.symm

variable {is js : List Item} {f : ValueFlag}

/-- The last value of a flag is one of the later items if these give it one. -/
theorem getLast?_values_append :
    (values f.name (is ++ js)).getLast? =
      if Sets js f then (values f.name js).getLast? else (values f.name is).getLast? := by
  rw [values_append, List.getLast?_append]
  by_cases hf : Sets js f
  · rw [if_pos hf]
    exact Option.or_of_isSome (List.getLast?_isSome.mpr (sets_iff.mp hf))
  · have hnil : values f.name js = [] := Decidable.not_not.mp fun hne => hf (sets_iff.mpr hne)
    rw [if_neg hf, hnil]
    rfl

theorem isOn_append (name : String) : isOn name (is ++ js) = (isOn name is || isOn name js) :=
  List.any_append

end Item

namespace Options

/-! ## 3. What the items of both lists mean -/

/-- Options behind which others stand that give some of the flags a value: of these flags the later
value counts.  Switches and overlays add up, and the SCSI disk has no flag. -/
def followedBy (a b : Options) (given : ValueFlag → Prop) [DecidablePred given] : Options where
  gic := if given .gic then b.gic else a.gic
  exceptionLevel := if given .exceptionLevel then b.exceptionLevel else a.exceptionLevel
  cpus := if given .cpus then b.cpus else a.cpus
  memory := if given .memory then b.memory else a.memory
  sshForward := if given .sshForward then b.sshForward else a.sshForward
  debug := a.debug || b.debug
  graphic := a.graphic || b.graphic
  tap := a.tap || b.tap
  gl := a.gl || b.gl
  bootArgs := if given .bootArgs then b.bootArgs else a.bootArgs
  block := if given .block then b.block else a.block
  scsi := a.scsi
  flash := if given .flash then b.flash else a.flash
  emmc := if given .emmc then b.emmc else a.emmc
  nvme := if given .nvme then b.nvme else a.nvme
  ufs := if given .ufs then b.ufs else a.ufs
  iommu := if given .iommu then b.iommu else a.iommu
  sound := if given .sound then b.sound else a.sound
  pluggedMemory := if given .pluggedMemory then b.pluggedMemory else a.pluggedMemory
  dumpTree := if given .dumpTree then b.dumpTree else a.dumpTree
  initrd := if given .initrd then b.initrd else a.initrd
  share := if given .share then b.share else a.share
  tree := if given .tree then b.tree else a.tree
  overlays := a.overlays ++ b.overlays

theorem ofItems_append (is js : List Item) :
    ofItems (is ++ js) = (ofItems is).followedBy (ofItems js) (Item.Sets js) := by
  have hlast : ∀ f ∈ ValueFlag.all, (Item.values f.name (is ++ js)).getLast? =
      if Item.Sets js f then (Item.values f.name js).getLast? else (Item.values f.name is).getLast? :=
    fun f _ => Item.getLast?_values_append
  simp only [ValueFlag.all, List.forall_mem_cons, List.not_mem_nil, false_implies, implies_true,
    and_true, ValueFlag.name] at hlast
  simp only [ofItems, followedBy, hlast, Item.isOn_append, Item.values_append "dtbo",
    List.map_append, Options.mk.injEq, and_true, true_and]
  and_intros <;> split <;> rfl

/-- Only the values of each flag and the switches matter. -/
theorem ofItems_congr {is js : List Item}
    (hvalues : ∀ f : ValueFlag, Item.values f.name is = Item.values f.name js)
    (hon : ∀ s : Switch, Item.isOn s.name is = Item.isOn s.name js) : ofItems is = ofItems js := by
  have hvalues : ∀ f ∈ ValueFlag.all, Item.values f.name is = Item.values f.name js :=
    fun f _ => hvalues f
  have hon : ∀ s ∈ Switch.all, Item.isOn s.name is = Item.isOn s.name js := fun s _ => hon s
  simp only [ValueFlag.all, List.forall_mem_cons, List.not_mem_nil, false_implies, implies_true,
    and_true, ValueFlag.name] at hvalues
  simp only [Switch.all, List.forall_mem_cons, List.not_mem_nil, false_implies, implies_true,
    and_true, Switch.name] at hon
  simp only [ofItems, hvalues, hon]

/-- Items of which no two give the same flag a value may change places. -/
theorem ofItems_append_comm {is js : List Item} (h : ∀ f, ¬(Item.Sets is f ∧ Item.Sets js f)) :
    ofItems (is ++ js) = ofItems (js ++ is) := by
  refine ofItems_congr (fun f => ?_) fun s => ?_
  · rw [Item.values_append, Item.values_append]
    by_cases hf : Item.values f.name is = []
    · rw [hf, List.nil_append, List.append_nil]
    · have hnil : Item.values f.name js = [] :=
        Decidable.not_not.mp fun hne => h f ⟨Item.sets_iff.mpr hf, Item.sets_iff.mpr hne⟩
      rw [hnil, List.nil_append, List.append_nil]
  · rw [Item.isOn_append, Item.isOn_append, Bool.or_comm]

/-! ## 4. The lists behind one another -/

section Parse

variable {tokens xs ys : List String} {a b o : Options} {e : UsageError}

theorem parse_eq_ok_iff :
    parse tokens = .ok o ↔
      (Item.cut tokens).1.findSome? Item.refusal? = none ∧ (Item.cut tokens).2 = none ∧
        ofItems (Item.cut tokens).1 = o := by
  rw [parse_eq]
  cases (Item.cut tokens).1.findSome? Item.refusal? <;> cases (Item.cut tokens).2 <;> simp

/-- An integer that is refused stands among the items, and all before it can be read. -/
theorem parse_eq_invalidInteger_iff {name value : String} :
    parse tokens = .error (.invalidInteger name value) ↔
      (Item.cut tokens).1.findSome? Item.refusal? = some (.invalidInteger name value) := by
  rw [parse_eq]
  cases (Item.cut tokens).1.findSome? Item.refusal? <;> cases (Item.cut tokens).2 <;> simp

/-- Behind a list that parses, another one fails as it fails alone, and otherwise adds its items. -/
theorem parse_append_of_ok (hxs : parse xs = .ok a) (ys : List String) :
    parse (xs ++ ys) =
      (parse ys).map fun _ => ofItems ((Item.cut xs).1 ++ (Item.cut ys).1) := by
  obtain ⟨hread, hend, -⟩ := parse_eq_ok_iff.mp hxs
  rw [parse_eq, parse_eq ys, Item.cut_append hend]
  dsimp only
  rw [List.findSome?_append, hread, Option.none_or]
  cases (Item.cut ys).1.findSome? Item.refusal? with
  | some e => rfl
  | none => cases (Item.cut ys).2 <;> rfl

theorem parse_append_invalidInteger {name value : String}
    (hxs : parse xs = .error (.invalidInteger name value)) (ys : List String) :
    parse (xs ++ ys) = .error (.invalidInteger name value) := by
  obtain ⟨later, hitems⟩ := Item.cut_prefix xs ys
  rw [parse_eq_invalidInteger_iff] at hxs ⊢
  rw [← hitems, List.findSome?_append, hxs, Option.some_or]

/-- Flag lists compose.  Behind a list that parses, a second one that parses overrides the flags that
it gives a value, and an error of the second is the error of both; two lists that give no flag in
common a value may change places.  An integer that is refused is the error whatever follows. -/
theorem parse_append (xs ys : List String) :
    (∀ a b, parse xs = .ok a → parse ys = .ok b →
      parse (xs ++ ys) = .ok (a.followedBy b (Item.Sets (Item.cut ys).1)) ∧
        ((∀ f, ¬(Item.Sets (Item.cut xs).1 f ∧ Item.Sets (Item.cut ys).1 f)) →
          parse (xs ++ ys) = parse (ys ++ xs))) ∧
      (∀ a e, parse xs = .ok a → parse ys = .error e → parse (xs ++ ys) = .error e) ∧
      ∀ name value, parse xs = .error (.invalidInteger name value) →
        parse (xs ++ ys) = .error (.invalidInteger name value) := by
  refine ⟨fun a b hxs hys => ⟨?_, fun hapart => ?_⟩, fun a e hxs hys => ?_, fun name value hxs => ?_⟩
  · obtain ⟨-, -, rfl⟩ := parse_eq_ok_iff.mp hxs
    obtain ⟨-, -, rfl⟩ := parse_eq_ok_iff.mp hys
    rw [parse_append_of_ok hxs, hys, ← ofItems_append]
    rfl
  · rw [parse_append_of_ok hxs, parse_append_of_ok hys, hxs, hys, ofItems_append_comm hapart]
    rfl
  · rw [parse_append_of_ok hxs, hys]
    rfl
  · exact parse_append_invalidInteger hxs ys

end Parse

/-- A list that ends in a value that looks like a flag takes nothing from the one behind it. -/
theorem flag_like_value_takes_nothing :
    parse (["-smp", "2", "-9p", "-mem"] ++ ["-mem", "512", "-gl"]) =
        .ok { cpus := 2, memory := 512, gl := true, share := some ⟨"-mem"⟩ } ∧
      parse (["-smp", "2", "-9p", "-mem"] ++ ["-mem", "512", "-gl"]) =
        parse (["-mem", "512", "-gl"] ++ ["-smp", "2", "-9p", "-mem"]) ∧
      parse (["-smp", "2", "-9p", "-mem"] ++ ["-gl", "-mem"]) = .error (.missingValue "mem") ∧
      parse (["-smp", "two", "-mem"] ++ ["512"]) = .error (.invalidInteger "smp" "two") := by
  have hxs : parse ["-smp", "2", "-9p", "-mem"] =
      .ok { cpus := 2, share := some ⟨"-mem"⟩ } := by rfl
  have hys : parse ["-mem", "512", "-gl"] = .ok { memory := 512, gl := true } := by rfl
  have hapart : ∀ f, ¬(Item.Sets (Item.cut ["-smp", "2", "-9p", "-mem"]).1 f ∧
      Item.Sets (Item.cut ["-mem", "512", "-gl"]).1 f) := by
    intro f
    cases f <;> decide
  obtain ⟨hboth, hcommute⟩ := (parse_append _ _).1 _ _ hxs hys
  exact ⟨hboth, hcommute hapart, (parse_append _ ["-gl", "-mem"]).2.1 _ _ hxs (by rfl),
    (parse_append ["-smp", "two", "-mem"] ["512"]).2.2 "smp" "two" (by rfl)⟩

end Options

end VirtBoard.Board
