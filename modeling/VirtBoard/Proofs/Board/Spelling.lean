import Mathlib.Data.List.Perm.Basic
import Mathlib.Data.Set.List
import VirtBoard.Proofs.Board.FlagGrammar
import VirtBoard.Proofs.Text.Decimals

/-!
# Spelling a configuration

Every configuration of the board can be spelled as flags, but for the name of the SCSI disk, which
no flag sets.  The fields may be spelled in any order that keeps the overlays in theirs, and their
texts may be any texts, also such as look like flags.
-/

namespace VirtBoard.Board

/-! ## 1. Tokens and items -/

/-- Items are cut from their own tokens. -/
theorem Item.cut_tokens (items : List Item) :
    Item.cut (items.flatMap Item.tokens) = (items, none) := by
  induction items with
  | nil => rfl
  | cons i items ih =>
    rw [List.flatMap_cons]
    cases i with
    | switch s => simp only [tokens, List.singleton_append, cut, Flag.ofToken?_token, ih]
    | setting f value =>
      simp only [tokens, List.cons_append, List.nil_append, cut, Flag.ofToken?_token, ih]

theorem Item.tokens_inj {i j : Item} (h : i.tokens = j.tokens) : i = j := by
  have hcut := Item.cut_tokens [i]
  rw [List.flatMap_singleton, h, ← List.flatMap_singleton Item.tokens j, Item.cut_tokens] at hcut
  simpa using hcut.symm

theorem Item.isOn_iff_mem {s : Switch} {items : List Item} :
    Item.isOn s.name items = true ↔ Item.switch s ∈ items := by
  rw [isOn, List.any_eq_true]
  constructor
  · rintro ⟨i, hi, hs⟩
    cases i with
    | setting f value => cases hs
    | switch s' =>
      obtain rfl := Switch.name_inj (of_decide_eq_true hs)
      exact hi
  · exact fun hs => ⟨_, hs, decide_eq_true rfl⟩

namespace Options

/-! ## 2. The fields of a configuration -/

/-- The flags that spell a configuration, field by field. -/
def spelling (o : Options) : List (List String) :=
  [["-gic", toString o.gic], ["-el", toString o.exceptionLevel], ["-smp", toString o.cpus],
    ["-mem", toString o.memory], ["-ssh", toString o.sshForward]] ++
  [["-bootargs", o.bootArgs], ["-block", o.block], ["-flash", o.flash], ["-emmc", o.emmc],
    ["-nvme", o.nvme], ["-ufs", o.ufs], ["-iommu", o.iommu], ["-sound", o.sound]] ++
  (o.pluggedMemory.toList.map fun size => ["-plugged-mem", size]) ++
  (o.dumpTree.toList.map fun p => ["-dumpdtb", p.text]) ++
  (o.initrd.toList.map fun p => ["-initrd", p.text]) ++
  (o.share.toList.map fun p => ["-9p", p.text]) ++
  (o.tree.toList.map fun p => ["-dtb", p.text]) ++
  (o.overlays.map fun p => ["-dtbo", p.text]) ++
  (if o.debug then [["-debug"]] else []) ++ (if o.graphic then [["-graphic"]] else []) ++
  (if o.tap then [["-tap"]] else []) ++ (if o.gl then [["-gl"]] else [])

/-- The texts that a flag is given for its field. -/
def texts (o : Options) : ValueFlag → List String
  | .gic => [toString o.gic]
  | .exceptionLevel => [toString o.exceptionLevel]
  | .cpus => [toString o.cpus]
  | .memory => [toString o.memory]
  | .sshForward => [toString o.sshForward]
  | .bootArgs => [o.bootArgs]
  | .block => [o.block]
  | .flash => [o.flash]
  | .emmc => [o.emmc]
  | .nvme => [o.nvme]
  | .ufs => [o.ufs]
  | .iommu => [o.iommu]
  | .sound => [o.sound]
  | .pluggedMemory => o.pluggedMemory.toList
  | .dumpTree => o.dumpTree.toList.map Path.text
  | .initrd => o.initrd.toList.map Path.text
  | .share => o.share.toList.map Path.text
  | .tree => o.tree.toList.map Path.text
  | .overlay => o.overlays.map Path.text

def isOn (o : Options) : Switch → Bool
  | .debug => o.debug
  | .graphic => o.graphic
  | .tap => o.tap
  | .gl => o.gl

/-- The flags with a value, in the order of the spelling. -/
def spelledFlags : List ValueFlag :=
  [.gic, .exceptionLevel, .cpus, .memory, .sshForward, .bootArgs, .block, .flash, .emmc, .nvme,
    .ufs, .iommu, .sound, .pluggedMemory, .dumpTree, .initrd, .share, .tree, .overlay]

/-- The items that spell a configuration. -/
def items (o : Options) : List Item :=
  (spelledFlags.flatMap fun f => (o.texts f).map (.setting f)) ++
    Switch.all.flatMap fun s => if o.isOn s then [.switch s] else []

theorem spelling_eq (o : Options) : o.spelling = o.items.map Item.tokens := by
  have hset (f : ValueFlag) (v : String) :
      (Item.setting f v).tokens = ["-" ++ f.name, v] := rfl
  have hsettings :
      (spelledFlags.flatMap fun f => (o.texts f).map (Item.setting f)).map Item.tokens =
        spelledFlags.flatMap fun f => (o.texts f).map fun v => ["-" ++ f.name, v] := by
    simp only [List.map_flatMap, List.map_map]
    rfl
  have hswitches : (Switch.all.flatMap fun s => if o.isOn s then [Item.switch s] else []).map
      Item.tokens = Switch.all.flatMap fun s => if o.isOn s then [["-" ++ s.name]] else [] := by
    simp only [List.map_flatMap, apply_ite (List.map Item.tokens)]
    rfl
  rw [items, List.map_append, hsettings, hswitches]
  simp only [spelling, spelledFlags, texts, isOn, Switch.all, ValueFlag.name, Switch.name,
    String.reduceAppend, List.flatMap_cons, List.flatMap_nil, List.map_map, List.map_cons,
    List.map_nil, List.append_nil, List.append_assoc, List.cons_append, List.nil_append,
    Function.comp_def]
  rfl

/-! ## 3. The values among the items -/

theorem mem_spelledFlags (f : ValueFlag) : f ∈ spelledFlags := by
  cases f <;> decide

theorem setting_mem_items {o : Options} {f : ValueFlag} {value : String} :
    Item.setting f value ∈ o.items ↔ value ∈ o.texts f := by
  simp only [items, List.mem_append, List.mem_flatMap, List.mem_map, Item.setting.injEq]
  constructor
  · rintro (⟨g, -, v, hv, rfl, rfl⟩ | ⟨s, -, hs⟩)
    · exact hv
    · split at hs <;> simp at hs
  · exact fun hv => .inl ⟨f, mem_spelledFlags f, value, hv, rfl, rfl⟩

theorem switch_mem_items {o : Options} {s : Switch} :
    Item.switch s ∈ o.items ↔ o.isOn s = true := by
  have hall : s ∈ Switch.all := by cases s <;> decide
  simp only [items, List.mem_append, List.mem_flatMap, List.mem_map, reduceCtorEq, and_false,
    exists_false, false_or]
  constructor
  · rintro ⟨s', -, hs'⟩
    split at hs'
    next hon =>
      obtain rfl := Item.switch.inj (List.mem_singleton.mp hs')
      exact hon
    next => exact absurd hs' List.not_mem_nil
  · intro hon
    exact ⟨s, hall, by rw [if_pos hon]; exact List.mem_singleton_self _⟩

theorem values_settings (f g : ValueFlag) (texts : List String) :
    Item.values f.name (texts.map (Item.setting g)) = if g = f then texts else [] := by
  by_cases h : g = f
  · simp [Item.values, List.filterMap_map, h]
  · have hname : g.name ≠ f.name := fun he => h (ValueFlag.name_inj he)
    simp [Item.values, List.filterMap_map, h, hname]

/-- Only one member of a list without duplicates contributes. -/
theorem flatMap_ite_eq {α β : Type} [DecidableEq α] {l : List α} {a : α} (hl : l.Nodup)
    (ha : a ∈ l) (g : α → List β) : (l.flatMap fun x => if x = a then g x else []) = g a := by
  induction l with
  | nil => exact absurd ha List.not_mem_nil
  | cons x l ih =>
    obtain ⟨hx, hl⟩ := List.nodup_cons.mp hl
    rw [List.flatMap_cons]
    rcases List.mem_cons.mp ha with rfl | ha
    · have hnil : (l.flatMap fun x => if x = a then g x else []) = [] := by
        refine List.flatMap_eq_nil_iff.mpr fun y hy => if_neg ?_
        rintro rfl
        exact hx hy
      rw [if_pos rfl, hnil, List.append_nil]
    · have hne : x ≠ a := by
        rintro rfl
        exact hx ha
      rw [if_neg hne, List.nil_append, ih hl ha]

theorem values_items (o : Options) (f : ValueFlag) : Item.values f.name o.items = o.texts f := by
  have hswitches : Item.values f.name
      (Switch.all.flatMap fun s => if o.isOn s then [Item.switch s] else []) = [] := by
    rw [Item.values, List.filterMap_flatMap]
    refine List.flatMap_eq_nil_iff.mpr fun s _ => ?_
    split <;> rfl
  have hsettings : Item.values f.name (spelledFlags.flatMap fun g => (o.texts g).map (.setting g)) =
      spelledFlags.flatMap fun g => if g = f then o.texts g else [] := by
    rw [Item.values, List.filterMap_flatMap]
    exact congrArg (spelledFlags.flatMap ·) (funext fun g => values_settings f g (o.texts g))
  rw [items, Item.values_append, hswitches, hsettings, List.append_nil]
  exact flatMap_ite_eq (by decide) (mem_spelledFlags f) o.texts

/-- The values of a flag that do not add up are at most one. -/
theorem length_texts_le (o : Options) {f : ValueFlag} (h : f ≠ .overlay) :
    (o.texts f).length ≤ 1 := by
  have hoption (x : Option String) : x.toList.length ≤ 1 := by cases x <;> simp
  have hpath (x : Option Path) : (x.toList.map Path.text).length ≤ 1 := by cases x <;> simp
  cases f <;> first
    | exact absurd rfl h
    | exact Nat.le_refl 1
    | exact hoption _
    | exact hpath _

/-- No integer of a configuration is refused. -/
theorem refusal?_items (o : Options) : o.items.findSome? Item.refusal? = none := by
  rw [List.findSome?_eq_none_iff]
  intro i hi
  cases i with
  | switch s => rfl
  | setting f value =>
    have hvalue : value ∈ o.texts f := setting_mem_items.mp hi
    cases f with
    | gic | exceptionLevel | cpus | memory =>
      obtain rfl := List.mem_singleton.mp hvalue
      simp [Item.refusal?, ValueFlag.bound?, Text.readInteger_toString_uInt32]
    | sshForward =>
      obtain rfl := List.mem_singleton.mp hvalue
      simp [Item.refusal?, ValueFlag.bound?, Text.readInteger_toString_uInt16]
    | _ => rfl

/-! ## 4. The round trip -/

/-- What items mean is settled by the values of each flag and by the switches that are on. -/
theorem ofItems_eq {o : Options} {items : List Item} (hscsi : o.scsi = ({} : Options).scsi)
    (hvalues : ∀ f : ValueFlag, Item.values f.name items = o.texts f)
    (hon : ∀ s : Switch, Item.isOn s.name items = o.isOn s) : ofItems items = o := by
  have hvalues : ∀ f ∈ ValueFlag.all, Item.values f.name items = o.texts f := fun f _ => hvalues f
  have hon : ∀ s ∈ Switch.all, Item.isOn s.name items = o.isOn s := fun s _ => hon s
  simp only [ValueFlag.all, List.forall_mem_cons, List.not_mem_nil, false_implies, implies_true,
    and_true, ValueFlag.name, texts] at hvalues
  simp only [Switch.all, List.forall_mem_cons, List.not_mem_nil, false_implies, implies_true,
    and_true, Switch.name, isOn] at hon
  have hoption (x : Option String) : x.toList.getLast? = x := by cases x <;> rfl
  have hpath (x : Option Path) : (x.toList.map Path.text).getLast?.map Path.mk = x := by
    cases x <;> rfl
  have hpaths (ps : List Path) : (ps.map Path.text).map Path.mk = ps := by
    rw [List.map_map]
    exact List.map_id ps
  simp only [ofItems, hvalues, hon, hoption, hpath, hpaths, List.getLast?_singleton,
    Option.bind_some, Option.getD_some, Option.map_some, Text.readInteger_toString_uInt32,
    Text.readInteger_toString_uInt16, UInt32.ofNat_toNat, UInt16.ofNat_toNat]
  show { o with scsi := ({} : Options).scsi } = o
  rw [← hscsi]

section Reordered

variable {o : Options} {fields : List (List String)} {items : List Item}

/-- Fields in another order are the tokens of the items in another order. -/
theorem exists_items (h : fields.Perm o.spelling) :
    ∃ items : List Item, fields = items.map Item.tokens ∧ items.Perm o.items := by
  rw [spelling_eq] at h
  obtain ⟨items, rfl⟩ : fields ∈ Set.range (List.map Item.tokens) := by
    rw [Set.range_list_map]
    intro field hfield
    obtain ⟨i, -, hi⟩ := List.mem_map.mp (h.mem_iff.mp hfield)
    exact ⟨i, hi⟩
  exact ⟨items, rfl, (List.map_perm_map_iff fun _ _ => Item.tokens_inj).mp h⟩

theorem values_of_perm (h : items.Perm o.items)
    (hoverlays : (o.overlays.map fun p => Item.setting .overlay p.text).Sublist items)
    (f : ValueFlag) : Item.values f.name items = o.texts f := by
  have hperm : (Item.values f.name items).Perm (o.texts f) := by
    rw [← values_items]
    exact h.filterMap _
  by_cases hf : f = .overlay
  · subst hf
    have hsub : (o.texts .overlay).Sublist (Item.values ValueFlag.overlay.name items) := by
      have hvalues := values_settings .overlay .overlay (o.texts .overlay)
      rw [if_pos rfl, texts, List.map_map] at hvalues
      rw [← show _ = o.texts .overlay from hvalues]
      exact hoverlays.filterMap _
    exact (hsub.eq_of_length hperm.length_eq.symm).symm
  · -- A list of at most one value has no other order.
    have hlength := length_texts_le o hf
    match htexts : o.texts f, hlength with
    | [], _ => exact List.perm_nil.mp (htexts ▸ hperm)
    | [v], _ => exact List.perm_singleton.mp (htexts ▸ hperm)

/-- Every configuration is what its spelling parses to, in every order of its fields that keeps the
overlays in theirs. -/
theorem spelled_options_parse (hscsi : o.scsi = ({} : Options).scsi)
    (horder : fields.Perm o.spelling)
    (hoverlays : (o.overlays.map fun p => ["-dtbo", p.text]).Sublist fields) :
    parse fields.flatten = .ok o := by
  obtain ⟨items, rfl, hitems⟩ := exists_items horder
  have hkept : (o.overlays.map fun p => Item.setting .overlay p.text).Sublist items := by
    obtain ⟨kept, hsub, hkept⟩ := List.sublist_map_iff.mp hoverlays
    have htokens : o.overlays.map (fun p => ["-dtbo", p.text]) =
        (o.overlays.map fun p => Item.setting .overlay p.text).map Item.tokens := by
      rw [List.map_map]
      rfl
    rw [htokens] at hkept
    exact List.map_injective_iff.mpr (fun _ _ => Item.tokens_inj) hkept ▸ hsub
  have hrefusal : items.findSome? Item.refusal? = none := by
    rw [List.findSome?_eq_none_iff]
    intro i hi
    exact List.findSome?_eq_none_iff.mp (refusal?_items o) i (hitems.mem_iff.mp hi)
  have hon (s : Switch) : Item.isOn s.name items = o.isOn s := by
    rw [Bool.eq_iff_iff, Item.isOn_iff_mem, hitems.mem_iff, switch_mem_items]
  rw [parse_eq, ← List.flatMap_def, Item.cut_tokens, hrefusal]
  exact congrArg Except.ok (ofItems_eq hscsi (values_of_perm hitems hkept) hon)

/-- Texts that look like flags, that are empty or that have blanks around them. -/
theorem spelled_options_parse_flagLike :
    let o : Options :=
      { gic := 3, cpus := 4294967295, sshForward := 0, debug := true, gl := true,
        bootArgs := "-debug", block := "", flash := " 1 ", emmc := "-dtbo", iommu := "-graphic",
        pluggedMemory := some "-mem", initrd := some ⟨"-dtb"⟩, tree := some ⟨""⟩,
        overlays := [⟨"-dtbo"⟩, ⟨" b.dts "⟩, ⟨"-dtbo"⟩] }
    let fields : List (List String) :=
      [["-dtbo", "-dtbo"], ["-gl"], ["-iommu", "-graphic"], ["-sound", "hda"],
        ["-bootargs", "-debug"], ["-dtbo", " b.dts "], ["-dtb", ""], ["-emmc", "-dtbo"],
        ["-nvme", "nvme"], ["-smp", "4294967295"], ["-plugged-mem", "-mem"], ["-ufs", "ufs"],
        ["-initrd", "-dtb"], ["-flash", " 1 "], ["-gic", "3"], ["-dtbo", "-dtbo"], ["-block", ""],
        ["-debug"], ["-el", "1"], ["-mem", "128"], ["-ssh", "0"]]
    o.scsi = ({} : Options).scsi ∧ fields.Perm o.spelling ∧
      (o.overlays.map fun p => ["-dtbo", p.text]).Sublist fields ∧ parse fields.flatten = .ok o :=
  ⟨rfl, by decide +kernel, by decide +kernel,
    spelled_options_parse rfl (by decide +kernel) (by decide +kernel)⟩

end Reordered

end Options

end VirtBoard.Board
