import Mathlib.Data.List.Nodup
import VirtBoard.Proofs.Board.Validity
import VirtBoard.Proofs.Qemu.PluggedMemory
import VirtBoard.Proofs.Qemu.Settings

/-!
# Alternatives on a command line

The board has a console or a display, one of two IOMMUs, one of two sound cards, and an interrupt
controller with a number or the best there is.  Every command line has exactly one of each two,
whatever the texts of the configuration are.

1. A *block* is a list of options that come together.  A command line has a block or lacks it.
2. The blocks are in three sections of the command line.  All other options are of other kinds.
-/

namespace VirtBoard.Qemu

open Board

/-! ## 1. Kinds of options -/

/-- What tells options apart: the name, and of a device what it is. -/
def Argument.kind : Argument → String × Option Property
  | .alone name => (name, none)
  | .option name value =>
    (name, if name = "-device" then (OptionString.read value).head? else none)

namespace Assembly

@[simp] theorem kind_alone (name : String) : (Argument.alone name).kind = (name, none) :=
  rfl

theorem kind_option {name : String} (h : name ≠ "-device") (value : String) :
    (Argument.option name value).kind = (name, none) := by
  rw [Argument.kind, if_neg h]

theorem kind_ofProperties {name : String} (h : name ≠ "-device") (ps : List Property) :
    (Argument.ofProperties name ps).kind = (name, none) :=
  kind_option h _

@[simp] theorem kind_drive (name id : String) : (drive name id).kind = ("-drive", none) :=
  kind_option (by decide) _

@[simp] theorem kind_console (tcp id : String) : (console tcp id).kind = ("-chardev", none) :=
  kind_option (by decide) _

theorem kind_device {ps : List Property} (h : ∀ p ∈ ps, OptionString.Readable p) :
    (device ps).kind = ("-device", ps.head?) := by
  rw [device, Argument.ofProperties, Argument.kind, if_pos rfl, OptionString.read_ofProperties h]

theorem kind_bareDevice {name : String} (h : OptionString.Readable (.word name)) :
    (bareDevice name).kind = ("-device", some (.word name)) :=
  kind_device (List.forall_mem_singleton.mpr h)

end Assembly

/-! ## 2. Blocks -/

/-- Every option of a block is there, and nothing else of its kind. -/
def Has (block as : List Argument) : Prop :=
  ∀ b ∈ block, as.filter (·.kind = b.kind) = [b]

/-- Nothing is there of the kinds of a block. -/
def Lacks (block as : List Argument) : Prop :=
  ∀ b ∈ block, as.filter (·.kind = b.kind) = []

section Blocks

variable {all block as bs : List Argument}

theorem filter_kind_of_mem {b : Argument} (hnodup : (as.map Argument.kind).Nodup) (hb : b ∈ as) :
    as.filter (·.kind = b.kind) = [b] := by
  induction as with
  | nil => cases hb
  | cons a as ih =>
    obtain ⟨ha, hnodup⟩ := List.nodup_cons.mp hnodup
    by_cases hab : a = b
    · subst hab
      have hrest : as.filter (·.kind = a.kind) = [] := by
        rw [List.filter_eq_nil_iff]
        intro c hc hkind
        exact ha (of_decide_eq_true hkind ▸ List.mem_map_of_mem hc)
      rw [List.filter_cons_of_pos (by simp), hrest]
    · have hmem : b ∈ as := (List.mem_cons.mp hb).resolve_left (Ne.symm hab)
      have hkind : ¬a.kind = b.kind := fun he => ha (he ▸ List.mem_map_of_mem hmem)
      rw [List.filter_cons_of_neg (by simpa using hkind), ih hnodup hmem]

/-- Among options of different kinds a block is there if its options are. -/
theorem has_of_subset (hnodup : (all.map Argument.kind).Nodup) (has : as.Sublist all)
    (h : ∀ b ∈ block, b ∈ as) : Has block as :=
  fun b hb => filter_kind_of_mem (hnodup.sublist (has.map _)) (h b hb)

theorem lacks_of_disjoint (hnodup : (all.map Argument.kind).Nodup) (has : as.Sublist all)
    (hblock : ∀ b ∈ block, b ∈ all) (h : ∀ b ∈ block, b ∉ as) : Lacks block as := by
  intro b hb
  rw [List.filter_eq_nil_iff]
  intro a ha hkind
  have hab : a = b :=
    List.inj_on_of_nodup_map hnodup (has.subset ha) (hblock b hb) (of_decide_eq_true hkind)
  exact h b hb (hab ▸ ha)

theorem lacks_append (h : Lacks block as) (h' : Lacks block bs) : Lacks block (as ++ bs) := by
  intro b hb
  rw [List.filter_append, h b hb, h' b hb, List.append_nil]

end Blocks

/-! ## 3. The alternatives of the board -/

def headless : List Argument :=
  [.alone "-nographic"]

def graphicBlock : List Argument :=
  [.option "-serial" "stdio", .option "-device" "ramfb", .option "-device" "virtio-gpu-device",
    .option "-device" "virtio-keyboard-device", .option "-device" "virtio-mouse-device",
    .option "-device" "virtio-tablet-device"]

def glBlock : List Argument :=
  [.option "-device" "virtio-gpu-gl-device", .option "-display" "gtk,gl=on"]

def hdaPair : List Argument :=
  [.option "-device" "intel-hda", .option "-device" "hda-duplex"]

def virtioSoundPair : List Argument :=
  [.option "-device" "virtio-sound-pci,audiodev=vsnd", .option "-audiodev" "alsa,id=vsnd"]

def virtioIommu : List Argument :=
  [.option "-device" "virtio-iommu-device,disable-legacy=on,primary-bus=pcie.0"]

/-- All options that belong to an alternative. -/
def alternatives : List Argument :=
  headless ++ (graphicBlock ++ glBlock) ++ (virtioIommu ++ (hdaPair ++ virtioSoundPair))

/-- The kind of a device. -/
def driver (device : String) : String × Option Property :=
  ("-device", some (.word device))

def alternativeKinds : List (String × Option Property) :=
  [("-nographic", none), ("-serial", none), driver "ramfb", driver "virtio-gpu-device",
    driver "virtio-keyboard-device", driver "virtio-mouse-device", driver "virtio-tablet-device",
    driver "virtio-gpu-gl-device", ("-display", none), driver "virtio-iommu-device",
    driver "intel-hda", driver "hda-duplex", driver "virtio-sound-pci", ("-audiodev", none)]

namespace Assembly

/-- A name without a comma is its own text. -/
theorem bareDevice_eq {name : String} (h : ',' ∉ name.toList) :
    bareDevice name = .option "-device" name := by
  have htext : OptionString.ofProperties [.word name] = name := by
    rw [OptionString.ofProperties, List.map_singleton, List.intercalate_singleton,
      OptionString.plain, OptionString.escape_eq_self h, String.ofList_toList]
  rw [bareDevice, device, Argument.ofProperties, htext]

theorem display_eq (o : Options) :
    display o = if o.graphic then graphicBlock ++ (if o.gl then glBlock else []) else headless := by
  have htext : OptionString.ofProperties [.word "gtk", .pair "gl" "on"] = "gtk,gl=on" := by decide
  unfold display
  simp (disch := decide) only [bareDevice_eq, Argument.ofProperties, htext, graphicBlock, glBlock,
    headless]

theorem iommuDevice_eq (iommu : Iommu) :
    iommuDevice iommu = if iommu = .virtio then virtioIommu else [] := by
  have htext : OptionString.ofProperties [.word "virtio-iommu-device", .pair "disable-legacy" "on",
      .pair "primary-bus" "pcie.0"] =
        "virtio-iommu-device,disable-legacy=on,primary-bus=pcie.0" := by
    decide
  cases iommu with
  | smmu => rfl
  | virtio => rw [if_pos rfl, iommuDevice, device, Argument.ofProperties, htext, virtioIommu]

theorem soundCard_eq (sound : Sound) :
    soundCard sound = if sound = .virtio then virtioSoundPair else hdaPair := by
  have hdevice : OptionString.ofProperties [.word "virtio-sound-pci", .pair "audiodev" "vsnd"] =
      "virtio-sound-pci,audiodev=vsnd" := by
    decide
  have hbackend : OptionString.ofProperties [.word "alsa", .pair "id" "vsnd"] = "alsa,id=vsnd" := by
    decide
  cases sound with
  | hda =>
    rw [if_neg (by decide)]
    simp (disch := decide) only [soundCard, bareDevice_eq, hdaPair]
  | virtio =>
    rw [if_pos rfl, soundCard, device, Argument.ofProperties, Argument.ofProperties, hdevice,
      hbackend, virtioSoundPair]

end Assembly

theorem alternatives_eq :
    alternatives = Assembly.display {} ++ Assembly.display { graphic := true, gl := true } ++
      (Assembly.iommuDevice .virtio ++
        (Assembly.soundCard .hda ++ Assembly.soundCard .virtio)) := by
  simp [alternatives, Assembly.display_eq, Assembly.iommuDevice_eq, Assembly.soundCard_eq]

theorem kinds_alternatives : alternatives.map Argument.kind = alternativeKinds := by
  rw [alternatives_eq]
  simp (disch := decide) [Assembly.display, Assembly.iommuDevice, Assembly.soundCard,
    Assembly.kind_option, Assembly.kind_ofProperties, Assembly.kind_device,
    Assembly.kind_bareDevice, alternativeKinds, driver]

theorem nodup_kinds_alternatives : (alternatives.map Argument.kind).Nodup := by
  rw [kinds_alternatives]
  decide

theorem lacks_of_kinds {as : List Argument} (h : ∀ a ∈ as, a.kind ∉ alternativeKinds) :
    Lacks alternatives as := by
  intro b hb
  rw [List.filter_eq_nil_iff]
  intro a ha hkind
  have hmem : a.kind ∈ alternatives.map Argument.kind :=
    of_decide_eq_true hkind ▸ List.mem_map_of_mem hb
  exact h a ha (kinds_alternatives ▸ hmem)

namespace Assembly

/-! ## 4. The sections without alternatives -/

theorem lacks_machine (o : Options) (sel : Selection) : Lacks alternatives [machine o sel] := by
  apply lacks_of_kinds
  simp (disch := decide) [machine, kind_ofProperties, alternativeKinds, driver]

theorem lacks_boot (o : Options) (env : Environment) : Lacks alternatives (boot o env) := by
  apply lacks_of_kinds
  unfold boot
  cases o.tree <;> cases o.initrd <;>
    simp (disch := decide) [kind_option, kind_bareDevice, alternativeKinds, driver]

theorem lacks_debugStub (o : Options) : Lacks alternatives (debugStub o) := by
  apply lacks_of_kinds
  unfold debugStub
  split <;> simp [alternativeKinds, driver]

theorem lacks_paravirtual (o : Options) (host : Host) :
    Lacks alternatives (paravirtual o host) := by
  apply lacks_of_kinds
  simp (disch := decide) [paravirtual, network, kind_ofProperties, kind_device, kind_bareDevice,
    alternativeKinds, driver]

theorem lacks_sharedDirectory (o : Options) : Lacks alternatives (sharedDirectory o) := by
  apply lacks_of_kinds
  unfold sharedDirectory
  split <;> simp (disch := decide) [kind_ofProperties, kind_device, alternativeKinds, driver]

theorem lacks_pluggedMemory (o : Options) (host : Host) :
    Lacks alternatives (pluggedMemory o host) := by
  apply lacks_of_kinds
  cases hsize : o.pluggedMemory with
  | none => simp [pluggedMemory, hsize]
  | some size =>
    cases hhost : host.windows with
    | true => simp [pluggedMemory, hsize, hhost]
    | false =>
      have hkind : (Argument.option "-device" (OptionString.ofProperties pluggedDevice ++
          ",requested-size=" ++ size)).kind = ("-device", some (.word "virtio-mem")) := by
        rw [Argument.kind, if_pos rfl, read_pluggedDevice]
        rfl
      rw [pluggedMemory_eq hsize hhost]
      simp (disch := decide) [hkind, kind_option, alternativeKinds, driver]

theorem lacks_crypto : Lacks alternatives crypto := by
  apply lacks_of_kinds
  simp (disch := decide) [crypto, kind_ofProperties, kind_device, alternativeKinds, driver]

theorem lacks_firstConsole : Lacks alternatives firstConsole := by
  apply lacks_of_kinds
  simp (disch := decide) [firstConsole, kind_device, kind_bareDevice, alternativeKinds, driver]

theorem lacks_storage (o : Options) : Lacks alternatives (storage o) := by
  apply lacks_of_kinds
  simp (disch := decide) [storage, kind_ofProperties, kind_device, kind_bareDevice,
    alternativeKinds, driver]

theorem lacks_watchdog : Lacks alternatives watchdog := by
  apply lacks_of_kinds
  simp (disch := decide) [watchdog, kind_option, kind_bareDevice, alternativeKinds, driver]

theorem lacks_ufs (o : Options) (env : Environment) : Lacks alternatives (ufs o env) := by
  apply lacks_of_kinds
  unfold ufs
  split <;> simp (disch := decide) [kind_device, alternativeKinds, driver]

theorem lacks_teachingDevice : Lacks alternatives teachingDevice := by
  apply lacks_of_kinds
  simp (disch := decide) [teachingDevice, kind_device, alternativeKinds, driver]

/-! ## 5. The sections with alternatives -/

/-- The alternatives of a command line. -/
def chosen (graphic gl : Bool) (iommu : Iommu) (sound : Sound) : List Argument :=
  (if graphic then graphicBlock ++ (if gl then glBlock else []) else headless) ++
    ((if iommu = .virtio then virtioIommu else []) ++
      if sound = .virtio then virtioSoundPair else hdaPair)

theorem chosen_sublist (graphic gl : Bool) (iommu : Iommu) (sound : Sound) :
    (chosen graphic gl iommu sound).Sublist alternatives := by
  have hdisplay :
      (if graphic then graphicBlock ++ (if gl then glBlock else []) else headless).Sublist
        (headless ++ (graphicBlock ++ glBlock)) := by
    split
    · refine List.Sublist.trans ?_ (List.sublist_append_right headless _)
      split
      · exact .refl _
      · exact (List.Sublist.refl graphicBlock).append (List.nil_sublist glBlock)
    · exact List.sublist_append_left _ _
  have hiommu : (if iommu = .virtio then virtioIommu else []).Sublist virtioIommu := by
    split
    · exact .refl _
    · exact List.nil_sublist _
  have hsound : (if sound = .virtio then virtioSoundPair else hdaPair).Sublist
      (hdaPair ++ virtioSoundPair) := by
    split
    · exact List.sublist_append_right _ _
    · exact List.sublist_append_left _ _
  rw [alternatives, ← List.append_assoc headless]
  exact hdisplay.append (hiommu.append hsound)

/-- The alternatives are in three sections, which hold no text of the user's. -/
theorem filter_arguments (o : Options) (sel : Selection) (env : Environment) {b : Argument}
    (hb : b ∈ alternatives) :
    (arguments o sel env).filter (·.kind = b.kind) =
      (chosen o.graphic o.gl sel.iommu sel.sound).filter (·.kind = b.kind) := by
  obtain ⟨before, middle, after, harguments, hbefore, hmiddle, hafter⟩ :
      ∃ before middle after,
        arguments o sel env = before ++ (display o ++
          (middle ++ (iommuDevice sel.iommu ++ (soundCard sel.sound ++ after)))) ∧
        Lacks alternatives before ∧ Lacks alternatives middle ∧ Lacks alternatives after := by
    refine ⟨[machine o sel] ++ boot o env, debugStub o ++ (paravirtual o env.host ++
      (sharedDirectory o ++ (pluggedMemory o env.host ++ (crypto ++ firstConsole)))),
      storage o ++ (watchdog ++ (ufs o env ++ teachingDevice)), ?_, ?_, ?_, ?_⟩
    · simp only [arguments, List.cons_append, List.append_assoc, List.nil_append]
    · exact lacks_append (lacks_machine o sel) (lacks_boot o env)
    · exact lacks_append (lacks_debugStub o) (lacks_append (lacks_paravirtual o env.host)
        (lacks_append (lacks_sharedDirectory o) (lacks_append (lacks_pluggedMemory o env.host)
          (lacks_append lacks_crypto lacks_firstConsole))))
    · exact lacks_append (lacks_storage o) (lacks_append lacks_watchdog
        (lacks_append (lacks_ufs o env) lacks_teachingDevice))
  rw [chosen, ← display_eq, ← iommuDevice_eq, ← soundCard_eq]
  simp only [harguments, List.filter_append, hbefore b hb, hmiddle b hb, hafter b hb,
    List.append_nil, List.nil_append]

section Blocks

variable {o : Options} {sel : Selection} {env : Environment} {block : List Argument}

theorem has_arguments (hblock : ∀ b ∈ block, b ∈ alternatives)
    (h : ∀ b ∈ block, b ∈ chosen o.graphic o.gl sel.iommu sel.sound) :
    Has block (arguments o sel env) := by
  intro b hb
  rw [filter_arguments o sel env (hblock b hb)]
  exact has_of_subset nodup_kinds_alternatives (chosen_sublist _ _ _ _) h b hb

theorem lacks_arguments (hblock : ∀ b ∈ block, b ∈ alternatives)
    (h : ∀ b ∈ block, b ∉ chosen o.graphic o.gl sel.iommu sel.sound) :
    Lacks block (arguments o sel env) := by
  intro b hb
  rw [filter_arguments o sel env (hblock b hb)]
  exact lacks_of_disjoint nodup_kinds_alternatives (chosen_sublist _ _ _ _) hblock h b hb

end Blocks

end Assembly

/-! ## 6. Valid configurations -/

open Argument (values)
open Assembly (valuesOf)

/-- Of the alternatives for an option of the board exactly one is on a command line, and which one
follows from the options.  The machine is the option string of `-M` as it is read. -/
structure Exclusive (o : Options) (machine : List Property) (as : List Argument) : Prop where
  /-- A controller with a number never comes with more than eight processors. -/
  gic : ∃ gic, valuesOf "gic-version" machine = [gic] ∧ values "-smp" as = [toString o.cpus] ∧
    (gic = "max" ↔ 8 < o.cpus ∨ o.exceptionLevel = 2 ∧ o.gic = 3) ∧
    (gic ≠ "max" → gic = toString o.gic ∧ o.cpus ≤ 8)
  iommu : o.iommu = "smmu" ∧ valuesOf "iommu" machine = ["smmuv3"] ∧ Lacks virtioIommu as ∨
    o.iommu = "virtio" ∧ valuesOf "iommu" machine = [] ∧ Has virtioIommu as
  sound : o.sound = "hda" ∧ Has hdaPair as ∧ Lacks virtioSoundPair as ∨
    o.sound = "virtio" ∧ Lacks hdaPair as ∧ Has virtioSoundPair as
  display : o.graphic = false ∧ Has headless as ∧ Lacks graphicBlock as ∨
    o.graphic = true ∧ Lacks headless as ∧ Has graphicBlock as
  gl : o.graphic = true ∧ o.gl = true ∧ Has glBlock as ∨
    (o.graphic = false ∨ o.gl = false) ∧ Lacks glBlock as

section

variable {o : Options} {sel : Selection} {env : Environment}

theorem exclusive_gic (hgic : sel.gic =
      if 8 < o.cpus ∨ o.exceptionLevel = 2 ∧ o.gic = 3 then .max else .version o.gic) :
    ∃ gic, valuesOf "gic-version" (Assembly.machineReading o sel) = [gic] ∧
      values "-smp" (Assembly.arguments o sel env) = [toString o.cpus] ∧
      (gic = "max" ↔ 8 < o.cpus ∨ o.exceptionLevel = 2 ∧ o.gic = 3) ∧
      (gic ≠ "max" → gic = toString o.gic ∧ o.cpus ≤ 8) := by
  have hsmp : values "-smp" (Assembly.arguments o sel env) = [toString o.cpus] := by
    rw [Assembly.values_boot (by decide)]
    exact (Assembly.values_of_boot o env).1
  refine ⟨sel.gic.text, (Assembly.valuesOf_machine o sel).2.1, hsmp, ?_⟩
  rw [hgic]
  split
  next hmax => exact ⟨iff_of_true rfl hmax, fun hne => absurd rfl hne⟩
  next hmax =>
    have hcpus : o.cpus ≤ 8 := UInt32.not_lt.mp fun hlt => hmax (.inl hlt)
    exact ⟨iff_of_false (Assembly.toString_ne_max o.gic) hmax, fun _ => ⟨rfl, hcpus⟩⟩

theorem exclusive_iommu
    (h : o.iommu = "smmu" ∧ sel.iommu = .smmu ∨ o.iommu = "virtio" ∧ sel.iommu = .virtio) :
    o.iommu = "smmu" ∧ valuesOf "iommu" (Assembly.machineReading o sel) = ["smmuv3"] ∧
        Lacks virtioIommu (Assembly.arguments o sel env) ∨
      o.iommu = "virtio" ∧ valuesOf "iommu" (Assembly.machineReading o sel) = [] ∧
        Has virtioIommu (Assembly.arguments o sel env) := by
  have hvalues := (Assembly.valuesOf_machine o sel).1
  have hblock : ∀ b ∈ virtioIommu, b ∈ alternatives := by decide
  rcases h with ⟨hname, hiommu⟩ | ⟨hname, hiommu⟩
  · rw [hiommu] at hvalues
    refine .inl ⟨hname, hvalues, Assembly.lacks_arguments hblock ?_⟩
    rw [hiommu]
    cases o.graphic <;> cases o.gl <;> cases sel.sound <;> decide
  · rw [hiommu] at hvalues
    refine .inr ⟨hname, hvalues, Assembly.has_arguments hblock ?_⟩
    rw [hiommu]
    cases o.graphic <;> cases o.gl <;> cases sel.sound <;> decide

theorem exclusive_sound
    (h : o.sound = "hda" ∧ sel.sound = .hda ∨ o.sound = "virtio" ∧ sel.sound = .virtio) :
    o.sound = "hda" ∧ Has hdaPair (Assembly.arguments o sel env) ∧
        Lacks virtioSoundPair (Assembly.arguments o sel env) ∨
      o.sound = "virtio" ∧ Lacks hdaPair (Assembly.arguments o sel env) ∧
        Has virtioSoundPair (Assembly.arguments o sel env) := by
  have hhda : ∀ b ∈ hdaPair, b ∈ alternatives := by decide
  have hvirtio : ∀ b ∈ virtioSoundPair, b ∈ alternatives := by decide
  rcases h with ⟨hname, hsound⟩ | ⟨hname, hsound⟩
  · refine .inl ⟨hname, Assembly.has_arguments hhda ?_, Assembly.lacks_arguments hvirtio ?_⟩ <;>
    · rw [hsound]
      cases o.graphic <;> cases o.gl <;> cases sel.iommu <;> decide
  · refine .inr ⟨hname, Assembly.lacks_arguments hhda ?_, Assembly.has_arguments hvirtio ?_⟩ <;>
    · rw [hsound]
      cases o.graphic <;> cases o.gl <;> cases sel.iommu <;> decide

theorem exclusive_display :
    o.graphic = false ∧ Has headless (Assembly.arguments o sel env) ∧
        Lacks graphicBlock (Assembly.arguments o sel env) ∨
      o.graphic = true ∧ Lacks headless (Assembly.arguments o sel env) ∧
        Has graphicBlock (Assembly.arguments o sel env) := by
  have hheadless : ∀ b ∈ headless, b ∈ alternatives := by decide
  have hgraphic : ∀ b ∈ graphicBlock, b ∈ alternatives := by decide
  cases h : o.graphic with
  | false =>
    refine .inl ⟨rfl, Assembly.has_arguments hheadless ?_, Assembly.lacks_arguments hgraphic ?_⟩ <;>
    · rw [h]
      cases o.gl <;> cases sel.iommu <;> cases sel.sound <;> decide
  | true =>
    refine .inr ⟨rfl, Assembly.lacks_arguments hheadless ?_, Assembly.has_arguments hgraphic ?_⟩ <;>
    · rw [h]
      cases o.gl <;> cases sel.iommu <;> cases sel.sound <;> decide

theorem exclusive_gl :
    o.graphic = true ∧ o.gl = true ∧ Has glBlock (Assembly.arguments o sel env) ∨
      (o.graphic = false ∨ o.gl = false) ∧ Lacks glBlock (Assembly.arguments o sel env) := by
  have hblock : ∀ b ∈ glBlock, b ∈ alternatives := by decide
  cases hgraphic : o.graphic with
  | false =>
    refine .inr ⟨.inl rfl, Assembly.lacks_arguments hblock ?_⟩
    rw [hgraphic]
    cases o.gl <;> cases sel.iommu <;> cases sel.sound <;> decide
  | true =>
    cases hgl : o.gl with
    | false =>
      refine .inr ⟨.inr rfl, Assembly.lacks_arguments hblock ?_⟩
      rw [hgraphic, hgl]
      cases sel.iommu <;> cases sel.sound <;> decide
    | true =>
      refine .inl ⟨rfl, rfl, Assembly.has_arguments hblock ?_⟩
      rw [hgraphic, hgl]
      cases sel.iommu <;> cases sel.sound <;> decide

end

/-- The valid configurations are those that have a command line, any other is refused with the error
of the first condition that it violates, and on a command line the alternatives exclude each
other. -/
theorem configured_iff_valid (o : Options) (env : Environment) :
    ((∃ i, configured o env = .ok i) ↔ Valid o env.version) ∧
      match configured o env with
      | .error e => (violations o env.version).head? = some e
      | .ok i => ∃ as machine, Argument.read i.args = some as ∧
          (values "-M" as).map OptionString.read = [machine] ∧ Exclusive o machine as := by
  have hfails := failsFirst_configured o env
  refine ⟨by rw [hfails.ok_iff, violations_eq_nil_iff], ?_⟩
  cases h : configured o env with
  | error e => exact (hfails e).mp h
  | ok i =>
    obtain ⟨sel, hresolve, hassemble⟩ := bind_eq_ok.mp h
    obtain ⟨hgic, hiommu, hsound⟩ := Selection.resolve_ok hresolve
    exact ⟨Assembly.arguments o sel env, Assembly.machineReading o sel,
      Assembly.read_assembled hassemble, Assembly.read_machine o sel env, exclusive_gic hgic,
      exclusive_iommu hiommu, exclusive_sound hsound, exclusive_display, exclusive_gl⟩

end VirtBoard.Qemu
