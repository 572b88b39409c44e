import VirtBoard.Proofs.Qemu.OptionNames
import VirtBoard.Proofs.Qemu.UserText
import VirtBoard.Proofs.Text.Decimals

/-!
# Settings in a command line

A command line carries a fixed set of the board's settings and loses none of them: two
configurations get the same command line exactly if they agree on all of these settings, whatever
characters their texts are made of.
-/

namespace VirtBoard.Qemu.Assembly

open Board
open Argument (name values values_eq_nil)

/-! ## 1. Texts of the choices -/

theorem toString_ne_max (n : UInt32) : toString n ≠ "max" := by
  intro h
  have hmem : 'm' ∈ (toString n.toNat).toList := by
    have htext : toString n.toNat = "max" := h
    rw [htext]
    decide
  exact absurd (Text.isDigit_of_mem_toString hmem) (by decide)

theorem gicText_inj {g g' : Gic} (h : g.text = g'.text) : g = g' := by
  cases g with
  | version m =>
    cases g' with
    | version n => rw [Text.toString_inj_uInt32 h]
    | max => exact absurd h (toString_ne_max m)
  | max =>
    cases g' with
    | version n => exact absurd h.symm (toString_ne_max n)
    | max => rfl

theorem toList_map_inj {α β : Type} {f : α → β} (hf : ∀ a b, f a = f b → a = b) {x y : Option α}
    (h : (x.map f).toList = (y.map f).toList) : x = y := by
  have hhead : x.map f = y.map f := by simpa using congrArg List.head? h
  exact Option.map_injective (fun a b => hf a b) hhead

theorem path?_inj {p q : Option Path} (h : (p.map Path.text).toList = (q.map Path.text).toList) :
    p = q :=
  toList_map_inj (fun _ _ => Path.ext) h

/-! ## 2. The settings -/

/-- Two configurations agree on every setting that a command line for an environment carries.  Four
settings are carried only under a condition. -/
structure SameSettings (env : Environment) (o₁ o₂ : Options) (sel₁ sel₂ : Selection) : Prop where
  gic : sel₁.gic = sel₂.gic
  level : sel₁.level = sel₂.level
  iommu : sel₁.iommu = sel₂.iommu
  sound : sel₁.sound = sel₂.sound
  cpus : o₁.cpus = o₂.cpus
  memory : o₁.memory = o₂.memory
  debug : o₁.debug = o₂.debug
  graphic : o₁.graphic = o₂.graphic
  tap : o₁.tap = o₂.tap
  bootArgs : o₁.bootArgs = o₂.bootArgs
  block : o₁.block = o₂.block
  scsi : o₁.scsi = o₂.scsi
  flash : o₁.flash = o₂.flash
  emmc : o₁.emmc = o₂.emmc
  nvme : o₁.nvme = o₂.nvme
  dumpTree : o₁.dumpTree = o₂.dumpTree
  initrd : o₁.initrd = o₂.initrd
  share : o₁.share = o₂.share
  tree : o₁.tree = o₂.tree
  sshForward : o₁.tap = false → o₁.sshForward = o₂.sshForward
  gl : o₁.graphic = true → o₁.gl = o₂.gl
  pluggedMemory : env.host.windows = false → o₁.pluggedMemory = o₂.pluggedMemory
  ufs : Version.ufsMin ≤ env.version → o₁.ufs = o₂.ufs

/-! ## 3. Settings that show in the names of the options -/

namespace Shape

theorem debug_iff (s : Shape) : "-S" ∈ s.optionNames ↔ s.debug = true := by
  simp [optionNames, bootNames, displayNames, paravirtualNames, storageNames,
    apply_ite ("-S" ∈ ·), apply_ite ("-S" = ·)]

theorem graphic_iff (s : Shape) : "-serial" ∈ s.optionNames ↔ s.graphic = true := by
  simp [optionNames, bootNames, displayNames, paravirtualNames, storageNames,
    apply_ite ("-serial" ∈ ·), apply_ite ("-serial" = ·)]

theorem gl_iff (s : Shape) : "-display" ∈ s.optionNames ↔ s.graphic = true ∧ s.gl = true := by
  simp [optionNames, bootNames, displayNames, paravirtualNames, storageNames,
    apply_ite ("-display" ∈ ·), apply_ite ("-display" = ·)]

theorem sound_iff (s : Shape) : "-audiodev" ∈ s.optionNames ↔ s.sound = .virtio := by
  have hsound : s.sound ≠ .hda ↔ s.sound = .virtio := by cases s.sound <;> decide
  simp [optionNames, bootNames, displayNames, paravirtualNames, storageNames,
    apply_ite ("-audiodev" ∈ ·), apply_ite ("-audiodev" = ·), hsound]

theorem optionNames_inj {s t : Shape} (h : s.optionNames = t.optionNames) :
    s.debug = t.debug ∧ s.graphic = t.graphic ∧ (s.graphic = true → s.gl = t.gl) ∧
      s.sound = t.sound := by
  have hdebug : s.debug = true ↔ t.debug = true := by
    rw [← debug_iff s, h, debug_iff t]
  have hgraphic : s.graphic = true ↔ t.graphic = true := by
    rw [← graphic_iff s, h, graphic_iff t]
  have hgl : s.graphic = true ∧ s.gl = true ↔ t.graphic = true ∧ t.gl = true := by
    rw [← gl_iff s, h, gl_iff t]
  have hsound : s.sound = .virtio ↔ t.sound = .virtio := by
    rw [← sound_iff s, h, sound_iff t]
  refine ⟨Bool.eq_iff_iff.mpr hdebug, Bool.eq_iff_iff.mpr hgraphic, ?_, ?_⟩
  · intro hg
    apply Bool.eq_iff_iff.mpr
    rwa [and_iff_right hg, and_iff_right (hgraphic.mp hg)] at hgl
  · cases hs : s.sound with
    | virtio => exact (hsound.mp hs).symm
    | hda =>
      cases ht : t.sound with
      | hda => rfl
      | virtio => rw [hsound.mpr ht] at hs; cases hs

end Shape

/-! ## 4. Settings that show in values -/

/-- The options of the section that boots the kernel, but for those that no setting is in. -/
def bootOptions : List String := ["-smp", "-m", "-append", "-dtb", "-initrd"]

theorem values_boot {n : String} (hn : n ∈ bootOptions) (o : Options) (sel : Selection)
    (env : Environment) : values n (arguments o sel env) = values n (boot o env) := by
  simp only [bootOptions, List.mem_cons, List.not_mem_nil, or_false] at hn
  rcases hn with rfl | rfl | rfl | rfl | rfl <;>
    simp [values_of_sections, fixedOptions, values_eq_nil, names_paravirtual,
      names_sharedDirectory, names_pluggedMemory, names_crypto, names_storage, names_ufs]

theorem values_of_boot (o : Options) (env : Environment) :
    values "-smp" (boot o env) = [toString o.cpus] ∧
      values "-m" (boot o env) = [toString o.memory] ∧
      values "-append" (boot o env) = [bootArgs o env.host] ∧
      values "-dtb" (boot o env) = (o.tree.map Path.text).toList ∧
      values "-initrd" (boot o env) = (o.initrd.map Path.text).toList := by
  unfold boot
  cases o.tree <;> cases o.initrd <;> exact ⟨rfl, rfl, rfl, rfl, rfl⟩

theorem boot_inj {o₁ o₂ : Options} {env : Environment}
    (h : ∀ n ∈ bootOptions, values n (boot o₁ env) = values n (boot o₂ env)) :
    o₁.cpus = o₂.cpus ∧ o₁.memory = o₂.memory ∧ bootArgs o₁ env.host = bootArgs o₂ env.host ∧
      o₁.tree = o₂.tree ∧ o₁.initrd = o₂.initrd := by
  obtain ⟨hcpus₁, hmemory₁, happend₁, htree₁, hinitrd₁⟩ := values_of_boot o₁ env
  obtain ⟨hcpus₂, hmemory₂, happend₂, htree₂, hinitrd₂⟩ := values_of_boot o₂ env
  rw [h _ (by decide), hcpus₂] at hcpus₁
  rw [h _ (by decide), hmemory₂] at hmemory₁
  rw [h _ (by decide), happend₂] at happend₁
  rw [h _ (by decide), htree₂] at htree₁
  rw [h _ (by decide), hinitrd₂] at hinitrd₁
  exact ⟨(Text.toString_inj_uInt32 (List.cons.inj hcpus₁).1).symm,
    (Text.toString_inj_uInt32 (List.cons.inj hmemory₁).1).symm, (List.cons.inj happend₁).1.symm,
    (path?_inj htree₁).symm, (path?_inj hinitrd₁).symm⟩

/-- What is added to the user's kernel arguments hangs on settings that show elsewhere. -/
theorem bootArgs_inj {o₁ o₂ : Options} {host : Host} (hgraphic : o₁.graphic = o₂.graphic)
    (hshare : o₁.share = o₂.share) (h : bootArgs o₁ host = bootArgs o₂ host) :
    o₁.bootArgs = o₂.bootArgs := by
  unfold bootArgs at h
  rw [hgraphic, hshare] at h
  exact (String.append_left_inj _).mp ((String.append_left_inj _).mp h)

/-- The values of a key among properties. -/
def valuesOf (key : String) (ps : List Property) : List String :=
  ps.filterMap fun
    | .word _ => none
    | .pair k v => if k = key then some v else none

theorem valuesOf_machine (o : Options) (sel : Selection) :
    valuesOf "iommu" (machineReading o sel) = (if sel.iommu = .smmu then ["smmuv3"] else []) ∧
      valuesOf "gic-version" (machineReading o sel) = [sel.gic.text] ∧
      valuesOf "dumpdtb" (machineReading o sel) = (o.dumpTree.map Path.text).toList ∧
      valuesOf "virtualization" (machineReading o sel) =
        (if sel.level = .el2 then ["on"] else []) ∧
      valuesOf "secure" (machineReading o sel) = (if sel.level = .el3 then ["on"] else []) := by
  unfold machineReading
  cases sel.iommu <;> cases o.dumpTree <;> cases sel.level <;> exact ⟨rfl, rfl, rfl, rfl, rfl⟩

theorem optionalWord_inj {p q : Prop} [Decidable p] [Decidable q] {word : String}
    (h : (if p then [word] else []) = if q then [word] else []) : p ↔ q := by
  by_cases hp : p <;> by_cases hq : q <;> simp [hp, hq] at h ⊢

theorem machineReading_inj {o₁ o₂ : Options} {sel₁ sel₂ : Selection}
    (h : machineReading o₁ sel₁ = machineReading o₂ sel₂) :
    sel₁.iommu = sel₂.iommu ∧ sel₁.gic = sel₂.gic ∧ o₁.dumpTree = o₂.dumpTree ∧
      sel₁.level = sel₂.level := by
  obtain ⟨hiommu₁, hgic₁, hdump₁, hel2₁, hel3₁⟩ := valuesOf_machine o₁ sel₁
  obtain ⟨hiommu₂, hgic₂, hdump₂, hel2₂, hel3₂⟩ := valuesOf_machine o₂ sel₂
  rw [h] at hiommu₁ hgic₁ hdump₁ hel2₁ hel3₁
  have hiommu := optionalWord_inj (hiommu₁.symm.trans hiommu₂)
  have hgic := hgic₁.symm.trans hgic₂
  have hdump := hdump₁.symm.trans hdump₂
  have hel2 := optionalWord_inj (hel2₁.symm.trans hel2₂)
  have hel3 := optionalWord_inj (hel3₁.symm.trans hel3₂)
  refine ⟨?_, gicText_inj (List.cons.inj hgic).1, path?_inj hdump, ?_⟩
  · revert hiommu
    cases sel₁.iommu <;> cases sel₂.iommu <;> decide
  · revert hel2 hel3
    cases sel₁.level <;> cases sel₂.level <;> decide

theorem networkReading_inj {o₁ o₂ : Options} {host : Host}
    (h : networkReading o₁ host = networkReading o₂ host) :
    o₁.tap = o₂.tap ∧ (o₁.tap = false → o₁.sshForward = o₂.sshForward) := by
  cases ht₁ : o₁.tap with
  | true =>
    cases ht₂ : o₂.tap with
    | true => exact ⟨rfl, fun hf => by cases hf⟩
    | false => simp [networkReading, ht₁, ht₂] at h
  | false =>
    cases ht₂ : o₂.tap with
    | true => simp [networkReading, ht₁, ht₂] at h
    | false =>
      have hforward : "tcp::" ++ toString o₁.sshForward ++ "-:22" =
          "tcp::" ++ toString o₂.sshForward ++ "-:22" := by
        simpa [networkReading, ht₁, ht₂] using h
      have hnumber := (String.append_right_inj _).mp ((String.append_left_inj _).mp hforward)
      exact ⟨rfl, fun _ => Text.toString_inj_uInt16 hnumber⟩

theorem driveReading_inj {d d' id : String} (h : driveReading d id = driveReading d' id) :
    d = d' := by
  have hfile : d ++ ".qcow2" = d' ++ ".qcow2" := by simpa [driveReading] using h
  exact (String.append_left_inj _).mp hfile

theorem flashReading_inj {d d' : String} (h : flashReading d = flashReading d') : d = d' := by
  have hfile : d ++ ".qcow2" = d' ++ ".qcow2" := by simpa [flashReading] using h
  exact (String.append_left_inj _).mp hfile

theorem shareReading_inj {p q : Path} (h : shareReading p = shareReading q) : p = q := by
  have htext : p.text = q.text := by simpa [shareReading] using h
  exact Path.ext htext

theorem pluggedMemory_inj {o₁ o₂ : Options} {host : Host} (hhost : host.windows = false)
    (h : values "-object" (pluggedMemory o₁ host) = values "-object" (pluggedMemory o₂ host)) :
    o₁.pluggedMemory = o₂.pluggedMemory := by
  unfold pluggedMemory at h
  rw [hhost] at h
  cases hs₁ : o₁.pluggedMemory with
  | none =>
    cases hs₂ : o₂.pluggedMemory with
    | none => rfl
    | some size => simp [hs₁, hs₂] at h
  | some size =>
    cases hs₂ : o₂.pluggedMemory with
    | none => simp [hs₁, hs₂] at h
    | some size' =>
      have hsize : size = size' := by simpa [hs₁, hs₂] using h
      rw [hsize]

/-! ## 5. Equal command lines -/

section

variable {o₁ o₂ : Options} {sel₁ sel₂ : Selection} {env : Environment}

theorem sameSettings_of_arguments (h : arguments o₁ sel₁ env = arguments o₂ sel₂ env) :
    SameSettings env o₁ o₂ sel₁ sel₂ := by
  have hnames : (shape o₁ sel₁ env).optionNames = (shape o₂ sel₂ env).optionNames := by
    rw [← names_arguments, ← names_arguments, h]
  have hvalues (n : String) :
      values n (arguments o₁ sel₁ env) = values n (arguments o₂ sel₂ env) := by
    rw [h]
  have hmachine : machineReading o₁ sel₁ = machineReading o₂ sel₂ := by
    have hread := congrArg (List.map OptionString.read) (hvalues "-M")
    rw [read_machine, read_machine] at hread
    exact (List.cons.inj hread).1
  have hboot (n : String) (hn : n ∈ bootOptions) :
      values n (boot o₁ env) = values n (boot o₂ env) := by
    rw [← values_boot hn o₁ sel₁, ← values_boot hn o₂ sel₂, h]
  have hnetwork : networkReading o₁ env.host = networkReading o₂ env.host := by
    have hread := congrArg (List.map OptionString.read) (hvalues "-netdev")
    rw [values_network, values_network] at hread
    have htext (o : Options) : values "-netdev" (paravirtual o env.host) =
        [OptionString.ofProperties (networkReading o env.host)] := rfl
    rw [htext, htext, List.map_singleton, List.map_singleton, read_networkReading,
      read_networkReading] at hread
    exact (List.cons.inj hread).1
  have hdrives := congrArg (List.map OptionString.read) (hvalues "-drive")
  rw [read_drives, read_drives] at hdrives
  have hshares := congrArg (List.map OptionString.read) (hvalues "-fsdev")
  rw [read_shares, read_shares] at hshares
  have hobjects : values "-object" (pluggedMemory o₁ env.host) =
      values "-object" (pluggedMemory o₂ env.host) := by
    have hall := hvalues "-object"
    rw [values_objects, values_objects] at hall
    exact List.append_cancel_right hall
  obtain ⟨hdebug, hgraphic, hgl, hsound⟩ := Shape.optionNames_inj hnames
  obtain ⟨hiommu, hgic, hdump, hlevel⟩ := machineReading_inj hmachine
  obtain ⟨hcpus, hmemory, happend, htree, hinitrd⟩ := boot_inj hboot
  obtain ⟨htap, hssh⟩ := networkReading_inj hnetwork
  have hshare := toList_map_inj (fun _ _ => shareReading_inj) hshares
  simp only [List.cons_append, List.nil_append, List.cons.injEq] at hdrives
  obtain ⟨hblock, hscsi, hflash, hemmc, hnvme, hufs⟩ := hdrives
  exact {
    gic := hgic, level := hlevel, iommu := hiommu, sound := hsound, cpus := hcpus,
    memory := hmemory, debug := hdebug, graphic := hgraphic, tap := htap,
    bootArgs := bootArgs_inj hgraphic hshare happend, block := driveReading_inj hblock,
    scsi := driveReading_inj hscsi, flash := flashReading_inj hflash,
    emmc := driveReading_inj hemmc, nvme := driveReading_inj hnvme, dumpTree := hdump,
    initrd := hinitrd, share := hshare, tree := htree, sshForward := hssh, gl := hgl,
    pluggedMemory := fun hhost => pluggedMemory_inj hhost hobjects
    ufs := fun hversion => by
      have hhas : hasUfs env := hversion
      rw [if_pos hhas, if_pos hhas] at hufs
      exact driveReading_inj (List.cons.inj hufs).1 }

theorem display_congr (hgraphic : o₁.graphic = o₂.graphic)
    (hgl : o₁.graphic = true → o₁.gl = o₂.gl) : display o₁ = display o₂ := by
  unfold display
  rw [← hgraphic]
  by_cases hg : o₁.graphic = true
  · rw [if_pos hg, if_pos hg, hgl hg]
  · rw [if_neg hg, if_neg hg]

theorem network_congr {host : Host} (htap : o₁.tap = o₂.tap)
    (hssh : o₁.tap = false → o₁.sshForward = o₂.sshForward) :
    network o₁ host = network o₂ host := by
  unfold network
  rw [← htap]
  by_cases ht : o₁.tap = true
  · rw [if_pos ht, if_pos ht]
  · rw [if_neg ht, if_neg ht, hssh (Bool.eq_false_iff.mpr ht)]

theorem pluggedMemory_congr {host : Host}
    (hsize : host.windows = false → o₁.pluggedMemory = o₂.pluggedMemory) :
    pluggedMemory o₁ host = pluggedMemory o₂ host := by
  unfold pluggedMemory
  by_cases hw : host.windows = true
  · cases o₁.pluggedMemory <;> cases o₂.pluggedMemory <;> simp [hw]
  · rw [hsize (Bool.eq_false_iff.mpr hw)]

theorem arguments_of_sameSettings (h : SameSettings env o₁ o₂ sel₁ sel₂) :
    arguments o₁ sel₁ env = arguments o₂ sel₂ env := by
  have hmachine : machine o₁ sel₁ = machine o₂ sel₂ := by
    unfold machine
    rw [h.iommu, h.gic, h.dumpTree, h.level]
  have hboot : boot o₁ env = boot o₂ env := by
    unfold boot bootArgs
    rw [h.cpus, h.memory, h.bootArgs, h.graphic, h.share, h.tree, h.initrd]
  have hdebug : debugStub o₁ = debugStub o₂ := by
    unfold debugStub
    rw [h.debug]
  have hparavirtual : paravirtual o₁ env.host = paravirtual o₂ env.host := by
    unfold paravirtual
    rw [h.block, h.scsi, network_congr h.tap h.sshForward]
  have hshare : sharedDirectory o₁ = sharedDirectory o₂ := by
    unfold sharedDirectory
    rw [h.share]
  have hstorage : storage o₁ = storage o₂ := by
    unfold storage
    rw [h.flash, h.emmc, h.nvme]
  have hufs : ufs o₁ env = ufs o₂ env := by
    unfold ufs
    by_cases hversion : hasUfs env
    · rw [if_pos hversion, if_pos hversion, h.ufs hversion]
    · rw [if_neg hversion, if_neg hversion]
  unfold arguments
  rw [hmachine, hboot, display_congr h.graphic h.gl, hdebug, hparavirtual, hshare,
    pluggedMemory_congr h.pluggedMemory, h.iommu, h.sound, hstorage, hufs]

end

/-- Two configurations have the same command line in an environment exactly if they agree on the
settings that it carries there. -/
theorem args_eq_iff_sameSettings {o₁ o₂ : Options} {sel₁ sel₂ : Selection} {env : Environment}
    {i₁ i₂ : Invocation} (h₁ : Invocation.assemble o₁ sel₁ env = .ok i₁)
    (h₂ : Invocation.assemble o₂ sel₂ env = .ok i₂) :
    i₁.args = i₂.args ↔ SameSettings env o₁ o₂ sel₁ sel₂ := by
  constructor
  · intro hargs
    have hread : some (arguments o₁ sel₁ env) = some (arguments o₂ sel₂ env) := by
      rw [← read_assembled h₁, ← read_assembled h₂, hargs]
    exact sameSettings_of_arguments (Option.some.inj hread)
  · intro hsame
    rw [assemble_ok h₁, assemble_ok h₂, arguments_of_sameSettings hsame]

/-- Kernel arguments that spell what a shared directory would add to them. -/
def spelledShare : Options := { bootArgs := "quiet 9p.tag=hostshare 9p.mount=host" }

/-- The same kernel arguments from a directory that is really shared. -/
def realShare : Options := { bootArgs := "quiet", share := some ⟨"x"⟩ }

theorem spelled_share_is_told_apart :
    ∃ i₁ i₂, Invocation.assemble spelledShare ⟨.max, .el1, .smmu, .hda⟩ { version := ⟨8, 2, 0⟩ } =
        .ok i₁ ∧
      Invocation.assemble realShare ⟨.max, .el1, .smmu, .hda⟩ { version := ⟨8, 2, 0⟩ } = .ok i₂ ∧
      bootArgs spelledShare {} = bootArgs realShare {} ∧
      (i₁.args = i₂.args ↔ SameSettings { version := ⟨8, 2, 0⟩ } spelledShare realShare
        ⟨.max, .el1, .smmu, .hda⟩ ⟨.max, .el1, .smmu, .hda⟩) ∧
      i₁.args ≠ i₂.args := by
  obtain ⟨i₁, hi₁⟩ : ∃ i, Invocation.assemble spelledShare ⟨.max, .el1, .smmu, .hda⟩
      { version := ⟨8, 2, 0⟩ } = .ok i := ⟨_, rfl⟩
  obtain ⟨i₂, hi₂⟩ : ∃ i, Invocation.assemble realShare ⟨.max, .el1, .smmu, .hda⟩
      { version := ⟨8, 2, 0⟩ } = .ok i := ⟨_, rfl⟩
  have hiff := args_eq_iff_sameSettings hi₁ hi₂
  refine ⟨i₁, i₂, hi₁, hi₂, by decide, hiff, fun hargs => ?_⟩
  have hshare := (hiff.mp hargs).share
  cases hshare

end VirtBoard.Qemu.Assembly
