import VirtBoard.Proofs.Qemu.ArgumentReading
import VirtBoard.Proofs.Qemu.OptionReading

/-!
# User text in option strings

The names of the disks, the path of a dump and the path of the shared directory go into option
strings.  Whatever characters they hold, the emulator reads each of these strings as the properties
that the board means.
-/

namespace VirtBoard.Qemu.Assembly

open Board
open Argument (name values values_eq_nil)

/-! ## 1. Where the option strings stand -/

/-- The options of the sections that hold no text and no number of the user's. -/
def fixedOptions : List String :=
  ["-device", "-chardev", "-audiodev", "-serial", "-display", "-nographic", "-S", "-s",
    "-watchdog-action"]

theorem values_of_fixed {n : String} (hn : n ∉ fixedOptions) {as : List Argument}
    (h : ∀ m ∈ as.map name, m ∈ fixedOptions) : values n as = [] :=
  values_eq_nil fun hm => hn (h n hm)

-- Any other option stands in one of eight sections.
theorem values_of_sections {n : String} (hn : n ∉ fixedOptions) (o : Options) (sel : Selection)
    (env : Environment) :
    values n (arguments o sel env) =
      values n [machine o sel] ++ values n (boot o env) ++ values n (paravirtual o env.host) ++
        values n (sharedDirectory o) ++ values n (pluggedMemory o env.host) ++ values n crypto ++
        values n (storage o) ++ values n (ufs o env) := by
  have hdisplay : values n (display o) = [] := by
    apply values_of_fixed hn
    rw [names_display]
    split
    · split <;> decide
    · decide
  have hdebug : values n (debugStub o) = [] := by
    apply values_of_fixed hn
    rw [names_debugStub]
    split <;> decide
  have hconsole : values n firstConsole = [] := values_of_fixed hn (by decide)
  have hiommu : values n (iommuDevice sel.iommu) = [] := by
    apply values_of_fixed hn
    rw [names_iommuDevice]
    split <;> decide
  have hsound : values n (soundCard sel.sound) = [] := by
    apply values_of_fixed hn
    rw [names_soundCard]
    split <;> decide
  have hwatchdog : values n watchdog = [] := values_of_fixed hn (by decide)
  have hteaching : values n teachingDevice = [] := values_of_fixed hn (by decide)
  rw [values_arguments, hdisplay, hdebug, hconsole, hiommu, hsound, hwatchdog, hteaching]
  simp only [List.append_nil, List.nil_append, List.append_assoc]

theorem values_machine (o : Options) (sel : Selection) (env : Environment) :
    values "-M" (arguments o sel env) = values "-M" [machine o sel] := by
  simp [values_of_sections, fixedOptions, values_eq_nil, names_boot, names_paravirtual,
    names_sharedDirectory, names_pluggedMemory, names_crypto, names_storage, names_ufs]

theorem values_drives (o : Options) (sel : Selection) (env : Environment) :
    values "-drive" (arguments o sel env) =
      values "-drive" (paravirtual o env.host) ++ values "-drive" (storage o) ++
        values "-drive" (ufs o env) := by
  simp [values_of_sections, fixedOptions, values_eq_nil, names_boot, names_sharedDirectory,
    names_pluggedMemory, names_crypto]

theorem values_shares (o : Options) (sel : Selection) (env : Environment) :
    values "-fsdev" (arguments o sel env) = values "-fsdev" (sharedDirectory o) := by
  simp [values_of_sections, fixedOptions, values_eq_nil, names_boot, names_paravirtual,
    names_pluggedMemory, names_crypto, names_storage, names_ufs]

theorem values_network (o : Options) (sel : Selection) (env : Environment) :
    values "-netdev" (arguments o sel env) = values "-netdev" (paravirtual o env.host) := by
  simp [values_of_sections, fixedOptions, values_eq_nil, names_boot, names_sharedDirectory,
    names_pluggedMemory, names_crypto, names_storage, names_ufs]

theorem values_objects (o : Options) (sel : Selection) (env : Environment) :
    values "-object" (arguments o sel env) =
      values "-object" (pluggedMemory o env.host) ++ values "-object" crypto := by
  simp [values_of_sections, fixedOptions, values_eq_nil, names_boot, names_paravirtual,
    names_sharedDirectory, names_storage, names_ufs]

/-! ## 2. What the emulator reads there -/

/-- A drive that a device refers to, as the emulator has to read it. -/
def driveReading (disk id : String) : List Property :=
  [.pair "if" "none", .pair "file" (disk ++ ".qcow2"), .pair "format" "qcow2", .pair "id" id]

/-- The drive with the flash memory. -/
def flashReading (disk : String) : List Property :=
  [.pair "if" "pflash", .pair "file" (disk ++ ".qcow2"), .pair "format" "qcow2",
    .pair "index" "1"]

/-- The directory shared with the guest. -/
def shareReading (dir : Path) : List Property :=
  [.word "local", .pair "security_model" "passthrough", .pair "id" "fsdev0",
    .pair "path" dir.text]

/-- The machine: the interrupt controller, the dump if one is wanted, and what the exception level
needs. -/
def machineReading (o : Options) (sel : Selection) : List Property :=
  [.word "virt", .pair "acpi" "on"] ++
    (if sel.iommu = .smmu then [.pair "iommu" "smmuv3"] else []) ++
    [.pair "its" "on", .pair "gic-version" sel.gic.text] ++
    (o.dumpTree.map fun p => Property.pair "dumpdtb" p.text).toList ++
    match sel.level with
    | .el1 => []
    | .el2 => [.pair "virtualization" "on"]
    | .el3 => [.pair "secure" "on"]

/-- The network as the emulator has to read it. -/
def networkReading (o : Options) (host : Host) : List Property :=
  (if o.tap then
    [.word "tap", .pair "ifname" "tap0"] ++
      if host.windows then [] else [.pair "script" "no", .pair "downscript" "no"]
  else [.word "user", .pair "hostfwd" ("tcp::" ++ toString o.sshForward ++ "-:22")]) ++
    [.pair "id" "net0"]

theorem read_driveReading (disk id : String) :
    OptionString.read (OptionString.ofProperties (driveReading disk id)) =
      driveReading disk id := by
  apply OptionString.read_ofProperties
  simp only [driveReading, List.forall_mem_cons, OptionString.readable_pair]
  exact ⟨by decide, by decide, by decide, by decide, by simp⟩

theorem read_flashReading (disk : String) :
    OptionString.read (OptionString.ofProperties (flashReading disk)) = flashReading disk := by
  apply OptionString.read_ofProperties
  simp only [flashReading, List.forall_mem_cons, OptionString.readable_pair]
  exact ⟨by decide, by decide, by decide, by decide, by simp⟩

theorem read_shareReading (dir : Path) :
    OptionString.read (OptionString.ofProperties (shareReading dir)) = shareReading dir := by
  apply OptionString.read_ofProperties
  simp only [shareReading, List.forall_mem_cons, OptionString.readable_pair,
    OptionString.readable_word]
  exact ⟨by decide, by decide, by decide, by decide, by simp⟩

theorem read_machineReading (o : Options) (sel : Selection) :
    OptionString.read (OptionString.ofProperties (machineReading o sel)) =
      machineReading o sel := by
  apply OptionString.read_ofProperties
  simp only [machineReading, List.forall_mem_append, List.forall_mem_cons,
    OptionString.readable_word, OptionString.readable_pair]
  refine ⟨⟨⟨⟨⟨by decide, by decide, by simp⟩, ?_⟩, by decide, by decide, by simp⟩, ?_⟩, ?_⟩
  · split
    · simpa using (by decide : OptionString.IsKey "iommu")
    · simp
  · cases o.dumpTree with
    | none => simp
    | some p => simpa using (by decide : OptionString.IsKey "dumpdtb")
  · cases sel.level with
    | el1 => simp
    | el2 => simpa using (by decide : OptionString.IsKey "virtualization")
    | el3 => simpa using (by decide : OptionString.IsKey "secure")

theorem read_networkReading (o : Options) (host : Host) :
    OptionString.read (OptionString.ofProperties (networkReading o host)) =
      networkReading o host := by
  apply OptionString.read_ofProperties
  have hid : OptionString.IsKey "id" := by decide
  have htap : OptionString.IsKey "tap" ∧ OptionString.IsKey "ifname" := by decide
  have hscripts : OptionString.IsKey "script" ∧ OptionString.IsKey "downscript" := by decide
  have huser : OptionString.IsKey "user" ∧ OptionString.IsKey "hostfwd" := by decide
  unfold networkReading
  split
  · split <;> simp [hid, htap, hscripts]
  · simp [hid, huser]

/-! ## 3. The assembled command line -/

theorem read_machine (o : Options) (sel : Selection) (env : Environment) :
    (values "-M" (arguments o sel env)).map OptionString.read = [machineReading o sel] := by
  have hmachine : machine o sel =
      .option "-M" (OptionString.ofProperties (machineReading o sel)) := by
    unfold machine machineReading levelProperties
    cases o.dumpTree <;> rfl
  rw [values_machine, hmachine, Argument.values_option_cons, if_pos rfl, Argument.values_nil,
    List.map_singleton, read_machineReading]

theorem read_drives (o : Options) (sel : Selection) (env : Environment) :
    (values "-drive" (arguments o sel env)).map OptionString.read =
      [driveReading o.block "blk0", driveReading o.scsi "scsi0", flashReading o.flash,
        driveReading o.emmc "emmc0", driveReading o.nvme "nvme0"] ++
      if hasUfs env then [driveReading o.ufs "ufs"] else [] := by
  have hparavirtual : values "-drive" (paravirtual o env.host) =
      [OptionString.ofProperties (driveReading o.block "blk0"),
        OptionString.ofProperties (driveReading o.scsi "scsi0")] :=
    rfl
  have hstorage : values "-drive" (storage o) =
      [OptionString.ofProperties (flashReading o.flash),
        OptionString.ofProperties (driveReading o.emmc "emmc0"),
        OptionString.ofProperties (driveReading o.nvme "nvme0")] :=
    rfl
  have hufs : values "-drive" (ufs o env) = if hasUfs env then
      [OptionString.ofProperties (driveReading o.ufs "ufs")] else [] := by
    unfold ufs
    by_cases h : hasUfs env
    · rw [if_pos h, if_pos h]
      rfl
    · rw [if_neg h, if_neg h]
      rfl
  rw [values_drives, hparavirtual, hstorage, hufs]
  split <;>
    simp only [List.map_cons, List.map_nil, read_driveReading, read_flashReading, List.cons_append,
      List.nil_append]

theorem read_shares (o : Options) (sel : Selection) (env : Environment) :
    (values "-fsdev" (arguments o sel env)).map OptionString.read =
      (o.share.map shareReading).toList := by
  have hshare : values "-fsdev" (sharedDirectory o) =
      (o.share.map fun dir => OptionString.ofProperties (shareReading dir)).toList := by
    unfold sharedDirectory
    cases o.share <;> rfl
  rw [values_shares, hshare]
  cases o.share with
  | none => rfl
  | some dir =>
    simp only [Option.map_some, Option.toList_some, List.map_cons, List.map_nil, read_shareReading]

/-- No text of the user's changes the structure of an option string: the emulator reads the machine,
every drive and the shared directory as the properties that the board means, each text whole and in
its own property. -/
theorem text_stays_in_its_property {o : Options} {sel : Selection} {env : Environment}
    {i : Invocation} (h : Invocation.assemble o sel env = .ok i) :
    ∃ as, Argument.read i.args = some as ∧
      (values "-M" as).map OptionString.read =
        [[.word "virt", .pair "acpi" "on"] ++
          (if sel.iommu = .smmu then [.pair "iommu" "smmuv3"] else []) ++
          [.pair "its" "on", .pair "gic-version" sel.gic.text] ++
          (o.dumpTree.map fun p => Property.pair "dumpdtb" p.text).toList ++
          match sel.level with
          | .el1 => []
          | .el2 => [.pair "virtualization" "on"]
          | .el3 => [.pair "secure" "on"]] ∧
      (values "-drive" as).map OptionString.read =
        [driveReading o.block "blk0", driveReading o.scsi "scsi0", flashReading o.flash,
          driveReading o.emmc "emmc0", driveReading o.nvme "nvme0"] ++
        (if hasUfs env then [driveReading o.ufs "ufs"] else []) ∧
      (values "-fsdev" as).map OptionString.read = (o.share.map shareReading).toList :=
  ⟨arguments o sel env, read_assembled h, read_machine o sel env, read_drives o sel env,
    read_shares o sel env⟩

/-- Options whose texts have commas at both ends, equals signs, or nothing in them. -/
def awkwardOptions : Options :=
  { block := ",,", scsi := "a=b,", flash := "", dumpTree := some ⟨"p,,,"⟩, share := some ⟨",=,"⟩ }

theorem commas_stay_in_their_properties :
    ∃ i, Invocation.assemble awkwardOptions ⟨.max, .el3, .smmu, .hda⟩ { version := ⟨8, 1, 0⟩ } =
        .ok i ∧
      ∃ as, Argument.read i.args = some as ∧
        (values "-M" as).map OptionString.read =
          [[.word "virt", .pair "acpi" "on", .pair "iommu" "smmuv3", .pair "its" "on",
            .pair "gic-version" "max", .pair "dumpdtb" "p,,,", .pair "secure" "on"]] ∧
        (values "-drive" as).map OptionString.read =
          [driveReading ",," "blk0", driveReading "a=b," "scsi0", flashReading "",
            driveReading "emmc" "emmc0", driveReading "nvme" "nvme0"] ∧
        (values "-fsdev" as).map OptionString.read = [shareReading ⟨",=,"⟩] := by
  obtain ⟨i, hi⟩ : ∃ i, Invocation.assemble awkwardOptions ⟨.max, .el3, .smmu, .hda⟩
      { version := ⟨8, 1, 0⟩ } = .ok i := ⟨_, rfl⟩
  exact ⟨i, hi, text_stays_in_its_property hi⟩

end VirtBoard.Qemu.Assembly
