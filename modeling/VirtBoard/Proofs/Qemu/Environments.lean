import Mathlib.Data.Prod.Lex
import VirtBoard.Proofs.Board.Validity
import VirtBoard.Proofs.Qemu.CommandLineText
import VirtBoard.Proofs.Qemu.PluggedMemory

/-!
# Other releases, other platforms

A command line depends on the release of the emulator in one place and on the platform in three.  So
a later release runs what an earlier one runs, with at most the `ufs` options on top, and a Windows
host gets the options of any other host but for the frame buffer, the scripts of the network and the
memory that can be plugged in.
-/

namespace VirtBoard.Qemu

/-! ## 1. Releases as numbers -/

/-- The three numbers of a release; the first one that differs decides. -/
def Version.numbers (v : Version) : ℕ ×ₗ ℕ ×ₗ ℕ :=
  toLex (v.major.toNat, toLex (v.minor.toNat, v.revision.toNat))

theorem Version.le_iff_numbers {v w : Version} : v ≤ w ↔ v.numbers ≤ w.numbers := by
  simp only [le_iff, numbers, Prod.Lex.toLex_le_toLex, UInt32.lt_iff_toNat_lt,
    UInt32.le_iff_toNat_le, ← UInt32.toNat_inj]

namespace Assembly

open Board
open OptionString (escaped ofProperties)

/-! ## 2. Texts of the options that depend on the environment -/

theorem drive_eq (name : String) {id : String} (hid : ',' ∉ id.toList) :
    drive name id =
      .option "-drive" ("if=none,file=" ++ escaped name ++ ".qcow2,format=qcow2,id=" ++ id) := by
  have hif : ofProperties [.pair "if" "none"] = "if=none" := by decide
  have hformat : ofProperties [.pair "format" "qcow2"] = "format=qcow2" := by decide
  have hfile : ofProperties [.pair "file" (name ++ ".qcow2")] =
      "file=" ++ (escaped name ++ ".qcow2") := by
    rw [OptionString.ofProperties_pair (by decide), OptionString.escaped_distrib,
      OptionString.escaped_eq_self (s := ".qcow2") (by decide)]
    rfl
  have hdriveId : ofProperties [.pair "id" id] = "id=" ++ id := by
    rw [OptionString.ofProperties_pair (by decide), OptionString.escaped_eq_self hid]
    rfl
  unfold drive
  refine congrArg (Argument.option "-drive") ?_
  simp only [OptionString.ofProperties_cons_cons, hif, hformat, hfile, hdriveId]
  apply String.toList_injective
  simp

/-- What a Windows host adds to the kernel's arguments. -/
def frameBufferText (o : Options) : String :=
  if o.graphic then " ramfb.buffer_size=1" else ""

/-- What the shared directory adds to the kernel's arguments. -/
def shareText (o : Options) : String :=
  if o.share.isSome then " 9p.tag=hostshare 9p.mount=host" else ""

theorem bootArgs_eq (o : Options) (host : Host) :
    bootArgs o host =
      o.bootArgs ++ (if host.windows then frameBufferText o else "") ++ shareText o := by
  unfold bootArgs frameBufferText shareText
  cases host.windows <;> cases o.graphic <;> cases o.share <;> simp [shareTag]

/-- The network up to what a Windows host has no use for. -/
def uplinkText (o : Options) : String :=
  if o.tap then "tap,ifname=tap0" else "user,hostfwd=tcp::" ++ toString o.sshForward ++ "-:22"

def scriptsText (o : Options) : String :=
  if o.tap then ",script=no,downscript=no" else ""

theorem network_eq (o : Options) (host : Host) :
    network o host =
      .option "-netdev"
        (uplinkText o ++ (if host.windows then "" else scriptsText o) ++ ",id=net0") := by
  have hforward : ofProperties [.pair "hostfwd" ("tcp::" ++ toString o.sshForward ++ "-:22")] =
      "hostfwd=tcp::" ++ toString o.sshForward ++ "-:22" := by
    have hport : ',' ∉ (toString o.sshForward).toList :=
      Text.comma_notMem_toString o.sshForward.toNat
    have hcomma : ',' ∉ ("tcp::" ++ toString o.sshForward ++ "-:22").toList := by
      simp [hport]
    rw [OptionString.ofProperties_pair (by decide), OptionString.escaped_eq_self hcomma]
    simp only [← String.append_assoc]
    rfl
  have huser : ofProperties [.word "user"] = "user" := by decide
  have hid : ofProperties [.pair "id" "net0"] = "id=net0" := by decide
  unfold network
  refine congrArg (Argument.option "-netdev") ?_
  cases htap : o.tap with
  | true => cases host.windows <;> simp [uplinkText, scriptsText, htap] <;> decide
  | false =>
    simp only [uplinkText, scriptsText, htap, Bool.false_eq_true, ↓reduceIte, List.cons_append,
      List.nil_append, OptionString.ofProperties_cons_cons, huser, hforward, hid, ite_self]
    apply String.toList_injective
    simp

/-- The options that a Windows host has not. -/
def memoryOptions (o : Options) : List Argument :=
  match o.pluggedMemory with
  | none => []
  | some size =>
    [.option "-device"
        ("virtio-mem,id=plugged-mem0,memdev=plugged-mem-pool0,node=0,requested-size=" ++ size),
      .option "-object" ("memory-backend-ram,id=plugged-mem-pool0,size=" ++ size)]

theorem pluggedMemory_eq_ite (o : Options) (host : Host) :
    pluggedMemory o host = if host.windows then [] else memoryOptions o := by
  unfold pluggedMemory memoryOptions
  cases o.pluggedMemory with
  | none => simp
  | some size =>
    have hdevice : ofProperties pluggedDevice ++ ",requested-size=" =
        "virtio-mem,id=plugged-mem0,memdev=plugged-mem-pool0,node=0,requested-size=" := by decide
    have hpool : ofProperties pluggedPool ++ ",size=" =
        "memory-backend-ram,id=plugged-mem-pool0,size=" := by decide
    rw [← hdevice, ← hpool]
    rfl

/-- The options of the `ufs` controller. -/
def ufsOptions (o : Options) : List Argument :=
  [.option "-drive" ("if=none,file=" ++ escaped o.ufs ++ ".qcow2,format=qcow2,id=ufs"),
    .option "-device" "ufs,serial=deadbeef", .option "-device" "ufs-lu,drive=ufs"]

def eduOption : Argument := .option "-device" "edu,dma_mask=0xffffffff"

theorem ufs_eq (o : Options) (env : Environment) :
    ufs o env = if hasUfs env then ufsOptions o else [] := by
  have hcontroller : device [.word "ufs", .pair "serial" "deadbeef"] =
      .option "-device" "ufs,serial=deadbeef" := by decide
  have hunit : device [.word "ufs-lu", .pair "drive" "ufs"] =
      .option "-device" "ufs-lu,drive=ufs" := by decide
  have hdrive : drive o.ufs "ufs" =
      .option "-drive" ("if=none,file=" ++ escaped o.ufs ++ ".qcow2,format=qcow2,id=ufs") := by
    rw [drive_eq o.ufs (by decide), String.append_assoc]
    rfl
  unfold ufs ufsOptions
  rw [hdrive, hcontroller, hunit]

theorem teachingDevice_eq : teachingDevice = [eduOption] := by
  decide

/-! ## 3. Where they stand -/

/-- The options of a command line, which are those that the emulator reads in it. -/
structure Lists (i : Invocation) (as : List Argument) : Prop where
  spelled : i.args = as.flatMap Argument.words
  read : Argument.read i.args = some as

theorem lists_of_assemble {o : Options} {sel : Selection} {env : Environment} {i : Invocation}
    (h : Invocation.assemble o sel env = .ok i) : Lists i (arguments o sel env) where
  spelled := by rw [assemble_ok h]
  read := read_assembled h

-- Neither the release nor the platform has a part in the four lists.
theorem arguments_split (o : Options) (sel : Selection) (env : Environment) :
    ∃ before middle after rest : List Argument, ∀ (version : Version) (host : Host),
      arguments o sel { env with version, host } =
        before ++ .option "-append" (bootArgs o host) :: (middle ++ network o host ::
          (after ++ (pluggedMemory o host ++ (rest ++
            (ufs o { env with version, host } ++ teachingDevice))))) := by
  refine ⟨[machine o sel, .option "-cpu" "max", .option "-smp" (toString o.cpus),
      .option "-m" (toString o.memory), .option "-kernel" env.kernel.text],
    (o.tree.map fun p => Argument.option "-dtb" p.text).toList ++
      ((o.initrd.map fun p => Argument.option "-initrd" p.text).toList ++
      (bareDevice "vmcoreinfo" :: (display o ++ (debugStub o ++ [drive o.block "blk0",
        device [.word "virtio-blk-device", .pair "drive" "blk0"]])))),
    -- The network is the third of the paravirtual devices; the others are those of any host.
    (paravirtual o env.host).drop 3 ++ sharedDirectory o,
    crypto ++ (firstConsole ++ (iommuDevice sel.iommu ++ (soundCard sel.sound ++
      (storage o ++ watchdog)))), fun version host => ?_⟩
  simp only [arguments, boot, paravirtual, List.cons_append, List.append_assoc, List.nil_append,
    List.drop_succ_cons, List.drop_zero]

/-- What is told to the user when a command line is assembled. -/
def logged (o : Options) (sel : Selection) (env : Environment) : List Warning :=
  match Invocation.assemble o sel env with
  | .error _ => []
  | .ok _ => warnings o env.host

/-! ## 4. Other releases -/

theorem hasUfs_iff {env : Environment} :
    hasUfs env ↔ toLex (8, toLex (2, 0)) ≤ env.version.numbers :=
  Version.le_iff_numbers

-- Only the `ufs` options come and go with the release.
theorem arguments_of_release (o : Options) (sel : Selection) (env : Environment) :
    ∃ as, ∀ version, arguments o sel { env with version } =
      as ++ (if hasUfs { env with version } then ufsOptions o else []) ++ [eduOption] := by
  obtain ⟨before, middle, after, rest, hsplit⟩ := arguments_split o sel env
  refine ⟨before ++ .option "-append" (bootArgs o env.host) :: (middle ++ network o env.host ::
    (after ++ (pluggedMemory o env.host ++ rest))), fun version => ?_⟩
  rw [hsplit version env.host, ufs_eq, teachingDevice_eq]
  simp only [List.append_assoc, List.cons_append]

theorem disks_of_release (o : Options) (env : Environment) :
    ∃ ds, ∀ version, disks o { env with version } =
      ds ++ if hasUfs { env with version } then [⟨"ufs", o.ufs⟩] else [] :=
  ⟨_, fun _ => rfl⟩

theorem assemble_of_le {o : Options} {sel : Selection} {env : Environment} {v w : Version}
    (hle : v.numbers ≤ w.numbers) {i : Invocation}
    (h : Invocation.assemble o sel { env with version := v } = .ok i) :
    ∃ j, Invocation.assemble o sel { env with version := w } = .ok j := by
  unfold Invocation.assemble at h ⊢
  split at h
  next => cases h
  next hsound =>
    refine ⟨_, if_neg ?_⟩
    rintro ⟨hvirtio, hold⟩
    have hnew : Version.virtioSoundMin ≤ v := by
      by_contra hmin
      exact hsound ⟨hvirtio, hmin⟩
    rw [Version.le_iff_numbers] at hnew hold
    exact hold (hnew.trans hle)

/-- A later release runs what an earlier one runs, and with the same warnings.  Both run the same
unless only the later one has the `ufs` controller, whose options and whose disk then come on top. -/
theorem assemble_of_later_release (o : Options) (sel : Selection) (env : Environment)
    {v w : Version} (hle : v.numbers ≤ w.numbers) {i : Invocation}
    (h : Invocation.assemble o sel { env with version := v } = .ok i) :
    ∃ j, Invocation.assemble o sel { env with version := w } = .ok j ∧
      logged o sel { env with version := w } = logged o sel { env with version := v } ∧
      (j = i ∨
        v.numbers < toLex (8, toLex (2, 0)) ∧ toLex (8, toLex (2, 0)) ≤ w.numbers ∧
          j.program = i.program ∧
          (∃ as, Lists i (as ++ [eduOption]) ∧ Lists j (as ++ ufsOptions o ++ [eduOption])) ∧
          j.disks = i.disks ++ [⟨"ufs", o.ufs⟩]) := by
  obtain ⟨j, hj⟩ := assemble_of_le hle h
  refine ⟨j, hj, by simp only [logged, h, hj], ?_⟩
  obtain ⟨as, has⟩ := arguments_of_release o sel env
  obtain ⟨ds, hds⟩ := disks_of_release o env
  have hi := assemble_ok h
  have hj' := assemble_ok hj
  have hlists := lists_of_assemble h
  have hlists' := lists_of_assemble hj
  rw [has] at hi hj' hlists hlists'
  rw [hds] at hi hj'
  -- If the earlier release has the controller then so has the later one.
  by_cases hold : hasUfs { env with version := v }
  · have hnew : hasUfs { env with version := w } := hasUfs_iff.mpr ((hasUfs_iff.mp hold).trans hle)
    left
    simp only [hi, hj', if_pos hold, if_pos hnew]
  · by_cases hnew : hasUfs { env with version := w }
    · right
      rw [if_neg hold, List.append_nil] at hlists
      rw [if_pos hnew] at hlists'
      refine ⟨not_le.mp fun hmin => hold (hasUfs_iff.mpr hmin), hasUfs_iff.mp hnew, ?_,
        ⟨as, hlists, hlists'⟩, ?_⟩
      · rw [hi, hj']
      · simp only [hi, hj', if_neg hold, if_pos hnew, List.append_nil]
    · left
      simp only [hi, hj', if_neg hold, if_neg hnew]

theorem release_8_10_adds_ufs :
    (⟨8, 1, 5⟩ : Version).numbers ≤ (⟨8, 10, 0⟩ : Version).numbers ∧
      ∃ i j as, Invocation.assemble {} ⟨.version 2, .el1, .smmu, .hda⟩ { version := ⟨8, 1, 5⟩ } =
          .ok i ∧
        Invocation.assemble {} ⟨.version 2, .el1, .smmu, .hda⟩ { version := ⟨8, 10, 0⟩ } = .ok j ∧
        Lists i (as ++ [eduOption]) ∧ Lists j (as ++ ufsOptions {} ++ [eduOption]) ∧
        j.disks = i.disks ++ [⟨"ufs", "ufs"⟩] := by
  have hle : (⟨8, 1, 5⟩ : Version).numbers ≤ (⟨8, 10, 0⟩ : Version).numbers :=
    Version.le_iff_numbers.mp (by decide)
  have hi : Invocation.assemble {} ⟨.version 2, .el1, .smmu, .hda⟩ { version := ⟨8, 1, 5⟩ } =
    .ok ⟨_, _, disks {} { version := ⟨8, 1, 5⟩ }⟩ := rfl
  obtain ⟨j, hj, -, rfl | ⟨-, -, -, ⟨as, has, has'⟩, hdisks⟩⟩ :=
    assemble_of_later_release {} ⟨.version 2, .el1, .smmu, .hda⟩ { version := ⟨8, 1, 5⟩ } hle hi
  · have hdisks := congrArg Invocation.disks (assemble_ok hj)
    exact absurd hdisks (by decide)
  · exact ⟨hle, _, j, as, hi, hj, has, has', hdisks⟩

/-! ## 5. Other platforms -/

-- Whether there is a command line does not depend on the platform.
theorem assemble_of_platform (o : Options) (sel : Selection) (env : Environment) :
    (∃ e, ∀ host, Invocation.assemble o sel { env with host } = .error e) ∨
    ∃ f : Host → Invocation, ∀ host, Invocation.assemble o sel { env with host } = .ok (f host) := by
  unfold Invocation.assemble
  by_cases h : sel.sound = .virtio ∧ ¬Version.virtioSoundMin ≤ env.version
  · exact Or.inl ⟨.virtioSoundUnsupported env.version, fun _ => if_pos h⟩
  · exact Or.inr ⟨fun host => ⟨env.program, (arguments o sel { env with host }).flatMap
      Argument.words, disks o { env with host }⟩, fun _ => if_neg h⟩

theorem arguments_of_platform (o : Options) (sel : Selection) (env : Environment) :
    ∃ before middle after rest : List Argument, ∀ host : Host,
      arguments o sel { env with host } =
        before ++ .option "-append"
          (o.bootArgs ++ (if host.windows then frameBufferText o else "") ++ shareText o) ::
          (middle ++ .option "-netdev"
            (uplinkText o ++ (if host.windows then "" else scriptsText o) ++ ",id=net0") ::
            (after ++ ((if host.windows then [] else memoryOptions o) ++ rest))) := by
  obtain ⟨before, middle, after, rest, hsplit⟩ := arguments_split o sel env
  refine ⟨before, middle, after, rest ++ (ufs o env ++ teachingDevice), fun host => ?_⟩
  rw [hsplit env.version host, bootArgs_eq, network_eq, pluggedMemory_eq_ite]
  rfl

/-- A Windows host is refused what any other host is refused, and runs the same with the same disks
but for three things: the frame buffer's kernel argument, the scripts of the network, and the memory
that can be plugged in, about which the user is told. -/
theorem assemble_on_windows (o : Options) (sel : Selection) (env : Environment) :
    (∃ e, Invocation.assemble o sel { env with host := ⟨true⟩ } = .error e ∧
      Invocation.assemble o sel { env with host := ⟨false⟩ } = .error e ∧
      logged o sel { env with host := ⟨true⟩ } = logged o sel { env with host := ⟨false⟩ }) ∨
    ∃ i j, Invocation.assemble o sel { env with host := ⟨true⟩ } = .ok i ∧
      Invocation.assemble o sel { env with host := ⟨false⟩ } = .ok j ∧
      i.program = j.program ∧ i.disks = j.disks ∧
      (∃ before middle after rest,
        Lists j (before ++ .option "-append" (o.bootArgs ++ shareText o) ::
          (middle ++ .option "-netdev" (uplinkText o ++ scriptsText o ++ ",id=net0") ::
            (after ++ (memoryOptions o ++ rest)))) ∧
        Lists i (before ++ .option "-append" (o.bootArgs ++ frameBufferText o ++ shareText o) ::
          (middle ++ .option "-netdev" (uplinkText o ++ ",id=net0") :: (after ++ rest)))) ∧
      (o.graphic = false → o.tap = false → o.pluggedMemory = none → i.args = j.args) ∧
      logged o sel { env with host := ⟨true⟩ } =
        logged o sel { env with host := ⟨false⟩ } ++
          if o.pluggedMemory.isSome then [.pluggedMemoryIgnored] else [] := by
  rcases assemble_of_platform o sel env with ⟨e, hrefused⟩ | ⟨f, hruns⟩
  · exact Or.inl ⟨e, hrefused _, hrefused _, by simp only [logged, hrefused]⟩
  · obtain ⟨before, middle, after, rest, hsplit⟩ := arguments_of_platform o sel env
    have hwindows := lists_of_assemble (hruns ⟨true⟩)
    have hother := lists_of_assemble (hruns ⟨false⟩)
    simp only [hsplit, Bool.false_eq_true, ↓reduceIte, String.append_empty,
      List.nil_append] at hwindows hother
    refine Or.inr ⟨f ⟨true⟩, f ⟨false⟩, hruns _, hruns _, ?_, ?_,
      ⟨before, middle, after, rest, hother, hwindows⟩, ?_, ?_⟩
    · rw [assemble_ok (hruns ⟨true⟩), assemble_ok (hruns ⟨false⟩)]
    · rw [assemble_ok (hruns ⟨true⟩), assemble_ok (hruns ⟨false⟩)]
      rfl
    · intro hgraphic htap hmemory
      rw [hwindows.spelled, hother.spelled]
      simp only [frameBufferText, scriptsText, memoryOptions, hgraphic, htap, hmemory,
        Bool.false_eq_true, ↓reduceIte, String.append_empty, List.nil_append]
    · simp only [logged, hruns, warnings, and_true, Bool.false_eq_true, and_false, ↓reduceIte,
        List.append_nil]

end Assembly

end VirtBoard.Qemu
