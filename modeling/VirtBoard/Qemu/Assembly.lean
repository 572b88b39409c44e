import VirtBoard.Board.Selection
import VirtBoard.Qemu.Invocation

/-!
# Assembling the command line

The emulator's command line for a configuration of the board, in sections that follow each other.
-/

namespace VirtBoard.Qemu

open Board

/-- The platform that the emulator runs on. -/
structure Host where
  /-- The emulator is a Windows program, whatever system starts it. -/
  windows : Bool := false
deriving DecidableEq

/-- What an invocation depends on besides the options. -/
structure Environment where
  program : Path := ⟨"qemu-system-aarch64"⟩
  kernel : Path := ⟨"rtthread.bin"⟩
  version : Version
  host : Host := {}
deriving DecidableEq

/-- What the user should know about an invocation although it can be made. -/
inductive Warning where
  | noSshForwarding
  | pluggedMemoryIgnored
  | mergedTreeKept
deriving DecidableEq

def Warning.message : Warning → String
  | .noSshForwarding => "SSH forwarding is not set up in TAP mode"
  | .pluggedMemoryIgnored =>
    "virtio-mem is not supported on Windows hosts, ignoring -plugged-mem"
  | .mergedTreeKept => "QEMU failed, keeping merged device tree"

namespace Assembly

/-! ## Pieces -/

/-- The tag under which the guest mounts the shared directory. -/
def shareTag : String := "hostshare"

def device (ps : List Property) : Argument := .ofProperties "-device" ps

def bareDevice (name : String) : Argument := device [.word name]

/-- A drive that some device refers to by its id. -/
def drive (name id : String) : Argument :=
  .ofProperties "-drive" [.pair "if" "none", .pair "file" (name ++ ".qcow2"),
    .pair "format" "qcow2", .pair "id" id]

/-- A serial console that waits for a telnet connection from this machine. -/
def console (tcp id : String) : Argument :=
  .ofProperties "-chardev" [.word "socket", .pair "host" "127.0.0.1", .pair "port" tcp,
    .pair "server" "on", .pair "wait" "off", .pair "telnet" "on", .pair "id" id]

/-! ## Sections -/

def levelProperties : ExceptionLevel → List Property
  | .el1 => []
  | .el2 => [.pair "virtualization" "on"]
  | .el3 => [.pair "secure" "on"]

def machine (o : Options) (sel : Selection) : Argument :=
  .ofProperties "-M" (
    [.word "virt", .pair "acpi" "on"] ++
    (if sel.iommu = .smmu then [.pair "iommu" "smmuv3"] else []) ++
    [.pair "its" "on", .pair "gic-version" sel.gic.text] ++
    (match o.dumpTree with
      | some p => [.pair "dumpdtb" p.text]
      | none => []) ++
    levelProperties sel.level)

/-- The kernel's arguments: the user's, then what the display and the shared directory add. -/
def bootArgs (o : Options) (host : Host) : String :=
  o.bootArgs ++
    (if o.graphic ∧ host.windows then " ramfb.buffer_size=1" else "") ++
    (if o.share.isSome then " 9p.tag=" ++ shareTag ++ " 9p.mount=host" else "")

def boot (o : Options) (env : Environment) : List Argument :=
  [.option "-cpu" "max",
    .option "-smp" (toString o.cpus),
    .option "-m" (toString o.memory),
    .option "-kernel" env.kernel.text,
    .option "-append" (bootArgs o env.host)] ++
  (o.tree.map fun p => Argument.option "-dtb" p.text).toList ++
  (o.initrd.map fun p => Argument.option "-initrd" p.text).toList ++
  [bareDevice "vmcoreinfo"]

def display (o : Options) : List Argument :=
  if o.graphic then
    [.option "-serial" "stdio", bareDevice "ramfb", bareDevice "virtio-gpu-device",
      bareDevice "virtio-keyboard-device", bareDevice "virtio-mouse-device",
      bareDevice "virtio-tablet-device"] ++
    if o.gl then
      [bareDevice "virtio-gpu-gl-device",
        .ofProperties "-display" [.word "gtk", .pair "gl" "on"]]
    else []
  else [.alone "-nographic"]

def debugStub (o : Options) : List Argument :=
  if o.debug then [.alone "-S", .alone "-s"] else []

def network (o : Options) (host : Host) : Argument :=
  .ofProperties "-netdev" (
    (if o.tap then
      [.word "tap", .pair "ifname" "tap0"] ++
      if host.windows then [] else [.pair "script" "no", .pair "downscript" "no"]
    else [.word "user", .pair "hostfwd" ("tcp::" ++ toString o.sshForward ++ "-:22")]) ++
    [.pair "id" "net0"])

def paravirtual (o : Options) (host : Host) : List Argument :=
  [drive o.block "blk0",
    device [.word "virtio-blk-device", .pair "drive" "blk0"],
    network o host,
    device [.word "virtio-net-device", .pair "netdev" "net0", .pair "speed" "800000"],
    bareDevice "virtio-rng-device",
    bareDevice "virtio-balloon-device",
    device [.word "virtio-scsi-pci", .pair "disable-legacy" "on"],
    device [.word "scsi-hd", .pair "channel" "0", .pair "scsi-id" "0", .pair "lun" "2",
      .pair "drive" "scsi0"],
    drive o.scsi "scsi0"]

def sharedDirectory (o : Options) : List Argument :=
  match o.share with
  | none => []
  | some dir =>
    [.ofProperties "-fsdev" [.word "local", .pair "security_model" "passthrough",
        .pair "id" "fsdev0", .pair "path" dir.text],
      device [.word "virtio-9p-device", .pair "fsdev" "fsdev0", .pair "mount_tag" shareTag]]

/-- Memory that can be plugged in later.  Its size is the last property of both options and is taken
as a piece of option string: a comma in it is not doubled. -/
def pluggedMemory (o : Options) (host : Host) : List Argument :=
  match o.pluggedMemory with
  | none => []
  | some size =>
    if host.windows then []
    else
      [.option "-device" (OptionString.ofProperties [.word "virtio-mem",
          .pair "id" "plugged-mem0", .pair "memdev" "plugged-mem-pool0", .pair "node" "0"] ++
          ",requested-size=" ++ size),
        .option "-object" (OptionString.ofProperties [.word "memory-backend-ram",
          .pair "id" "plugged-mem-pool0"] ++ ",size=" ++ size)]

def crypto : List Argument :=
  [device [.word "virtio-crypto-device", .pair "cryptodev" "vcrypto0"],
    .ofProperties "-object" [.word "cryptodev-backend-builtin", .pair "id" "vcrypto0"]]

def firstConsole : List Argument :=
  [bareDevice "virtio-serial-device",
    console "4321" "console0",
    device [.word "virtserialport", .pair "chardev" "console0",
      .pair "name" "org.rt-thread.console"]]

def iommuDevice : Iommu → List Argument
  | .smmu => []
  | .virtio => [device [.word "virtio-iommu-device", .pair "disable-legacy" "on",
      .pair "primary-bus" "pcie.0"]]

def soundCard : Sound → List Argument
  | .hda => [bareDevice "intel-hda", bareDevice "hda-duplex"]
  | .virtio => [device [.word "virtio-sound-pci", .pair "audiodev" "vsnd"],
      .ofProperties "-audiodev" [.word "alsa", .pair "id" "vsnd"]]

def storage (o : Options) : List Argument :=
  [.ofProperties "-drive" [.pair "if" "pflash", .pair "file" (o.flash ++ ".qcow2"),
      .pair "format" "qcow2", .pair "index" "1"],
    device [.word "pci-serial", .pair "chardev" "console1"],
    console "4322" "console1",
    bareDevice "sdhci-pci",
    device [.word "sd-card", .pair "drive" "emmc0"],
    drive o.emmc "emmc0",
    device [.word "nvme", .pair "id" "nvme-ctrl-0", .pair "serial" "deadbeef"],
    drive o.nvme "nvme0",
    device [.word "nvme-ns", .pair "drive" "nvme0"]]

def watchdog : List Argument :=
  [bareDevice "i6300esb", .option "-watchdog-action" "reset"]

def hasUfs (env : Environment) : Prop := Version.ufsMin ≤ env.version

instance (env : Environment) : Decidable (hasUfs env) :=
  inferInstanceAs (Decidable (_ ≤ _))

def ufs (o : Options) (env : Environment) : List Argument :=
  if hasUfs env then
    [drive o.ufs "ufs",
      device [.word "ufs", .pair "serial" "deadbeef"],
      device [.word "ufs-lu", .pair "drive" "ufs"]]
  else []

def teachingDevice : List Argument :=
  [device [.word "edu", .pair "dma_mask" "0xffffffff"]]

/-! ## The whole -/

def arguments (o : Options) (sel : Selection) (env : Environment) : List Argument :=
  machine o sel :: boot o env ++ display o ++ debugStub o ++ paravirtual o env.host ++
    sharedDirectory o ++ pluggedMemory o env.host ++ crypto ++ firstConsole ++
    iommuDevice sel.iommu ++ soundCard sel.sound ++ storage o ++ watchdog ++ ufs o env ++
    teachingDevice

def disks (o : Options) (env : Environment) : List DiskImage :=
  [⟨"block", o.block⟩, ⟨"scsi", o.scsi⟩, ⟨"flash", o.flash⟩, ⟨"emmc", o.emmc⟩,
    ⟨"nvme", o.nvme⟩] ++
  if hasUfs env then [⟨"ufs", o.ufs⟩] else []

def warnings (o : Options) (host : Host) : List Warning :=
  (if o.tap then [.noSshForwarding] else []) ++
  if o.pluggedMemory.isSome ∧ host.windows then [.pluggedMemoryIgnored] else []

end Assembly

/-- The invocation for a configuration.  The VirtIO sound card needs a release that has it. -/
def Invocation.assemble (o : Options) (sel : Selection) (env : Environment) :
    Except UsageError Invocation :=
  if sel.sound = .virtio ∧ ¬Version.virtioSoundMin ≤ env.version then
    .error (.virtioSoundUnsupported env.version)
  else
    .ok {
      program := env.program
      args := (Assembly.arguments o sel env).flatMap Argument.words
      disks := Assembly.disks o env }

end VirtBoard.Qemu
