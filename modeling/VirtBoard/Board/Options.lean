import VirtBoard.Path

/-!
# Options of the board

Everything that the board flags can say.  Each option has a default, so that no flag at all is a
valid configuration.
-/

namespace VirtBoard.Board

/-- The kernel arguments of a board whose flags give none. -/
def defaultBootArgs : String :=
  "console=ttyAMA0 earlycon cma=8M coherent_pool=2M root=vda0 rootfstype=elm rootwait rw"

structure Options where
  /-- Version of the interrupt controller. -/
  gic : UInt32 := 2
  exceptionLevel : UInt32 := 1
  cpus : UInt32 := 4
  /-- Guest memory in MiB. -/
  memory : UInt32 := 128
  /-- Where on the host the guest's SSH server is reached. -/
  sshForward : UInt16 := 12055
  debug : Bool := false
  graphic : Bool := false
  tap : Bool := false
  gl : Bool := false
  bootArgs : String := defaultBootArgs
  block : String := "block"
  scsi : String := "scsi"
  flash : String := "flash"
  emmc : String := "emmc"
  nvme : String := "nvme"
  ufs : String := "ufs"
  iommu : String := "smmu"
  sound : String := "hda"
  pluggedMemory : Option String := none
  /-- Where the emulator is to write its device tree instead of booting. -/
  dumpTree : Option Path := none
  initrd : Option Path := none
  /-- Host directory shared with the guest. -/
  share : Option Path := none
  /-- Device tree to boot with instead of the emulator's own. -/
  tree : Option Path := none
  /-- Device-tree sources to merge into the emulator's own tree, in order. -/
  overlays : List Path := []
deriving DecidableEq

instance : Inhabited Options := ⟨{}⟩

end VirtBoard.Board
