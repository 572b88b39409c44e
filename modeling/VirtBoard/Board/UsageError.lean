import VirtBoard.Qemu.Version

/-!
# Flags that the board cannot run with
-/

namespace VirtBoard.Board

inductive UsageError where
  | missingValue (flag : String)
  | invalidInteger (flag value : String)
  | invalidExceptionLevel (level : UInt32)
  | invalidIommu (name : String)
  | invalidSound (name : String)
  | glWithoutGraphic
  | virtioSoundUnsupported (found : Qemu.Version)
deriving DecidableEq

def UsageError.message : UsageError → String
  | .missingValue flag => "flag -" ++ flag ++ " expects a value"
  | .invalidInteger flag value => "invalid integer " ++ Text.quoted value ++ " for -" ++ flag
  | .invalidExceptionLevel level => "invalid -el " ++ toString level ++ ", expected 1, 2 or 3"
  | .invalidIommu name => "invalid -iommu " ++ Text.quoted name ++ ", expected smmu or virtio"
  | .invalidSound name => "invalid -sound " ++ Text.quoted name ++ ", expected hda or virtio"
  | .glWithoutGraphic => "-gl requires -graphic"
  | .virtioSoundUnsupported found =>
    "VirtIO sound needs QEMU " ++ Qemu.Version.virtioSoundMin.text ++ " or newer, found " ++
      found.text

end VirtBoard.Board
