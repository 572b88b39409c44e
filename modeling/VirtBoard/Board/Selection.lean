import VirtBoard.Board.Options
import VirtBoard.Board.UsageError

/-!
# Choices of a configuration

The options that are one of a few words or numbers, checked and resolved.  This needs nothing but
the options, so that a bad flag is found before anything is started.
-/

namespace VirtBoard.Board

/-- The interrupt controller: a version by number, or the best the emulator has. -/
inductive Gic where
  | version (n : UInt32)
  | max
deriving DecidableEq

def Gic.text : Gic → String
  | .version n => toString n
  | .max => "max"

inductive ExceptionLevel where
  | el1 | el2 | el3
deriving DecidableEq

inductive Iommu where
  | smmu | virtio
deriving DecidableEq

inductive Sound where
  | hda | virtio
deriving DecidableEq

structure Selection where
  gic : Gic
  level : ExceptionLevel
  iommu : Iommu
  sound : Sound
deriving DecidableEq

def ExceptionLevel.ofNumber : UInt32 → Except UsageError ExceptionLevel
  | 1 => .ok .el1
  | 2 => .ok .el2
  | 3 => .ok .el3
  | n => .error (.invalidExceptionLevel n)

def Iommu.ofName : String → Except UsageError Iommu
  | "smmu" => .ok .smmu
  | "virtio" => .ok .virtio
  | s => .error (.invalidIommu s)

def Sound.ofName : String → Except UsageError Sound
  | "hda" => .ok .hda
  | "virtio" => .ok .virtio
  | s => .error (.invalidSound s)

/-- A version-2 controller cannot route more processors than these. -/
def gicV2MaxCpus : UInt32 := 8

namespace Selection

/-- The controller for a number of processors and an exception level. -/
def chooseGic (gic cpus : UInt32) (level : ExceptionLevel) : Gic :=
  if gicV2MaxCpus < cpus ∨ (level = .el2 ∧ gic = 3) then .max else .version gic

/-- Checks the options and resolves the choices.  The level is checked first, then the IOMMU, the
use of GL, and the sound card. -/
def resolve (o : Options) : Except UsageError Selection := do
  let level ← ExceptionLevel.ofNumber o.exceptionLevel
  let iommu ← Iommu.ofName o.iommu
  if o.gl ∧ ¬o.graphic then throw .glWithoutGraphic
  let sound ← Sound.ofName o.sound
  return { gic := chooseGic o.gic o.cpus level, level, iommu, sound }

end Selection

end VirtBoard.Board
