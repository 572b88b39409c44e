import VirtBoard.Proofs.Qemu.ArgumentReading

/-!
# Names of the options

Which options a command line has, and in which order, is decided by its shape: the release and the
host, the choices of the IOMMU and the sound card, the display, the debug stub, and which of the
optional parts there are.  No text, path or number takes part in it, so none of them is ever read as
an option.
-/

namespace VirtBoard.Qemu.Assembly

open Board
open Argument (name words)

/-! ## 1. Shapes -/

/-- What decides the options of a command line.  Of a part that may be missing it only says whether
it is there. -/
structure Shape where
  version : Version
  host : Host
  iommu : Iommu
  sound : Sound
  graphic : Bool
  gl : Bool
  debug : Bool
  tree : Bool
  initrd : Bool
  share : Bool
  pluggedMemory : Bool
deriving DecidableEq

def shape (o : Options) (sel : Selection) (env : Environment) : Shape where
  version := env.version
  host := env.host
  iommu := sel.iommu
  sound := sel.sound
  graphic := o.graphic
  gl := o.gl
  debug := o.debug
  tree := o.tree.isSome
  initrd := o.initrd.isSome
  share := o.share.isSome
  pluggedMemory := o.pluggedMemory.isSome

namespace Shape

def bootNames (s : Shape) : List String :=
  ["-cpu", "-smp", "-m", "-kernel", "-append"] ++ (if s.tree then ["-dtb"] else []) ++
    (if s.initrd then ["-initrd"] else []) ++ ["-device"]

def displayNames (s : Shape) : List String :=
  if s.graphic then
    "-serial" :: List.replicate 5 "-device" ++ if s.gl then ["-device", "-display"] else []
  else ["-nographic"]

def paravirtualNames : List String :=
  ["-drive", "-device", "-netdev"] ++ List.replicate 5 "-device" ++ ["-drive"]

def storageNames : List String :=
  ["-drive", "-device", "-chardev", "-device", "-device", "-drive", "-device", "-drive", "-device"]

/-- The options of a command line, in order. -/
def optionNames (s : Shape) : List String :=
  "-M" :: s.bootNames ++ s.displayNames ++ (if s.debug then ["-S", "-s"] else []) ++
    paravirtualNames ++ (if s.share then ["-fsdev", "-device"] else []) ++
    (if s.pluggedMemory ∧ ¬s.host.windows then ["-device", "-object"] else []) ++
    ["-device", "-object"] ++ ["-device", "-chardev", "-device"] ++
    (if s.iommu = .virtio then ["-device"] else []) ++
    ["-device", if s.sound = .hda then "-device" else "-audiodev"] ++ storageNames ++
    ["-device", "-watchdog-action"] ++
    (if Version.ufsMin ≤ s.version then ["-drive", "-device", "-device"] else []) ++ ["-device"]

end Shape

/-! ## 2. Names in an assembled command line -/

theorem names_arguments (o : Options) (sel : Selection) (env : Environment) :
    (arguments o sel env).map name = (shape o sel env).optionNames := by
  simp only [arguments, List.map_append, List.map_cons, name_machine, names_boot, names_display,
    names_debugStub, names_paravirtual, names_sharedDirectory, names_pluggedMemory, names_crypto,
    names_firstConsole, names_iommuDevice, names_soundCard, names_storage, names_watchdog,
    names_ufs, names_teachingDevice]
  rfl

/-- Two command lines of the same shape have the same options in the same order, whatever their
texts, paths and numbers are.  Each is read to its end: its words are the names of these options
and one value behind each that is no switch. -/
theorem same_shape_same_options {o₁ o₂ : Options} {sel₁ sel₂ : Selection} {env₁ env₂ : Environment}
    {i₁ i₂ : Invocation} (h₁ : Invocation.assemble o₁ sel₁ env₁ = .ok i₁)
    (h₂ : Invocation.assemble o₂ sel₂ env₂ = .ok i₂)
    (hshape : shape o₁ sel₁ env₁ = shape o₂ sel₂ env₂) :
    ∃ as₁ as₂, Argument.read i₁.args = some as₁ ∧ as₁.flatMap words = i₁.args ∧
      Argument.read i₂.args = some as₂ ∧ as₂.flatMap words = i₂.args ∧
      as₁.map name = (shape o₁ sel₁ env₁).optionNames ∧ as₂.map name = as₁.map name := by
  have hnames : (arguments o₂ sel₂ env₂).map name = (arguments o₁ sel₁ env₁).map name := by
    rw [names_arguments, names_arguments, hshape]
  refine ⟨arguments o₁ sel₁ env₁, arguments o₂ sel₂ env₂, read_assembled h₁, ?_,
    read_assembled h₂, ?_, names_arguments o₁ sel₁ env₁, hnames⟩
  · rw [assemble_ok h₁]
  · rw [assemble_ok h₂]

/-- Options whose texts look like options of the emulator or are empty. -/
def deceptiveOptions : Options :=
  { bootArgs := "-S", block := "-nographic", dumpTree := some ⟨"-s"⟩, tree := some ⟨""⟩,
    share := some ⟨"-drive"⟩, pluggedMemory := some "-M" }

/-- Options of the same shape with texts of the usual kind. -/
def innocentOptions : Options :=
  { cpus := 1, tree := some ⟨"board.dtb"⟩, share := some ⟨"shared"⟩, pluggedMemory := some "256M" }

theorem deceptive_words_stay_values :
    ∃ i₁ i₂, Invocation.assemble deceptiveOptions ⟨.max, .el3, .virtio, .hda⟩
        { kernel := ⟨"-drive"⟩, version := ⟨8, 2, 0⟩ } = .ok i₁ ∧
      Invocation.assemble innocentOptions ⟨.version 2, .el1, .virtio, .hda⟩
        { version := ⟨8, 2, 0⟩ } = .ok i₂ ∧
      shape deceptiveOptions ⟨.max, .el3, .virtio, .hda⟩
          { kernel := ⟨"-drive"⟩, version := ⟨8, 2, 0⟩ } =
        shape innocentOptions ⟨.version 2, .el1, .virtio, .hda⟩ { version := ⟨8, 2, 0⟩ } ∧
      ∃ as₁ as₂, Argument.read i₁.args = some as₁ ∧ as₁.flatMap words = i₁.args ∧
        Argument.read i₂.args = some as₂ ∧ as₂.flatMap words = i₂.args ∧
        as₁.map name = (shape deceptiveOptions ⟨.max, .el3, .virtio, .hda⟩
          { kernel := ⟨"-drive"⟩, version := ⟨8, 2, 0⟩ }).optionNames ∧
        as₂.map name = as₁.map name := by
  obtain ⟨i₁, hi₁⟩ : ∃ i, Invocation.assemble deceptiveOptions ⟨.max, .el3, .virtio, .hda⟩
      { kernel := ⟨"-drive"⟩, version := ⟨8, 2, 0⟩ } = .ok i := ⟨_, rfl⟩
  obtain ⟨i₂, hi₂⟩ : ∃ i, Invocation.assemble innocentOptions ⟨.version 2, .el1, .virtio, .hda⟩
      { version := ⟨8, 2, 0⟩ } = .ok i := ⟨_, rfl⟩
  exact ⟨i₁, i₂, hi₁, hi₂, rfl, same_shape_same_options hi₁ hi₂ rfl⟩

end VirtBoard.Qemu.Assembly
