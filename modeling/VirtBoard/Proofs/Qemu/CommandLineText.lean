import VirtBoard.Proofs.Qemu.ArgumentReading
import VirtBoard.Proofs.Qemu.OptionReading
import VirtBoard.Proofs.Text.Decimals

/-!
# The words of a command line

A command line word by word, as far as a dump and a device tree take part in it: the dump is a piece
of the machine's text, between the interrupt controller and the exception level, and the tree stands
between the kernel's arguments and the initial RAM disk.  All other words depend on neither.
-/

namespace VirtBoard.Qemu

/-! ## 1. Texts of option strings -/

namespace OptionString

/-- A text with its commas doubled. -/
def escaped (s : String) : String :=
  String.ofList (escape s.toList)

theorem escape_append (s t : List Char) : escape (s ++ t) = escape s ++ escape t :=
  List.flatMap_append

theorem escaped_eq_self {s : String} (h : ',' ∉ s.toList) : escaped s = s := by
  rw [escaped, escape_eq_self h, String.ofList_toList]

theorem escaped_distrib (s t : String) : escaped (s ++ t) = escaped s ++ escaped t := by
  rw [escaped, String.toList_append, escape_append, String.ofList_append]
  rfl

/-- A text without a comma stays as it is in front of any other. -/
theorem escaped_append {s : String} (h : ',' ∉ s.toList) (t : String) :
    escaped (s ++ t) = s ++ escaped t := by
  rw [escaped_distrib, escaped_eq_self h]

theorem ofProperties_pair {k : String} (hk : ',' ∉ k.toList) (v : String) :
    ofProperties [.pair k v] = k ++ "=" ++ escaped v := by
  have htext : String.ofList (plain (.pair k v)) = k ++ "=" ++ v := by
    apply String.toList_injective
    rw [String.toList_ofList, String.toList_append, String.toList_append, List.append_assoc]
    rfl
  have hcomma : ',' ∉ (k ++ "=").toList := by
    rw [String.toList_append, List.mem_append, not_or]
    exact ⟨hk, by decide⟩
  rw [← escaped_append hcomma, ← htext, escaped, String.toList_ofList, ofProperties,
    List.map_singleton, List.intercalate_singleton]

theorem ofProperties_cons_cons (p q : Property) (ps : List Property) :
    ofProperties (p :: q :: ps) = ofProperties [p] ++ "," ++ ofProperties (q :: ps) := by
  apply String.toList_injective
  simp only [String.toList_append, toList_ofProperties, List.map_cons, List.map_nil,
    List.intercalate_singleton, List.intercalate_cons_cons]
  rfl

end OptionString

namespace Assembly

open Board

/-! ## 2. The text of the machine -/

/-- The piece of the machine's text that asks for a dump. -/
def dumpText : Option Path → String
  | none => ""
  | some p => ",dumpdtb=" ++ OptionString.escaped p.text

/-- The end of the machine's text. -/
def levelText : ExceptionLevel → String
  | .el1 => ""
  | .el2 => ",virtualization=on"
  | .el3 => ",secure=on"

def machineText (sel : Selection) (dump : Option Path) : String :=
  "virt,acpi=on," ++ (if sel.iommu = .smmu then "iommu=smmuv3," else "") ++
    "its=on,gic-version=" ++ sel.gic.text ++ dumpText dump ++ levelText sel.level

theorem comma_notMem_gicText (g : Gic) : ',' ∉ g.text.toList := by
  cases g with
  | max => decide
  | version n => exact Text.comma_notMem_toString n.toNat

theorem machine_eq (o : Options) (sel : Selection) :
    machine o sel = .option "-M" (machineText sel o.dumpTree) := by
  have hvirt : OptionString.ofProperties [.word "virt"] = "virt" := by decide
  have hacpi : OptionString.ofProperties [.pair "acpi" "on"] = "acpi=on" := by decide
  have hiommu : OptionString.ofProperties [.pair "iommu" "smmuv3"] = "iommu=smmuv3" := by decide
  have hits : OptionString.ofProperties [.pair "its" "on"] = "its=on" := by decide
  have hgic : OptionString.ofProperties [.pair "gic-version" sel.gic.text] =
      "gic-version" ++ "=" ++ sel.gic.text := by
    rw [OptionString.ofProperties_pair (by decide),
      OptionString.escaped_eq_self (comma_notMem_gicText sel.gic)]
  have hdump (path : String) : OptionString.ofProperties [.pair "dumpdtb" path] =
      "dumpdtb" ++ "=" ++ OptionString.escaped path :=
    OptionString.ofProperties_pair (by decide) path
  have hel2 : OptionString.ofProperties [.pair "virtualization" "on"] = "virtualization=on" := by
    decide
  have hel3 : OptionString.ofProperties [.pair "secure" "on"] = "secure=on" := by decide
  unfold machine machineText
  refine congrArg (Argument.option "-M") ?_
  -- The comma in front of a property and the property are one word in the text.
  have hdumpComma (s : String) : s ++ "," ++ "dumpdtb=" = s ++ ",dumpdtb=" :=
    String.append_assoc ..
  have hel2Comma (s : String) : s ++ "," ++ "virtualization=on" = s ++ ",virtualization=on" :=
    String.append_assoc ..
  have hel3Comma (s : String) : s ++ "," ++ "secure=on" = s ++ ",secure=on" :=
    String.append_assoc ..
  cases sel.iommu <;> cases o.dumpTree <;> cases sel.level <;>
    simp [levelProperties, levelText, dumpText, OptionString.ofProperties_cons_cons, hvirt, hacpi,
      hiommu, hits, hgic, hdump, hel2, hel3, ← String.append_assoc, hdumpComma, hel2Comma,
      hel3Comma]

/-! ## 3. The words around the tree -/

def treeWords : Option Path → List String
  | none => []
  | some p => ["-dtb", p.text]

def initrdWords : Option Path → List String
  | none => []
  | some p => ["-initrd", p.text]

/-- The options behind the initial RAM disk. -/
def devices (o : Options) (sel : Selection) (env : Environment) : List Argument :=
  bareDevice "vmcoreinfo" :: (display o ++ (debugStub o ++ (paravirtual o env.host ++
    (sharedDirectory o ++ (pluggedMemory o env.host ++ (crypto ++ (firstConsole ++
    (iommuDevice sel.iommu ++ (soundCard sel.sound ++ (storage o ++ (watchdog ++
    (ufs o env ++ teachingDevice))))))))))))

/-- The words of a command line with a dump and a tree to boot with, which may be others than those
of the options. -/
def commandLine (o : Options) (sel : Selection) (env : Environment) (dump tree : Option Path) :
    List String :=
  ["-M", machineText sel dump, "-cpu", "max", "-smp", toString o.cpus, "-m", toString o.memory,
    "-kernel", env.kernel.text, "-append", bootArgs o env.host] ++
  treeWords tree ++ initrdWords o.initrd ++ (devices o sel env).flatMap Argument.words

theorem words_arguments (o : Options) (sel : Selection) (env : Environment) :
    (arguments o sel env).flatMap Argument.words = commandLine o sel env o.dumpTree o.tree := by
  have hsplit : arguments o sel env = [machine o sel] ++
      ([.option "-cpu" "max", .option "-smp" (toString o.cpus), .option "-m" (toString o.memory),
        .option "-kernel" env.kernel.text, .option "-append" (bootArgs o env.host)] ++
      ((o.tree.map fun p => Argument.option "-dtb" p.text).toList ++
      ((o.initrd.map fun p => Argument.option "-initrd" p.text).toList ++ devices o sel env))) := by
    simp only [arguments, boot, devices, List.cons_append, List.append_assoc, List.nil_append]
  rw [hsplit, machine_eq]
  cases o.tree <;> cases hinitrd : o.initrd <;>
    simp only [commandLine, hinitrd, treeWords, initrdWords, Option.map_some, Option.map_none,
      Option.toList_some, Option.toList_none, List.flatMap_cons, Argument.words, List.append_nil,
      List.nil_append, List.cons_append]

/-- What is assembled, word by word. -/
theorem assemble_eq (o : Options) (sel : Selection) (env : Environment) :
    Invocation.assemble o sel env =
      if sel.sound = .virtio ∧ ¬Version.virtioSoundMin ≤ env.version then
        .error (.virtioSoundUnsupported env.version)
      else
        .ok ⟨env.program, commandLine o sel env o.dumpTree o.tree, disks o env⟩ := by
  unfold Invocation.assemble
  rw [words_arguments]

end Assembly

end VirtBoard.Qemu
