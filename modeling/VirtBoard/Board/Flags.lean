import VirtBoard.Board.Options
import VirtBoard.Board.UsageError

/-!
# Board flags

The flags have the form `-name` or `-name value`.  A token list is first cut into items, from left
to right: a switch, a flag with the token after it taken as its value whatever it looks like, or a
token that means nothing and is skipped.  The options are the items applied in order to the
defaults, so a later item overrides an earlier one, and only the overlays add up.
-/

namespace VirtBoard.Board

/-- Flags without a value. -/
inductive Switch where
  | debug | graphic | tap | gl
deriving DecidableEq

/-- Flags with a value. -/
inductive ValueFlag where
  | gic | dumpTree | exceptionLevel | cpus | memory | bootArgs | initrd | block | sshForward | flash
  | emmc | nvme | pluggedMemory | iommu | sound | share | ufs | tree | overlay
deriving DecidableEq

namespace Switch

def all : List Switch := [.debug, .graphic, .tap, .gl]

def name : Switch → String
  | .debug => "debug"
  | .graphic => "graphic"
  | .tap => "tap"
  | .gl => "gl"

end Switch

namespace ValueFlag

def all : List ValueFlag :=
  [.gic, .dumpTree, .exceptionLevel, .cpus, .memory, .bootArgs, .initrd, .block, .sshForward,
    .flash, .emmc, .nvme, .pluggedMemory, .iommu, .sound, .share, .ufs, .tree, .overlay]

def name : ValueFlag → String
  | .gic => "gic"
  | .dumpTree => "dumpdtb"
  | .exceptionLevel => "el"
  | .cpus => "smp"
  | .memory => "mem"
  | .bootArgs => "bootargs"
  | .initrd => "initrd"
  | .block => "block"
  | .sshForward => "ssh"
  | .flash => "flash"
  | .emmc => "emmc"
  | .nvme => "nvme"
  | .pluggedMemory => "plugged-mem"
  | .iommu => "iommu"
  | .sound => "sound"
  | .share => "9p"
  | .ufs => "ufs"
  | .tree => "dtb"
  | .overlay => "dtbo"

end ValueFlag

/-! ## Items -/

/-- What a token says by itself. -/
inductive Flag where
  | switch (s : Switch)
  | value (f : ValueFlag)
deriving DecidableEq

def Flag.table : List (String × Flag) :=
  Switch.all.map (fun s => ("-" ++ s.name, .switch s)) ++
    ValueFlag.all.map fun f => ("-" ++ f.name, .value f)

/-- The flag that a token spells. -/
def Flag.ofToken? (token : String) : Option Flag :=
  Flag.table.lookup token

inductive Item where
  | switch (s : Switch)
  | setting (f : ValueFlag) (value : String)
deriving DecidableEq

/-- The items of a token list, and the flag at its end whose value is missing, if there is one. -/
def Item.cut : List String → List Item × Option ValueFlag
  | [] => ([], none)
  | token :: rest =>
    match Flag.ofToken? token with
    | none => Item.cut rest
    | some (.switch s) =>
      let (items, dangling) := Item.cut rest
      (.switch s :: items, dangling)
    | some (.value f) =>
      match rest with
      | [] => ([], some f)
      | value :: rest =>
        let (items, dangling) := Item.cut rest
        (.setting f value :: items, dangling)

/-! ## Options -/

namespace Options

/-- Reads the value of an integer flag below a bound. -/
def integer (f : ValueFlag) (bound : Nat) (value : String) : Except UsageError Nat :=
  match Text.readInteger bound value with
  | some n => .ok n
  | none => .error (.invalidInteger f.name value)

def integer32 (f : ValueFlag) (value : String) : Except UsageError UInt32 :=
  UInt32.ofNat <$> integer f UInt32.size value

def integer16 (f : ValueFlag) (value : String) : Except UsageError UInt16 :=
  UInt16.ofNat <$> integer f UInt16.size value

def turnOn (o : Options) : Switch → Options
  | .debug => { o with debug := true }
  | .graphic => { o with graphic := true }
  | .tap => { o with tap := true }
  | .gl => { o with gl := true }

def set (o : Options) (f : ValueFlag) (value : String) : Except UsageError Options :=
  match f with
  | .gic => do return { o with gic := ← integer32 f value }
  | .exceptionLevel => do return { o with exceptionLevel := ← integer32 f value }
  | .cpus => do return { o with cpus := ← integer32 f value }
  | .memory => do return { o with memory := ← integer32 f value }
  | .sshForward => do return { o with sshForward := ← integer16 f value }
  | .bootArgs => .ok { o with bootArgs := value }
  | .block => .ok { o with block := value }
  | .flash => .ok { o with flash := value }
  | .emmc => .ok { o with emmc := value }
  | .nvme => .ok { o with nvme := value }
  | .ufs => .ok { o with ufs := value }
  | .iommu => .ok { o with iommu := value }
  | .sound => .ok { o with sound := value }
  | .pluggedMemory => .ok { o with pluggedMemory := some value }
  | .dumpTree => .ok { o with dumpTree := some ⟨value⟩ }
  | .initrd => .ok { o with initrd := some ⟨value⟩ }
  | .share => .ok { o with share := some ⟨value⟩ }
  | .tree => .ok { o with tree := some ⟨value⟩ }
  | .overlay => .ok { o with overlays := o.overlays ++ [⟨value⟩] }

def apply (o : Options) : Item → Except UsageError Options
  | .switch s => .ok (o.turnOn s)
  | .setting f value => o.set f value

def parse (tokens : List String) : Except UsageError Options := do
  let (items, dangling) := Item.cut tokens
  let o ← items.foldlM apply {}
  match dangling with
  | none => return o
  | some f => throw (.missingValue f.name)

end Options

end VirtBoard.Board
