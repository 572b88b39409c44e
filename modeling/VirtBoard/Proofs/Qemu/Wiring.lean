import VirtBoard.Proofs.Qemu.PluggedMemory
import VirtBoard.Proofs.Qemu.UserText

/-!
# Wiring of the devices

Devices name what they are connected to by ids that other options define.  In every assembled
command line the ids are pairwise different, each name that a device gives is the id of exactly one
backend of the kind that the device asks for, and each backend with an id is named exactly once.

1. An option string shows *terminals*: the ids it defines and the ids it refers to.
2. A list of terminals is *wired* if it has the property above.  Wired lists with different ids are
   wired together.
3. Each section of the command line is wired by itself, and the ids of the sections are different.
-/

namespace VirtBoard.Qemu

/-! ## 1. Terminals -/

/-- What a device can be connected to outside the guest. -/
inductive Backend where
  | drive | network | characters | directory | audio | memory | cryptography
deriving DecidableEq

namespace Backend

def all : List Backend :=
  [.drive, .network, .characters, .directory, .audio, .memory, .cryptography]

/-- The key under which a device names a backend. -/
def key : Backend → String
  | .drive => "drive"
  | .network => "netdev"
  | .characters => "chardev"
  | .directory => "fsdev"
  | .audio => "audiodev"
  | .memory => "memdev"
  | .cryptography => "cryptodev"

def ofKey? (key : String) : Option Backend :=
  all.find? (·.key = key)

/-- What an object is, which its type tells. -/
def ofType? (type : String) : Option Backend :=
  if "memory-backend-".toList.isPrefixOf type.toList then some .memory
  else if "cryptodev-backend-".toList.isPrefixOf type.toList then some .cryptography
  else none

/-- What an option defines for devices to be connected to, if it is of a kind that they ask for. -/
def ofOption? (name : String) (ps : List Property) : Option Backend :=
  match name with
  | "-drive" => some .drive
  | "-netdev" => some .network
  | "-chardev" => some .characters
  | "-fsdev" => some .directory
  | "-audiodev" => some .audio
  | "-object" =>
    match ps with
    | .word type :: _ => ofType? type
    | _ => none
  | _ => none

end Backend

/-- An end of a connection between a device and a backend, or the id of a device. -/
inductive Terminal where
  /-- An id by which devices can name a backend; `none` if it is of no kind that they ask for. -/
  | backend (kind : Option Backend) (id : String)
  | device (id : String)
  /-- The name that a device gives to its backend. -/
  | reference (kind : Backend) (id : String)
deriving DecidableEq

namespace Terminal

/-- What a property of a device shows. -/
def ofDevice : Property → Option Terminal
  | .word _ => none
  | .pair k v =>
    if k = "id" then some (.device v) else (Backend.ofKey? k).map fun kind => .reference kind v

/-- What a property of a backend shows. -/
def ofBackend (kind : Option Backend) : Property → Option Terminal
  | .word _ => none
  | .pair k v => if k = "id" then some (.backend kind v) else none

/-- The options whose ids devices can name. -/
def backendOptions : List String :=
  ["-drive", "-netdev", "-chardev", "-fsdev", "-object", "-audiodev"]

/-- The terminals of an option with these properties. -/
def ofOption (name : String) (ps : List Property) : List Terminal :=
  if name = "-device" then ps.filterMap ofDevice
  else if name ∈ backendOptions then ps.filterMap (ofBackend (Backend.ofOption? name ps))
  else []

end Terminal

/-- The terminals of an option as the emulator reads it. -/
def Argument.terminals : Argument → List Terminal
  | .alone _ => []
  | .option name value => Terminal.ofOption name (OptionString.read value)

theorem Argument.terminals_ofProperties {name : String} {ps : List Property}
    (h : OptionString.read (OptionString.ofProperties ps) = ps) :
    (Argument.ofProperties name ps).terminals = Terminal.ofOption name ps := by
  rw [ofProperties, terminals, h]

/-! ## 2. Wired terminals -/

namespace Terminal

def id? : Terminal → Option String
  | .backend _ id => some id
  | .device id => some id
  | .reference _ _ => none

/-- The ids that are defined. -/
def ids (ts : List Terminal) : List String :=
  ts.filterMap id?

theorem ids_append (ts us : List Terminal) : ids (ts ++ us) = ids ts ++ ids us :=
  List.filterMap_append

theorem mem_ids {ts : List Terminal} {kind : Option Backend} {id : String}
    (h : .backend kind id ∈ ts) : id ∈ ids ts :=
  List.mem_filterMap.mpr ⟨_, h, rfl⟩

/-- A terminal has exactly one other end among terminals, unless it needs none. -/
def Matched (ts : List Terminal) : Terminal → Prop
  | .backend none _ => False
  | .backend (some kind) id => ts.count (.reference kind id) = 1
  | .device _ => True
  | .reference kind id => ts.count (.backend (some kind) id) = 1

instance (ts : List Terminal) : DecidablePred (Matched ts)
  | .backend none _ => inferInstanceAs (Decidable False)
  | .backend (some _) _ => inferInstanceAs (Decidable (_ = _))
  | .device _ => inferInstanceAs (Decidable True)
  | .reference _ _ => inferInstanceAs (Decidable (_ = _))

/-- Each end has exactly one other end. -/
def Wired (ts : List Terminal) : Prop :=
  ∀ t ∈ ts, Matched ts t

instance (ts : List Terminal) : Decidable (Wired ts) :=
  inferInstanceAs (Decidable (∀ t ∈ ts, Matched ts t))

/-- A backend that is named is there. -/
theorem Wired.mem_ids_of_reference {ts : List Terminal} (h : Wired ts) {kind : Backend}
    {id : String} (hr : .reference kind id ∈ ts) : id ∈ ids ts := by
  have hcount : ts.count (.backend (some kind) id) = 1 := h _ hr
  have hmem : .backend (some kind) id ∈ ts := List.count_pos_iff.mp (by omega)
  exact mem_ids hmem

theorem Matched.perm {ts us : List Terminal} (h : ts.Perm us) {t : Terminal}
    (ht : Matched ts t) : Matched us t := by
  cases t with
  | backend kind id =>
    cases kind with
    | none => exact ht
    | some kind => exact (h.count_eq _).symm.trans ht
  | device id => exact ht
  | reference kind id => exact (h.count_eq _).symm.trans ht

/-- Terminals with other ids do not touch a connection. -/
theorem Matched.append {ts us : List Terminal} (h : Wired us)
    (hd : ∀ id ∈ ids ts, id ∉ ids us) {t : Terminal} (hmem : t ∈ ts) (ht : Matched ts t) :
    Matched (ts ++ us) t := by
  cases t with
  | backend kind id =>
    cases kind with
    | none => exact ht
    | some kind =>
      have hnone : us.count (.reference kind id) = 0 :=
        List.count_eq_zero.mpr fun hr => hd id (mem_ids hmem) (h.mem_ids_of_reference hr)
      show (ts ++ us).count (.reference kind id) = 1
      rw [List.count_append, hnone]
      exact ht
  | device id => exact ht
  | reference kind id =>
    have hone : ts.count (.backend (some kind) id) = 1 := ht
    have hback : .backend (some kind) id ∈ ts := List.count_pos_iff.mp (by omega)
    have hnone : us.count (.backend (some kind) id) = 0 :=
      List.count_eq_zero.mpr fun hb => hd id (mem_ids hback) (mem_ids hb)
    show (ts ++ us).count (.backend (some kind) id) = 1
    rw [List.count_append, hnone]
    exact hone

theorem Wired.append {ts us : List Terminal} (h : Wired ts) (h' : Wired us)
    (hd : (ids (ts ++ us)).Nodup) : Wired (ts ++ us) := by
  rw [ids_append] at hd
  have hapart : ∀ id ∈ ids ts, id ∉ ids us := fun id ht hu =>
    (List.nodup_append.mp hd).2.2 id ht id hu rfl
  intro t ht
  rcases List.mem_append.mp ht with hts | hus
  · exact .append h' hapart hts (h t hts)
  · have hsym := Matched.append h (fun id hu ht => hapart id ht hu) hus (h' t hus)
    exact hsym.perm List.perm_append_comm

/-- Lists that are each wired are wired together if no id is defined twice. -/
theorem Wired.flatten {tss : List (List Terminal)} (h : ∀ ts ∈ tss, Wired ts)
    (hd : (ids tss.flatten).Nodup) : Wired tss.flatten := by
  induction tss with
  | nil => exact fun t ht => absurd ht List.not_mem_nil
  | cons ts tss ih =>
    rw [List.flatten_cons] at hd ⊢
    have htail : (ids tss.flatten).Nodup := by
      rw [ids_append] at hd
      exact (List.nodup_append.mp hd).2.1
    have hrest := ih (fun us hus => h us (List.mem_cons_of_mem ts hus)) htail
    exact (h ts List.mem_cons_self).append hrest hd

end Terminal

namespace Assembly

open Board Terminal
open Argument (terminals)

/-! ## 3. The sections -/

-- The condition can be decided, so that no fixed string has to be read character by character.
theorem terminals_readable {name : String} {ps : List Property}
    (h : ∀ p ∈ ps, OptionString.Readable p) :
    (Argument.ofProperties name ps).terminals = ofOption name ps :=
  Argument.terminals_ofProperties (OptionString.read_ofProperties h)

theorem terminals_drive (disk id : String) :
    (drive disk id).terminals = [.backend (some .drive) id] := by
  have h : (drive disk id).terminals = ofOption "-drive" (driveReading disk id) :=
    Argument.terminals_ofProperties (read_driveReading disk id)
  rw [h]
  rfl

theorem terminals_network (o : Options) (host : Host) :
    (network o host).terminals = [.backend (some .network) "net0"] := by
  have h : (network o host).terminals = ofOption "-netdev" (networkReading o host) :=
    Argument.terminals_ofProperties (read_networkReading o host)
  rw [h]
  unfold networkReading
  split
  · split <;> rfl
  · rfl

theorem terminals_paravirtual (o : Options) (host : Host) :
    (paravirtual o host).flatMap terminals =
      [.backend (some .drive) "blk0", .reference .drive "blk0", .backend (some .network) "net0",
        .reference .network "net0", .reference .drive "scsi0", .backend (some .drive) "scsi0"] := by
  simp (disch := decide) only [paravirtual, device, bareDevice, List.flatMap_cons,
    List.flatMap_nil, terminals_drive, terminals_network, terminals_readable]
  rfl

theorem terminals_sharedDirectory (o : Options) :
    (sharedDirectory o).flatMap terminals =
      if o.share.isSome then [.backend (some .directory) "fsdev0", .reference .directory "fsdev0"]
      else [] := by
  unfold sharedDirectory
  cases o.share with
  | none => rfl
  | some dir =>
    have h : (Argument.ofProperties "-fsdev" (shareReading dir)).terminals =
        ofOption "-fsdev" (shareReading dir) :=
      Argument.terminals_ofProperties (read_shareReading dir)
    show (Argument.ofProperties "-fsdev" (shareReading dir)).terminals ++ _ = _
    rw [h]
    rfl

/-- A size without a comma brings no id and no reference. -/
theorem terminals_pluggedMemory {o : Options} {host : Host}
    (hsize : ∀ size, o.pluggedMemory = some size → ',' ∉ size.toList) :
    (pluggedMemory o host).flatMap terminals =
      if o.pluggedMemory.isSome ∧ ¬host.windows then
        [.device "plugged-mem0", .reference .memory "plugged-mem-pool0",
          .backend (some .memory) "plugged-mem-pool0"]
      else [] := by
  cases hs : o.pluggedMemory with
  | none =>
    unfold pluggedMemory
    rw [hs]
    rfl
  | some size =>
    cases hw : host.windows with
    | true =>
      unfold pluggedMemory
      rw [hs, hw]
      rfl
    | false =>
      have hcomma := hsize size hs
      have hdevice := read_pluggedDevice size
      have hpool := read_pluggedPool size
      rw [(OptionString.spill_eq_iff _ _).mpr hcomma] at hdevice hpool
      rw [pluggedMemory_eq hs hw, List.flatMap_cons, List.flatMap_singleton, terminals, terminals,
        hdevice, hpool]
      rfl

theorem terminals_crypto :
    crypto.flatMap terminals =
      [.reference .cryptography "vcrypto0", .backend (some .cryptography) "vcrypto0"] := by
  simp (disch := decide) only [crypto, device, List.flatMap_cons, List.flatMap_nil,
    terminals_readable]
  rfl

theorem terminals_firstConsole :
    firstConsole.flatMap terminals =
      [.backend (some .characters) "console0", .reference .characters "console0"] := by
  simp (disch := decide) only [firstConsole, console, device, bareDevice, List.flatMap_cons,
    List.flatMap_nil, terminals_readable]
  rfl

theorem terminals_soundCard (s : Sound) :
    (soundCard s).flatMap terminals =
      if s = .virtio then [.reference .audio "vsnd", .backend (some .audio) "vsnd"] else [] := by
  cases s <;> rfl

theorem terminals_storage (o : Options) :
    (storage o).flatMap terminals =
      [.reference .characters "console1", .backend (some .characters) "console1",
        .reference .drive "emmc0", .backend (some .drive) "emmc0", .device "nvme-ctrl-0",
        .backend (some .drive) "nvme0", .reference .drive "nvme0"] := by
  have hflash : (Argument.ofProperties "-drive" (flashReading o.flash)).terminals = [] := by
    rw [Argument.terminals_ofProperties (read_flashReading o.flash)]
    rfl
  have hstorage : storage o =
      Argument.ofProperties "-drive" (flashReading o.flash) :: (storage o).tail := rfl
  rw [hstorage, List.flatMap_cons, hflash]
  simp (disch := decide) only [storage, console, device, bareDevice, List.tail_cons,
    List.flatMap_cons, List.flatMap_nil, terminals_drive, terminals_readable]
  rfl

theorem terminals_ufs (o : Options) (env : Environment) :
    (ufs o env).flatMap terminals =
      if hasUfs env then [.backend (some .drive) "ufs", .reference .drive "ufs"] else [] := by
  unfold ufs
  split
  · simp (disch := decide) only [device, List.flatMap_cons, List.flatMap_nil, terminals_drive,
      terminals_readable]
    rfl
  · rfl

theorem terminals_boot (o : Options) (env : Environment) : (boot o env).flatMap terminals = [] := by
  unfold boot
  cases o.tree <;> cases o.initrd <;> rfl

theorem terminals_display (o : Options) : (display o).flatMap terminals = [] := by
  unfold display
  split
  · split <;> rfl
  · rfl

theorem terminals_debugStub (o : Options) : (debugStub o).flatMap terminals = [] := by
  unfold debugStub
  split <;> rfl

theorem terminals_iommuDevice (i : Iommu) : (iommuDevice i).flatMap terminals = [] := by
  cases i <;> rfl

/-! ## 4. The assembled command line -/

-- The other sections show no terminals.
theorem terminals_arguments (o : Options) (sel : Selection) (env : Environment) :
    (arguments o sel env).flatMap terminals =
      [(paravirtual o env.host).flatMap terminals, (sharedDirectory o).flatMap terminals,
        (pluggedMemory o env.host).flatMap terminals, crypto.flatMap terminals,
        firstConsole.flatMap terminals, (soundCard sel.sound).flatMap terminals,
        (storage o).flatMap terminals, (ufs o env).flatMap terminals].flatten := by
  have hmachine : (machine o sel).terminals = [] := rfl
  have hwatchdog : watchdog.flatMap terminals = [] := by decide
  have hteaching : teachingDevice.flatMap terminals = [] := by decide
  simp only [arguments, List.cons_append, List.flatMap_cons, List.flatMap_append, hmachine,
    terminals_boot, terminals_display, terminals_debugStub, terminals_iommuDevice, hwatchdog,
    hteaching, List.nil_append, List.append_nil, List.append_assoc, List.flatten_cons,
    List.flatten_nil]

theorem wired_sections {o : Options} (sel : Selection) (env : Environment)
    (hsize : ∀ size, o.pluggedMemory = some size → ',' ∉ size.toList) :
    ∀ ts ∈ [(paravirtual o env.host).flatMap terminals, (sharedDirectory o).flatMap terminals,
        (pluggedMemory o env.host).flatMap terminals, crypto.flatMap terminals,
        firstConsole.flatMap terminals, (soundCard sel.sound).flatMap terminals,
        (storage o).flatMap terminals, (ufs o env).flatMap terminals], Wired ts := by
  rw [terminals_paravirtual, terminals_sharedDirectory, terminals_pluggedMemory hsize,
    terminals_crypto, terminals_firstConsole, terminals_soundCard, terminals_storage, terminals_ufs]
  simp only [List.forall_mem_cons]
  refine ⟨by decide, ?_, ?_, by decide, by decide, ?_, by decide, ?_, by simp⟩
  all_goals split <;> decide

/-- All ids that a command line can define, in order. -/
def allIds : List String :=
  ["blk0", "net0", "scsi0"] ++ (["fsdev0"] ++ (["plugged-mem0", "plugged-mem-pool0"] ++
    (["vcrypto0"] ++ (["console0"] ++ (["vsnd"] ++
      (["console1", "emmc0", "nvme-ctrl-0", "nvme0"] ++ (["ufs"] ++ [])))))))

theorem ids_sublist {o : Options} (sel : Selection) (env : Environment)
    (hsize : ∀ size, o.pluggedMemory = some size → ',' ∉ size.toList) :
    (ids ((arguments o sel env).flatMap terminals)).Sublist allIds := by
  rw [terminals_arguments, terminals_paravirtual, terminals_sharedDirectory,
    terminals_pluggedMemory hsize, terminals_crypto, terminals_firstConsole, terminals_soundCard,
    terminals_storage, terminals_ufs]
  simp only [List.flatten_cons, List.flatten_nil, ids_append]
  unfold allIds
  refine List.Sublist.append ?_ (.append ?_ (.append ?_ (.append ?_ (.append ?_ (.append ?_
    (.append ?_ (.append ?_ ?_)))))))
  · decide
  · split <;> decide
  · split <;> decide
  · decide
  · decide
  · split <;> decide
  · decide
  · split <;> decide
  · decide

/-- Every device finds its backend: ids are defined once, what a device names is the id of exactly
one backend of the kind it asks for, and each backend with an id is named by exactly one device. -/
theorem every_device_finds_its_backend {o : Options} {sel : Selection} {env : Environment}
    {i : Invocation} (h : Invocation.assemble o sel env = .ok i)
    (hsize : ∀ size, o.pluggedMemory = some size → ',' ∉ size.toList) :
    ∃ as, Argument.read i.args = some as ∧
      (ids (as.flatMap terminals)).Nodup ∧
      (∀ kind id, .reference kind id ∈ as.flatMap terminals →
        (as.flatMap terminals).count (.backend (some kind) id) = 1) ∧
      (∀ kind? id, .backend kind? id ∈ as.flatMap terminals →
        ∃ kind, kind? = some kind ∧ (as.flatMap terminals).count (.reference kind id) = 1) := by
  have hids : (ids ((arguments o sel env).flatMap terminals)).Nodup :=
    (ids_sublist sel env hsize).nodup (by decide)
  have hwired : Wired ((arguments o sel env).flatMap terminals) := by
    rw [terminals_arguments] at hids ⊢
    exact Wired.flatten (wired_sections sel env hsize) hids
  refine ⟨arguments o sel env, read_assembled h, hids, fun kind id hr => hwired _ hr, ?_⟩
  intro kind? id hb
  have hmatched := hwired _ hb
  cases kind? with
  | none => exact False.elim hmatched
  | some kind => exact ⟨kind, rfl, hmatched⟩

/-- Options whose texts spell ids and references, with every part that defines an id. -/
def crossedOptions : Options :=
  { block := "x,id=net0", scsi := ",drive=blk0,,", graphic := true, share := some ⟨",id=blk0"⟩,
    pluggedMemory := some "1G id=blk0" }

theorem crossed_texts_define_nothing :
    ∃ i, Invocation.assemble crossedOptions ⟨.version 2, .el1, .virtio, .virtio⟩
        { version := ⟨8, 2, 0⟩ } = .ok i ∧
      (∀ size, crossedOptions.pluggedMemory = some size → ',' ∉ size.toList) ∧
      ∃ as, Argument.read i.args = some as ∧
        ids (as.flatMap terminals) = allIds ∧
        (ids (as.flatMap terminals)).Nodup ∧
        (∀ kind id, .reference kind id ∈ as.flatMap terminals →
          (as.flatMap terminals).count (.backend (some kind) id) = 1) ∧
        (∀ kind? id, .backend kind? id ∈ as.flatMap terminals →
          ∃ kind, kind? = some kind ∧ (as.flatMap terminals).count (.reference kind id) = 1) := by
  obtain ⟨i, hi⟩ : ∃ i, Invocation.assemble crossedOptions ⟨.version 2, .el1, .virtio, .virtio⟩
      { version := ⟨8, 2, 0⟩ } = .ok i := ⟨_, rfl⟩
  have hsize : ∀ size, crossedOptions.pluggedMemory = some size → ',' ∉ size.toList := by
    intro size h
    cases h
    decide
  obtain ⟨as, hread, hwired⟩ := every_device_finds_its_backend hi hsize
  have hids : ids (as.flatMap terminals) = allIds := by
    rw [Option.some.inj (hread.symm.trans (read_assembled hi)), terminals_arguments,
      terminals_paravirtual, terminals_sharedDirectory, terminals_pluggedMemory hsize,
      terminals_crypto, terminals_firstConsole, terminals_soundCard, terminals_storage,
      terminals_ufs]
    decide
  exact ⟨i, hi, hsize, as, hread, hids, hwired⟩

end Assembly

end VirtBoard.Qemu
