import VirtBoard.Proofs.Qemu.ArgumentReading
import VirtBoard.Proofs.Qemu.OptionReading

/-!
# The size of pluggable memory

The size stands at the end of two option strings, of the device and of the memory behind it, as the
user wrote it.  The emulator reads both as the board means them exactly for the sizes without a
comma: a size ends at its first single comma, and what follows adds properties to the device and to
the memory, or takes the place of those that the board has set.
-/

namespace VirtBoard.Qemu.Assembly

open Board
open Argument (values)
open OptionString (spill)

/-! ## 1. Options of a type -/

/-- The options of a name whose strings begin with the word for a type, as the emulator reads
them. -/
def readings (name type : String) (as : List Argument) : List (List Property) :=
  ((values name as).map OptionString.read).filter (·.head? = some (.word type))

theorem readings_append (name type : String) (as bs : List Argument) :
    readings name type (as ++ bs) = readings name type as ++ readings name type bs := by
  rw [readings, Argument.values_append, List.map_append, List.filter_append]
  rfl

/-- None of the options is a device for pluggable memory or such memory. -/
def NoPool (as : List Argument) : Prop :=
  readings "-device" "virtio-mem" as = [] ∧ readings "-object" "memory-backend-ram" as = []

theorem NoPool.append {as bs : List Argument} (h : NoPool as) (h' : NoPool bs) :
    NoPool (as ++ bs) := by
  constructor
  · rw [readings_append, h.1, h'.1, List.append_nil]
  · rw [readings_append, h.2, h'.2, List.append_nil]

/-- What stands around options adds nothing to them. -/
theorem NoPool.around {as bs cs : List Argument} (h : NoPool as) (h' : NoPool cs) :
    readings "-device" "virtio-mem" (as ++ (bs ++ cs)) = readings "-device" "virtio-mem" bs ∧
      readings "-object" "memory-backend-ram" (as ++ (bs ++ cs)) =
        readings "-object" "memory-backend-ram" bs := by
  constructor
  · rw [readings_append, readings_append, h.1, h'.1, List.nil_append, List.append_nil]
  · rw [readings_append, readings_append, h.2, h'.2, List.nil_append, List.append_nil]

theorem noPool_boot (o : Options) (env : Environment) : NoPool (boot o env) := by
  unfold boot
  cases o.tree <;> cases o.initrd <;> exact ⟨rfl, rfl⟩

theorem noPool_display (o : Options) : NoPool (display o) := by
  unfold display
  split
  · split <;> exact ⟨rfl, rfl⟩
  · exact ⟨rfl, rfl⟩

theorem noPool_debugStub (o : Options) : NoPool (debugStub o) := by
  unfold debugStub
  split <;> exact ⟨rfl, rfl⟩

theorem noPool_paravirtual (o : Options) (host : Host) : NoPool (paravirtual o host) :=
  ⟨rfl, rfl⟩

theorem noPool_sharedDirectory (o : Options) : NoPool (sharedDirectory o) := by
  unfold sharedDirectory
  split <;> exact ⟨rfl, rfl⟩

theorem noPool_iommuDevice (i : Iommu) : NoPool (iommuDevice i) := by
  cases i <;> exact ⟨rfl, rfl⟩

theorem noPool_soundCard (s : Sound) : NoPool (soundCard s) := by
  cases s <;> exact ⟨rfl, rfl⟩

theorem noPool_storage (o : Options) : NoPool (storage o) :=
  ⟨rfl, rfl⟩

theorem noPool_ufs (o : Options) (env : Environment) : NoPool (ufs o env) := by
  unfold ufs
  split <;> exact ⟨rfl, rfl⟩

/-! ## 2. The two option strings -/

/-- What the board means the emulator to read of the device that memory is plugged into, up to the
size. -/
def pluggedDevice : List Property :=
  [.word "virtio-mem", .pair "id" "plugged-mem0", .pair "memdev" "plugged-mem-pool0",
    .pair "node" "0"]

/-- The same of the memory itself. -/
def pluggedPool : List Property :=
  [.word "memory-backend-ram", .pair "id" "plugged-mem-pool0"]

theorem read_pluggedDevice (size : String) :
    OptionString.read (OptionString.ofProperties pluggedDevice ++ ",requested-size=" ++ size) =
      pluggedDevice ++ spill "requested-size" size := by
  have htext : ",requested-size=" = "," ++ "requested-size" ++ "=" := by decide
  have hreadable : ∀ p ∈ pluggedDevice, OptionString.Readable p := by
    simp only [pluggedDevice, List.forall_mem_cons, OptionString.readable_word,
      OptionString.readable_pair]
    exact ⟨by decide, by decide, by decide, by decide, by simp⟩
  rw [htext, ← String.append_assoc, ← String.append_assoc]
  exact OptionString.read_spill (by decide) hreadable (by decide) (by decide) size

theorem read_pluggedPool (size : String) :
    OptionString.read (OptionString.ofProperties pluggedPool ++ ",size=" ++ size) =
      pluggedPool ++ spill "size" size := by
  have htext : ",size=" = "," ++ "size" ++ "=" := by decide
  have hreadable : ∀ p ∈ pluggedPool, OptionString.Readable p := by
    simp only [pluggedPool, List.forall_mem_cons, OptionString.readable_word,
      OptionString.readable_pair]
    exact ⟨by decide, by decide, by simp⟩
  rw [htext, ← String.append_assoc, ← String.append_assoc]
  exact OptionString.read_spill (by decide) hreadable (by decide) (by decide) size

theorem pluggedMemory_eq {o : Options} {host : Host} {size : String}
    (hsize : o.pluggedMemory = some size) (hhost : host.windows = false) :
    pluggedMemory o host =
      [.option "-device" (OptionString.ofProperties pluggedDevice ++ ",requested-size=" ++ size),
        .option "-object" (OptionString.ofProperties pluggedPool ++ ",size=" ++ size)] := by
  unfold pluggedMemory
  rw [hsize, hhost]
  rfl

theorem readings_pluggedMemory {o : Options} {host : Host} {size : String}
    (hsize : o.pluggedMemory = some size) (hhost : host.windows = false) :
    readings "-device" "virtio-mem" (pluggedMemory o host) =
        [pluggedDevice ++ spill "requested-size" size] ∧
      readings "-object" "memory-backend-ram" (pluggedMemory o host) =
        [pluggedPool ++ spill "size" size] := by
  rw [pluggedMemory_eq hsize hhost]
  constructor
  · rw [readings, Argument.values_option_cons, if_pos rfl, Argument.values_option_cons,
      if_neg (by decide), Argument.values_nil, List.map_singleton, read_pluggedDevice]
    rfl
  · rw [readings, Argument.values_option_cons, if_neg (by decide), Argument.values_option_cons,
      if_pos rfl, Argument.values_nil, List.map_singleton, read_pluggedPool]
    rfl

/-! ## 3. The assembled command line -/

theorem readings_arguments (o : Options) (sel : Selection) (env : Environment) :
    readings "-device" "virtio-mem" (arguments o sel env) =
        readings "-device" "virtio-mem" (pluggedMemory o env.host) ∧
      readings "-object" "memory-backend-ram" (arguments o sel env) =
        readings "-object" "memory-backend-ram" (pluggedMemory o env.host) := by
  have hbefore : NoPool ([machine o sel] ++ (boot o env ++ (display o ++ (debugStub o ++
      (paravirtual o env.host ++ sharedDirectory o))))) :=
    .append ⟨rfl, rfl⟩ (.append (noPool_boot o env) (.append (noPool_display o)
      (.append (noPool_debugStub o) (.append (noPool_paravirtual o env.host)
        (noPool_sharedDirectory o)))))
  have hafter : NoPool (crypto ++ (firstConsole ++ (iommuDevice sel.iommu ++
      (soundCard sel.sound ++ (storage o ++ (watchdog ++ (ufs o env ++ teachingDevice))))))) :=
    .append ⟨rfl, rfl⟩ (.append ⟨rfl, rfl⟩ (.append (noPool_iommuDevice _)
      (.append (noPool_soundCard _) (.append (noPool_storage o) (.append ⟨rfl, rfl⟩
        (.append (noPool_ufs o env) ⟨rfl, rfl⟩))))))
  have harguments : arguments o sel env = ([machine o sel] ++ (boot o env ++ (display o ++
      (debugStub o ++ (paravirtual o env.host ++ sharedDirectory o))))) ++
      (pluggedMemory o env.host ++ (crypto ++ (firstConsole ++ (iommuDevice sel.iommu ++
      (soundCard sel.sound ++ (storage o ++ (watchdog ++ (ufs o env ++ teachingDevice)))))))) := by
    simp only [arguments, List.cons_append, List.append_assoc, List.nil_append]
  rw [harguments]
  exact hbefore.around hafter

/-- The emulator reads the device and the memory as the board means them, with the whole size in
each, exactly if the size has no comma in it.  Of any other size it takes the text up to the first
single comma, and each piece behind that is a property of its own. -/
theorem size_is_one_property_iff {o : Options} {sel : Selection} {env : Environment}
    {i : Invocation} {size : String} (h : Invocation.assemble o sel env = .ok i)
    (hsize : o.pluggedMemory = some size) (hhost : env.host.windows = false) :
    ∃ as, Argument.read i.args = some as ∧
      readings "-device" "virtio-mem" as =
        [[.word "virtio-mem", .pair "id" "plugged-mem0", .pair "memdev" "plugged-mem-pool0",
          .pair "node" "0"] ++ spill "requested-size" size] ∧
      readings "-object" "memory-backend-ram" as =
        [[.word "memory-backend-ram", .pair "id" "plugged-mem-pool0"] ++ spill "size" size] ∧
      ((readings "-device" "virtio-mem" as =
          [[.word "virtio-mem", .pair "id" "plugged-mem0", .pair "memdev" "plugged-mem-pool0",
            .pair "node" "0", .pair "requested-size" size]] ∧
        readings "-object" "memory-backend-ram" as =
          [[.word "memory-backend-ram", .pair "id" "plugged-mem-pool0", .pair "size" size]]) ↔
        ',' ∉ size.toList) := by
  have hparts := readings_arguments o sel env
  have hplugged := readings_pluggedMemory hsize hhost
  refine ⟨arguments o sel env, read_assembled h, hparts.1.trans hplugged.1,
    hparts.2.trans hplugged.2, ?_⟩
  rw [hparts.1, hparts.2, hplugged.1, hplugged.2]
  constructor
  · intro hread
    have hread : pluggedDevice ++ spill "requested-size" size =
        pluggedDevice ++ [.pair "requested-size" size] := (List.cons.inj hread.1).1
    have hdevice := List.append_cancel_left hread
    exact (OptionString.spill_eq_iff _ _).mp hdevice
  · intro hcomma
    rw [(OptionString.spill_eq_iff _ _).mpr hcomma, (OptionString.spill_eq_iff _ _).mpr hcomma]
    exact ⟨rfl, rfl⟩

/-- Options with a size that brings a property of its own. -/
def overridingOptions : Options := { pluggedMemory := some "256M,node=7" }

theorem size_overrides_the_node :
    ∃ i, Invocation.assemble overridingOptions ⟨.version 2, .el1, .smmu, .hda⟩
        { version := ⟨8, 2, 0⟩ } = .ok i ∧
      overridingOptions.pluggedMemory = some "256M,node=7" ∧
      ∃ as, Argument.read i.args = some as ∧
        readings "-device" "virtio-mem" as =
          [[.word "virtio-mem", .pair "id" "plugged-mem0", .pair "memdev" "plugged-mem-pool0",
            .pair "node" "0", .pair "requested-size" "256M", .pair "node" "7"]] ∧
        readings "-object" "memory-backend-ram" as =
          [[.word "memory-backend-ram", .pair "id" "plugged-mem-pool0", .pair "size" "256M",
            .pair "node" "7"]] := by
  obtain ⟨i, hi⟩ : ∃ i, Invocation.assemble overridingOptions ⟨.version 2, .el1, .smmu, .hda⟩
      { version := ⟨8, 2, 0⟩ } = .ok i := ⟨_, rfl⟩
  obtain ⟨as, hread, hdevice, hpool, -⟩ := size_is_one_property_iff hi rfl rfl
  have hrequested : spill "requested-size" "256M,node=7" =
      [.pair "requested-size" "256M", .pair "node" "7"] := by decide
  have hsize : spill "size" "256M,node=7" = [.pair "size" "256M", .pair "node" "7"] := by decide
  rw [hrequested] at hdevice
  rw [hsize] at hpool
  exact ⟨i, hi, rfl, as, hread, hdevice, hpool⟩

/-- Not every size is read as one property. -/
theorem not_every_size_is_one_property :
    ¬∀ (o : Options) (sel : Selection) (env : Environment) (i : Invocation) (size : String),
      Invocation.assemble o sel env = .ok i → o.pluggedMemory = some size →
      env.host.windows = false →
      ∃ as, Argument.read i.args = some as ∧
        readings "-device" "virtio-mem" as =
          [[.word "virtio-mem", .pair "id" "plugged-mem0", .pair "memdev" "plugged-mem-pool0",
            .pair "node" "0", .pair "requested-size" size]] ∧
        readings "-object" "memory-backend-ram" as =
          [[.word "memory-backend-ram", .pair "id" "plugged-mem-pool0", .pair "size" size]] := by
  intro hall
  obtain ⟨i, hi⟩ : ∃ i, Invocation.assemble overridingOptions ⟨.version 2, .el1, .smmu, .hda⟩
      { version := ⟨8, 2, 0⟩ } = .ok i := ⟨_, rfl⟩
  obtain ⟨as, hread, hdevice, -⟩ := hall _ _ _ i "256M,node=7" hi rfl rfl
  have has : as = arguments overridingOptions _ _ :=
    Option.some.inj (hread.symm.trans (read_assembled hi))
  rw [has, (readings_arguments _ _ _).1, (readings_pluggedMemory rfl rfl).1] at hdevice
  exact absurd hdevice (by decide)

end VirtBoard.Qemu.Assembly
