import VirtBoard.Qemu.Assembly

/-!
# Reading the emulator's command line

How the emulator takes its command line apart: three switches stand alone, and any other word in
the place of an option takes the next word as its value, whatever that word looks like.  An assembled
command line reads as exactly the options it was assembled from.
-/

namespace VirtBoard.Qemu

namespace Argument

/-! ## 1. The reader -/

/-- The options that take no value. -/
def switches : List String := ["-nographic", "-S", "-s"]

/-- The options that words spell, or `none` if the last option lacks its value. -/
def read : List String → Option (List Argument)
  | [] => some []
  | name :: rest =>
    if name ∈ switches then (read rest).map (.alone name :: ·)
    else
      match rest with
      | [] => none
      | value :: rest => (read rest).map (.option name value :: ·)

/-- An option that the reader takes for what it is: it has a value unless it is a switch. -/
def Legible : Argument → Prop
  | .alone name => name ∈ switches
  | .option name _ => name ∉ switches

theorem read_alone {name : String} (h : name ∈ switches) (rest : List String) :
    read (name :: rest) = (read rest).map (.alone name :: ·) := by
  rw [read.eq_def]
  exact if_pos h

theorem read_option {name : String} (h : name ∉ switches) (value : String)
    (rest : List String) :
    read (name :: value :: rest) = (read rest).map (.option name value :: ·) := by
  rw [read.eq_def]
  exact if_neg h

theorem read_words {as : List Argument} (h : ∀ a ∈ as, a.Legible) :
    read (as.flatMap words) = some as := by
  induction as with
  | nil => rw [List.flatMap_nil, read]
  | cons a as ih =>
    have ha := h a List.mem_cons_self
    have ih := ih fun b hb => h b (List.mem_cons_of_mem a hb)
    rw [List.flatMap_cons]
    cases a with
    | alone name => rw [words, List.singleton_append, read_alone ha, ih, Option.map_some]
    | option name value =>
      rw [words, List.cons_append, List.singleton_append, read_option ha, ih, Option.map_some]

/-- The word that an option begins with. -/
def name : Argument → String
  | .alone name => name
  | .option name _ => name

@[simp] theorem name_alone (n : String) : (alone n).name = n :=
  rfl

@[simp] theorem name_option (n v : String) : (option n v).name = n :=
  rfl

@[simp] theorem name_ofProperties (n : String) (ps : List Property) :
    (ofProperties n ps).name = n :=
  rfl

/-- The values of all options with a name, in order. -/
def values (name : String) (as : List Argument) : List String :=
  as.filterMap fun
    | .alone _ => none
    | .option n v => if n = name then some v else none

@[simp] theorem values_nil (name : String) : values name [] = [] :=
  rfl

@[simp] theorem values_append (name : String) (as bs : List Argument) :
    values name (as ++ bs) = values name as ++ values name bs :=
  List.filterMap_append

@[simp] theorem values_alone_cons (name n : String) (as : List Argument) :
    values name (.alone n :: as) = values name as :=
  rfl

@[simp] theorem values_option_cons (name n v : String) (as : List Argument) :
    values name (.option n v :: as) =
      if n = name then v :: values name as else values name as := by
  by_cases h : n = name <;> simp [values, h]

theorem values_eq_nil {n : String} {as : List Argument} (h : n ∉ as.map name) :
    values n as = [] := by
  induction as with
  | nil => rfl
  | cons a as ih =>
    rw [List.map_cons, List.mem_cons, not_or] at h
    cases a with
    | alone m => rw [values_alone_cons, ih h.2]
    | option m v => rw [values_option_cons, if_neg (fun he : m = n => h.1 he.symm), ih h.2]

end Argument

namespace Assembly

open Board Argument

/-! ## 2. Names of the options in each section -/

@[simp] theorem name_device (ps : List Property) : (device ps).name = "-device" :=
  rfl

@[simp] theorem name_bareDevice (n : String) : (bareDevice n).name = "-device" :=
  rfl

@[simp] theorem name_drive (n id : String) : (drive n id).name = "-drive" :=
  rfl

@[simp] theorem name_console (tcp id : String) : (console tcp id).name = "-chardev" :=
  rfl

@[simp] theorem name_network (o : Options) (host : Host) : (network o host).name = "-netdev" :=
  rfl

@[simp] theorem name_machine (o : Options) (sel : Selection) : (machine o sel).name = "-M" :=
  rfl

theorem names_boot (o : Options) (env : Environment) :
    (boot o env).map name = ["-cpu", "-smp", "-m", "-kernel", "-append"] ++
      (if o.tree.isSome then ["-dtb"] else []) ++ (if o.initrd.isSome then ["-initrd"] else []) ++
      ["-device"] := by
  cases ht : o.tree <;> cases hi : o.initrd <;> simp [boot, ht, hi]

theorem names_display (o : Options) :
    (display o).map name =
      if o.graphic then
        "-serial" :: List.replicate 5 "-device" ++ if o.gl then ["-device", "-display"] else []
      else ["-nographic"] := by
  cases hg : o.graphic <;> cases hl : o.gl <;> simp [display, hg, hl, List.replicate]

theorem names_debugStub (o : Options) :
    (debugStub o).map name = if o.debug then ["-S", "-s"] else [] := by
  cases h : o.debug <;> simp [debugStub, h]

theorem names_paravirtual (o : Options) (host : Host) :
    (paravirtual o host).map name =
      ["-drive", "-device", "-netdev"] ++ List.replicate 5 "-device" ++ ["-drive"] := by
  simp [paravirtual, List.replicate]

theorem names_sharedDirectory (o : Options) :
    (sharedDirectory o).map name = if o.share.isSome then ["-fsdev", "-device"] else [] := by
  cases h : o.share <;> simp [sharedDirectory, h]

theorem names_pluggedMemory (o : Options) (host : Host) :
    (pluggedMemory o host).map name =
      if o.pluggedMemory.isSome ∧ ¬host.windows then ["-device", "-object"] else [] := by
  cases h : o.pluggedMemory <;> cases hw : host.windows <;> simp [pluggedMemory, h, hw]

theorem names_crypto : crypto.map name = ["-device", "-object"] :=
  rfl

theorem names_firstConsole : firstConsole.map name = ["-device", "-chardev", "-device"] :=
  rfl

theorem names_iommuDevice (i : Iommu) :
    (iommuDevice i).map name = if i = .virtio then ["-device"] else [] := by
  cases i <;> rfl

theorem names_soundCard (s : Sound) :
    (soundCard s).map name = ["-device", if s = .hda then "-device" else "-audiodev"] := by
  cases s <;> rfl

theorem names_storage (o : Options) :
    (storage o).map name =
      ["-drive", "-device", "-chardev", "-device", "-device", "-drive", "-device", "-drive",
        "-device"] :=
  rfl

theorem names_watchdog : watchdog.map name = ["-device", "-watchdog-action"] :=
  rfl

theorem names_ufs (o : Options) (env : Environment) :
    (ufs o env).map name = if hasUfs env then ["-drive", "-device", "-device"] else [] := by
  by_cases h : hasUfs env <;> simp [ufs, h]

theorem names_teachingDevice : teachingDevice.map name = ["-device"] :=
  rfl

/-! ## 3. Assembled command lines -/

@[simp] theorem legible_ofProperties (name : String) (ps : List Property) :
    (Argument.ofProperties name ps).Legible ↔ name ∉ switches :=
  Iff.rfl

@[simp] theorem legible_option (name value : String) :
    (Argument.option name value).Legible ↔ name ∉ switches :=
  Iff.rfl

@[simp] theorem legible_device (ps : List Property) : (device ps).Legible := by
  show "-device" ∉ switches
  decide

@[simp] theorem legible_bareDevice (name : String) : (bareDevice name).Legible :=
  legible_device _

@[simp] theorem legible_drive (name id : String) : (drive name id).Legible := by
  show "-drive" ∉ switches
  decide

@[simp] theorem legible_console (tcp id : String) : (console tcp id).Legible := by
  show "-chardev" ∉ switches
  decide

theorem legible_boot (o : Options) (env : Environment) : ∀ a ∈ boot o env, a.Legible := by
  simp [boot, switches, or_imp, forall_and]

theorem legible_display (o : Options) : ∀ a ∈ display o, a.Legible := by
  have halone : (Argument.alone "-nographic").Legible := by
    show "-nographic" ∈ switches
    decide
  unfold display
  split
  · split <;> simp [switches]
  · simpa using halone

theorem legible_debugStub (o : Options) : ∀ a ∈ debugStub o, a.Legible := by
  unfold debugStub
  split
  · intro a ha
    rcases List.mem_cons.mp ha with rfl | ha
    · show "-S" ∈ switches
      decide
    · rw [List.mem_singleton.mp ha]
      show "-s" ∈ switches
      decide
  · simp

theorem legible_paravirtual (o : Options) (host : Host) :
    ∀ a ∈ paravirtual o host, a.Legible := by
  simp [paravirtual, network, switches]

theorem legible_sharedDirectory (o : Options) : ∀ a ∈ sharedDirectory o, a.Legible := by
  unfold sharedDirectory
  split <;> simp [switches]

theorem legible_pluggedMemory (o : Options) (host : Host) :
    ∀ a ∈ pluggedMemory o host, a.Legible := by
  unfold pluggedMemory
  split
  · simp
  · split <;> simp [switches]

theorem legible_iommuDevice (i : Iommu) : ∀ a ∈ iommuDevice i, a.Legible := by
  cases i <;> simp [iommuDevice]

theorem legible_soundCard (s : Sound) : ∀ a ∈ soundCard s, a.Legible := by
  cases s <;> simp [soundCard, switches]

theorem legible_storage (o : Options) : ∀ a ∈ storage o, a.Legible := by
  simp [storage, switches]

theorem legible_ufs (o : Options) (env : Environment) : ∀ a ∈ ufs o env, a.Legible := by
  unfold ufs
  split <;> simp

theorem legible_arguments (o : Options) (sel : Selection) (env : Environment) :
    ∀ a ∈ arguments o sel env, a.Legible := by
  have hmachine : (machine o sel).Legible := by
    show "-M" ∉ switches
    decide
  simp only [arguments, List.cons_append, List.forall_mem_cons, List.forall_mem_append,
    and_assoc]
  refine ⟨hmachine, legible_boot o env, legible_display o, legible_debugStub o,
    legible_paravirtual o env.host, legible_sharedDirectory o, legible_pluggedMemory o env.host,
    ?_, ?_, legible_iommuDevice _, legible_soundCard _, legible_storage o, ?_, legible_ufs o env, ?_⟩
  · simp [crypto, switches]
  · simp [firstConsole]
  · simp [watchdog, switches]
  · simp [teachingDevice]

/-- The values of a name in a command line are those in its sections, in order. -/
theorem values_arguments (n : String) (o : Options) (sel : Selection) (env : Environment) :
    values n (arguments o sel env) =
      values n [machine o sel] ++ (values n (boot o env) ++ (values n (display o) ++
      (values n (debugStub o) ++ (values n (paravirtual o env.host) ++
      (values n (sharedDirectory o) ++ (values n (pluggedMemory o env.host) ++
      (values n crypto ++ (values n firstConsole ++ (values n (iommuDevice sel.iommu) ++
      (values n (soundCard sel.sound) ++ (values n (storage o) ++ (values n watchdog ++
      (values n (ufs o env) ++ values n teachingDevice))))))))))))) := by
  have h : arguments o sel env = [machine o sel] ++ (boot o env ++ (display o ++ (debugStub o ++
      (paravirtual o env.host ++ (sharedDirectory o ++ (pluggedMemory o env.host ++ (crypto ++
      (firstConsole ++ (iommuDevice sel.iommu ++ (soundCard sel.sound ++ (storage o ++ (watchdog ++
      (ufs o env ++ teachingDevice))))))))))))) := by
    simp only [arguments, List.cons_append, List.append_assoc, List.nil_append]
  simp only [h, values_append]

theorem assemble_ok {o : Options} {sel : Selection} {env : Environment} {i : Invocation}
    (h : Invocation.assemble o sel env = .ok i) :
    i = ⟨env.program, (arguments o sel env).flatMap words, disks o env⟩ := by
  unfold Invocation.assemble at h
  split at h
  · cases h
  · exact (Except.ok.inj h).symm

/-- The emulator finds the options in its command line that the command line was assembled from. -/
theorem read_assembled {o : Options} {sel : Selection} {env : Environment} {i : Invocation}
    (h : Invocation.assemble o sel env = .ok i) :
    read i.args = some (arguments o sel env) := by
  rw [assemble_ok h]
  exact read_words (legible_arguments o sel env)

end Assembly

end VirtBoard.Qemu
