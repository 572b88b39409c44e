import VirtBoard.Qemu.Assembly

/-!
# Valid configurations

Five conditions on the options and the release decide whether there is a command line for them.
They are checked one after the other, and the first that is violated is the error.
-/

namespace VirtBoard.Qemu

/-! ## 1. The order of releases -/

theorem Version.le_iff {v w : Version} :
    v ≤ w ↔ v.major < w.major ∨ v.major = w.major ∧
      (v.minor < w.minor ∨ v.minor = w.minor ∧ v.revision ≤ w.revision) := by
  have hle : v ≤ w ↔ (compare v w).isLE = true := Iff.rfl
  simp only [hle, compare, compareLex, compareOn, Ordering.isLE_then_iff_or, Nat.compare_eq_lt,
    Nat.compare_eq_eq, Nat.isLE_compare, UInt32.lt_iff_toNat_lt, UInt32.le_iff_toNat_le,
    ← UInt32.toNat_inj]

theorem Version.virtioSoundMin_le_iff {v : Version} :
    virtioSoundMin ≤ v ↔ 8 < v.major ∨ v.major = 8 ∧ 2 ≤ v.minor := by
  have hrevision : (0 : UInt32) ≤ v.revision := UInt32.zero_le
  rw [le_iff]
  simp only [virtioSoundMin, hrevision, and_true, UInt32.le_iff_lt_or_eq, eq_comm]

end VirtBoard.Qemu

namespace VirtBoard.Board

/-! ## 2. The first of several errors -/

section

variable {ε α β : Type}

theorem bind_eq_ok {x : Except ε α} {f : α → Except ε β} {b : β} :
    x >>= f = .ok b ↔ ∃ a, x = .ok a ∧ f a = .ok b := by
  cases x <;> simp [bind, Except.bind]

/-- A computation fails with the first of some errors, and not at all if there are none. -/
def FailsFirst (x : Except ε α) (errors : List ε) : Prop :=
  ∀ e, x = .error e ↔ errors.head? = some e

namespace FailsFirst

variable {x : Except ε α} {es es' : List ε}

theorem ok_iff (h : FailsFirst x es) : (∃ a, x = .ok a) ↔ es = [] := by
  constructor
  · rintro ⟨a, rfl⟩
    cases es with
    | nil => rfl
    | cons e es => exact absurd ((h e).mpr rfl) (by simp)
  · rintro rfl
    cases x with
    | ok a => exact ⟨a, rfl⟩
    | error e => exact absurd ((h e).mp rfl) (by simp)

theorem bind {f : α → Except ε β} (h : FailsFirst x es)
    (hf : ∀ a, x = .ok a → FailsFirst (f a) es') : FailsFirst (x >>= f) (es ++ es') := by
  cases es with
  | cons e es =>
    have hx : x = .error e := (h e).mpr rfl
    subst hx
    exact fun e' => by simp [Bind.bind, Except.bind]
  | nil =>
    obtain ⟨a, rfl⟩ := h.ok_iff.mpr rfl
    exact hf a rfl

theorem ite (p : Prop) [Decidable p] (a : α) (e : ε) :
    FailsFirst (if p then .ok a else .error e) (if p then [] else [e]) := by
  intro e'
  by_cases hp : p <;> simp [hp, eq_comm]

end FailsFirst

end

/-! ## 3. Conditions on the options and the release -/

/-- The errors of the conditions that are violated, in the order of the checks. -/
def violations (o : Options) (version : Qemu.Version) : List UsageError :=
  (if o.exceptionLevel = 1 ∨ o.exceptionLevel = 2 ∨ o.exceptionLevel = 3 then []
    else [.invalidExceptionLevel o.exceptionLevel]) ++
  ((if o.iommu = "smmu" ∨ o.iommu = "virtio" then [] else [.invalidIommu o.iommu]) ++
  ((if o.gl = true → o.graphic = true then [] else [.glWithoutGraphic]) ++
  ((if o.sound = "hda" ∨ o.sound = "virtio" then [] else [.invalidSound o.sound]) ++
  (if o.sound = "virtio" → 8 < version.major ∨ version.major = 8 ∧ 2 ≤ version.minor then []
    else [.virtioSoundUnsupported version]))))

/-- The configurations that a release can run. -/
structure Valid (o : Options) (version : Qemu.Version) : Prop where
  exceptionLevel : o.exceptionLevel = 1 ∨ o.exceptionLevel = 2 ∨ o.exceptionLevel = 3
  iommu : o.iommu = "smmu" ∨ o.iommu = "virtio"
  gl : o.gl = true → o.graphic = true
  sound : o.sound = "hda" ∨ o.sound = "virtio"
  release : o.sound = "virtio" → 8 < version.major ∨ version.major = 8 ∧ 2 ≤ version.minor

theorem violations_eq_nil_iff {o : Options} {version : Qemu.Version} :
    violations o version = [] ↔ Valid o version := by
  have hoptional (p : Prop) [Decidable p] (e : UsageError) : (if p then [] else [e]) = [] ↔ p := by
    split <;> simp [*]
  simp only [violations, List.append_eq_nil_iff, hoptional]
  constructor
  · rintro ⟨hlevel, hiommu, hgl, hsound, hrelease⟩
    exact ⟨hlevel, hiommu, hgl, hsound, hrelease⟩
  · rintro ⟨hlevel, hiommu, hgl, hsound, hrelease⟩
    exact ⟨hlevel, hiommu, hgl, hsound, hrelease⟩

/-! ## 4. The checks of the choices -/

theorem failsFirst_level (n : UInt32) :
    FailsFirst (ExceptionLevel.ofNumber n)
      (if n = 1 ∨ n = 2 ∨ n = 3 then [] else [.invalidExceptionLevel n]) := by
  intro e
  unfold ExceptionLevel.ofNumber
  split <;> simp_all

theorem failsFirst_iommu (name : String) :
    FailsFirst (Iommu.ofName name)
      (if name = "smmu" ∨ name = "virtio" then [] else [.invalidIommu name]) := by
  intro e
  unfold Iommu.ofName
  split <;> simp_all

theorem failsFirst_sound (name : String) :
    FailsFirst (Sound.ofName name)
      (if name = "hda" ∨ name = "virtio" then [] else [.invalidSound name]) := by
  intro e
  unfold Sound.ofName
  split <;> simp_all

theorem ExceptionLevel.ofNumber_ok {n : UInt32} {level : ExceptionLevel}
    (h : ofNumber n = .ok level) : level = .el2 ↔ n = 2 := by
  unfold ofNumber at h
  split at h <;> cases h <;> decide

theorem Iommu.ofName_ok {name : String} {iommu : Iommu} (h : ofName name = .ok iommu) :
    name = "smmu" ∧ iommu = .smmu ∨ name = "virtio" ∧ iommu = .virtio := by
  unfold ofName at h
  split at h <;> cases h <;> simp

theorem Sound.ofName_ok {name : String} {sound : Sound} (h : ofName name = .ok sound) :
    name = "hda" ∧ sound = .hda ∨ name = "virtio" ∧ sound = .virtio := by
  unfold ofName at h
  split at h <;> cases h <;> simp

theorem Selection.resolve_eq (o : Options) :
    resolve o = ExceptionLevel.ofNumber o.exceptionLevel >>= fun level =>
      Iommu.ofName o.iommu >>= fun iommu =>
      (if o.gl = true → o.graphic = true then .ok () else .error .glWithoutGraphic) >>= fun _ =>
      Sound.ofName o.sound >>= fun sound =>
      .ok { gic := chooseGic o.gic o.cpus level, level, iommu, sound } := by
  unfold resolve
  cases o.gl <;> cases o.graphic <;> rfl

/-- What the choices are resolved to. -/
theorem Selection.resolve_ok {o : Options} {sel : Selection} (h : resolve o = .ok sel) :
    sel.gic = (if 8 < o.cpus ∨ o.exceptionLevel = 2 ∧ o.gic = 3 then .max else .version o.gic) ∧
      (o.iommu = "smmu" ∧ sel.iommu = .smmu ∨ o.iommu = "virtio" ∧ sel.iommu = .virtio) ∧
      (o.sound = "hda" ∧ sel.sound = .hda ∨ o.sound = "virtio" ∧ sel.sound = .virtio) := by
  rw [resolve_eq] at h
  obtain ⟨level, hlevel, h⟩ := bind_eq_ok.mp h
  obtain ⟨iommu, hiommu, h⟩ := bind_eq_ok.mp h
  obtain ⟨-, -, h⟩ := bind_eq_ok.mp h
  obtain ⟨sound, hsound, h⟩ := bind_eq_ok.mp h
  obtain rfl := Except.ok.inj h
  refine ⟨?_, Iommu.ofName_ok hiommu, Sound.ofName_ok hsound⟩
  simp only [chooseGic, gicV2MaxCpus, ExceptionLevel.ofNumber_ok hlevel]

/-! ## 5. All checks -/

/-- A command line for a configuration: its choices are checked and resolved, then it is
assembled. -/
def configured (o : Options) (env : Qemu.Environment) : Except UsageError Qemu.Invocation :=
  Selection.resolve o >>= fun sel => Qemu.Invocation.assemble o sel env

theorem failsFirst_assemble (o : Options) (sel : Selection) (env : Qemu.Environment) :
    FailsFirst (Qemu.Invocation.assemble o sel env)
      (if sel.sound = .virtio → Qemu.Version.virtioSoundMin ≤ env.version then []
        else [.virtioSoundUnsupported env.version]) := by
  intro e
  unfold Qemu.Invocation.assemble
  split <;> split <;> simp_all

theorem failsFirst_configured (o : Options) (env : Qemu.Environment) :
    FailsFirst (configured o env) (violations o env.version) := by
  unfold configured
  rw [Selection.resolve_eq]
  simp only [bind_assoc]
  apply (failsFirst_level _).bind
  intro level _
  apply (failsFirst_iommu _).bind
  intro iommu _
  apply (FailsFirst.ite _ _ _).bind
  intro _ _
  apply (failsFirst_sound _).bind
  intro sound hsound
  have hrelease : (sound = .virtio → Qemu.Version.virtioSoundMin ≤ env.version) ↔
      (o.sound = "virtio" →
        8 < env.version.major ∨ env.version.major = 8 ∧ 2 ≤ env.version.minor) := by
    rw [Qemu.Version.virtioSoundMin_le_iff]
    rcases Sound.ofName_ok hsound with ⟨hname, rfl⟩ | ⟨hname, rfl⟩ <;> simp [hname]
  simp only [← hrelease]
  exact failsFirst_assemble o _ env

end VirtBoard.Board
