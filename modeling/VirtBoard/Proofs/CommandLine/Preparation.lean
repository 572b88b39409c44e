import VirtBoard.CommandLine.Launcher
import VirtBoard.Proofs.Launch.Stages

/-!
# What the launcher settles first

Before it shows a command line or touches anything the launcher reads the board flags, finds the
emulator, asks it for its release and assembles the command line.  All that can start in this part
is the emulator, once, and only when the flags are in order.
-/

namespace VirtBoard.CommandLine.Launcher

open VirtBoard.Action Board FileSystem Launch Qemu

variable {m : Machine} {w : World}

/-! ## 1. The parts of a run -/

/-- The configuration that the board flags ask for. -/
def configuration (flags : List String) : Except UsageError (Options × Selection) :=
  match Options.parse flags with
  | .error e => .error e
  | .ok o => (Selection.resolve o).map fun sel => (o, sel)

theorem configuration_eq_ok_iff {flags : List String} {o : Options} {sel : Selection} :
    configuration flags = .ok (o, sel) ↔
      Options.parse flags = .ok o ∧ Selection.resolve o = .ok sel := by
  unfold configuration
  cases Options.parse flags with
  | error e => simp
  | ok o' =>
    dsimp only [Except.map]
    constructor
    · intro h
      cases hsel : Selection.resolve o' with
      | error e => simp [hsel] at h
      | ok sel' =>
        rw [hsel] at h
        obtain ⟨rfl, rfl⟩ := Prod.mk.inj (Except.ok.inj h)
        exact ⟨rfl, hsel⟩
    · rintro ⟨ho, hsel⟩
      obtain rfl := Except.ok.inj ho
      rw [hsel]

/-- What is settled once the emulator is known. -/
structure Plan where
  options : Options
  selection : Selection
  environment : Environment
  invocation : Invocation

/-- Finds the emulator, asks it for its release and assembles its command line. -/
def inquire (s : Settings) (o : Options) (sel : Selection) : Action Plan := do
  let qemu ← Action.which s.qemu (.notInSearchPath s.qemu)
  let version ← queryVersion qemu
  let host := Host.detect (← get).files (← Action.machine).cwd qemu
  let environment : Environment := { program := qemu, kernel := s.kernel, version, host }
  let invocation ← checked (Invocation.assemble o sel environment)
  for warning in Assembly.warnings o host do
    Action.warn warning
  return ⟨o, sel, environment, invocation⟩

def prepare (s : Settings) : Action Plan := do
  let c ← checked (configuration s.flags)
  inquire s c.1 c.2

/-- Provides the images and launches the board. -/
def boot (s : Settings) (x : Plan) : Action Nat := do
  let work := (← Action.machine).cwd.path
  let qemuImg ← Action.which s.qemuImg (.notInSearchPath s.qemuImg)
  let _ ← ensureImages work qemuImg x.invocation.disks
  let root ← DeviceTree.sourceRoot s.root
  let tools : TreeTools := ⟨root, s.compiler, s.preprocessor⟩
  let status ← Pipeline.run ⟨x.options, x.selection, x.environment, work, tools⟩
  return exitCode status

def display (s : Settings) (x : Plan) : Action Nat := do
  present s.json x.invocation
  return 0

theorem checked_configuration_bind (flags : List String) (f : Options → Selection → Action α) :
    (checked (configuration flags) >>= fun c => f c.1 c.2) =
      checked (Options.parse flags) >>= fun o => checked (Selection.resolve o) >>= f o := by
  unfold configuration
  cases Options.parse flags with
  | error e => rfl
  | ok o =>
    show (checked ((Selection.resolve o).map _) >>= _) = checked (Selection.resolve o) >>= f o
    cases Selection.resolve o <;> rfl

theorem run_eq (s : Settings) :
    run s = prepare s >>= fun x => if s.dryRun then display s x else boot s x := by
  unfold run prepare
  rw [checked_configuration_bind]
  unfold inquire display boot
  simp only [bind_assoc, pure_bind]

/-! ## 2. The question for the release -/

def versionQuery (qemu : Path) : Command :=
  ⟨qemu, ["--version"]⟩

/-- What a run of the emulator answers to the question. -/
def answer (qemu : Path) (r : Run) : Except Failure Version :=
  if r.effect.status = .success then (versionOfOutput r.effect.output).mapError .version
  else .error (.failed (qemu.text ++ " --version") r.effect.status)

/-- The release that a run of the emulator tells, if the run succeeds and its banner is usable. -/
def release? (r : Run) : Option Version :=
  if r.effect.status = .success then (versionOfOutput r.effect.output).toOption else none

theorem toOption_answer (qemu : Path) (r : Run) : (answer qemu r).toOption = release? r := by
  unfold answer release?
  split
  next => cases versionOfOutput r.effect.output <;> rfl
  next => rfl

theorem perform_queryVersion (qemu : Path) :
    (queryVersion qemu).perform m w =
      match m.run? w.runs w.files w.now .captured (versionQuery qemu) with
      | none => (.error (.notRun (qemu.text ++ " --version")), w)
      | some r => (answer qemu r, w.after r) := by
  unfold queryVersion versionQuery
  rw [perform_bind, perform_startWith]
  cases m.run? w.runs w.files w.now .captured ⟨qemu, ["--version"]⟩ with
  | none => rfl
  | some r =>
    dsimp only [answer]
    by_cases hs : r.effect.status = .success
    · rw [if_neg (fun hne => hne hs), if_pos hs]
      cases versionOfOutput r.effect.output <;> rfl
    · rw [if_pos hs, if_neg hs]
      rfl

/-! ## 3. How the preparation ends -/

/-- The emulator after its answer: its program as it is then shows its platform. -/
def environment (s : Settings) (m : Machine) (qemu : Path) (r : Run) (v : Version) : Environment :=
  { program := qemu, kernel := s.kernel, version := v,
    host := Host.detect r.effect.files m.cwd qemu }

theorem perform_checked_bind (x : Except UsageError α) (f : α → Action β) :
    (checked x >>= f).perform m w =
      match x with
      | .error e => (.error (.usage e), w)
      | .ok a => (f a).perform m w := by
  cases x <;> rfl

theorem perform_which_bind (p : Path) (failure : Failure) (f : Path → Action β) :
    (Action.which p failure >>= f).perform m w =
      match m.which w.files p with
      | none => (.error failure, w)
      | some found => (f found).perform m w := by
  rw [perform_bind, perform_which]
  cases m.which w.files p <;> rfl

theorem perform_inquire (s : Settings) (o : Options) (sel : Selection) (m : Machine) (w : World) :
    (inquire s o sel).perform m w =
      match m.which w.files s.qemu with
      | none => (.error (.notInSearchPath s.qemu), w)
      | some qemu =>
        match m.run? w.runs w.files w.now .captured (versionQuery qemu) with
        | none => (.error (.notRun (qemu.text ++ " --version")), w)
        | some r =>
          match answer qemu r with
          | .error e => (.error e, w.after r)
          | .ok v =>
            match Invocation.assemble o sel (environment s m qemu r v) with
            | .error e => (.error (.usage e), w.after r)
            | .ok i =>
              (.ok ⟨o, sel, environment s m qemu r v, i⟩,
                told (Assembly.warnings o (environment s m qemu r v).host) (w.after r)) := by
  unfold inquire
  rw [perform_which_bind]
  cases m.which w.files s.qemu with
  | none => rfl
  | some qemu =>
    dsimp only
    rw [perform_bind, perform_queryVersion]
    cases m.run? w.runs w.files w.now .captured (versionQuery qemu) with
    | none => rfl
    | some r =>
      dsimp only
      cases answer qemu r with
      | error e => rfl
      | ok v =>
        simp only [perform_bind, perform_get, perform_machine, perform_warnings, perform_pure,
          World.files_after, environment]
        let env : Environment := ⟨qemu, s.kernel, v, Host.detect r.effect.files m.cwd qemu⟩
        cases Invocation.assemble o sel env <;> rfl

/-- The question for the release, as it is put in a world. -/
structure Asks (s : Settings) (m : Machine) (w : World) (qemu : Path) (r : Run) : Prop where
  found : m.which w.files s.qemu = some qemu
  started : m.run? w.runs w.files w.now .captured (versionQuery qemu) = some r

/-- What an answer settles for a configuration. -/
structure Settles (s : Settings) (m : Machine) (o : Options) (sel : Selection) (qemu : Path)
    (r : Run) (x : Plan) : Prop where
  options : x.options = o
  selection : x.selection = sel
  release : ∃ v, release? r = some v ∧ x.environment = environment s m qemu r v
  invocation : Invocation.assemble o sel x.environment = .ok x.invocation

/-- A run tells a release that has all that a configuration needs. -/
def Usable (sel : Selection) (r : Run) : Prop :=
  ∃ v, release? r = some v ∧ (sel.sound = .virtio → Version.virtioSoundMin ≤ v)

theorem Settles.usable {s : Settings} {o : Options} {sel : Selection} {qemu : Path} {r : Run}
    {x : Plan} (h : Settles s m o sel qemu r x) : Usable sel r := by
  obtain ⟨v, hv, henv⟩ := h.release
  refine ⟨v, hv, fun hsound => ?_⟩
  have hassembled := h.invocation
  rw [henv, Invocation.assemble] at hassembled
  split at hassembled
  next => cases hassembled
  next hnew => exact Decidable.byContradiction fun hold => hnew ⟨hsound, hold⟩

/-- The emulator is not asked, or its answer is of no use, or it settles a plan. -/
theorem inquire_cases (s : Settings) (o : Options) (sel : Selection) (m : Machine) (w : World) :
    (∃ e, (inquire s o sel).perform m w = (.error e, w)) ∨
    ∃ qemu r, Asks s m w qemu r ∧
      ((∃ e, ¬Usable sel r ∧ (inquire s o sel).perform m w = (.error e, w.after r)) ∨
        ∃ x w₁, Settles s m o sel qemu r x ∧ w₁.files = r.effect.files ∧
          w₁.runs = w.runs ++ [r] ∧ w₁.printed = w.printed ∧
          (inquire s o sel).perform m w = (.ok x, w₁)) := by
  rw [perform_inquire]
  cases hqemu : m.which w.files s.qemu with
  | none => exact Or.inl ⟨_, rfl⟩
  | some qemu =>
    dsimp only
    cases hrun : m.run? w.runs w.files w.now .captured (versionQuery qemu) with
    | none => exact Or.inl ⟨_, rfl⟩
    | some r =>
      refine Or.inr ⟨qemu, r, ⟨hqemu, hrun⟩, ?_⟩
      have hrelease := toOption_answer qemu r
      dsimp only
      cases hanswer : answer qemu r with
      | error e =>
        rw [hanswer] at hrelease
        refine Or.inl ⟨e, ?_, rfl⟩
        rintro ⟨v, hv, -⟩
        cases hrelease.trans hv
      | ok v =>
        rw [hanswer] at hrelease
        dsimp only
        cases hi : Invocation.assemble o sel (environment s m qemu r v) with
        | error e =>
          refine Or.inl ⟨_, ?_, rfl⟩
          rintro ⟨v', hv', hnew⟩
          obtain rfl := Option.some.inj (hrelease.trans hv')
          unfold Invocation.assemble at hi
          split at hi
          next hold => exact hold.2 (hnew hold.1)
          next => cases hi
        | ok i =>
          obtain ⟨hfiles, -, hruns⟩ :=
            told_keeps (Assembly.warnings o (environment s m qemu r v).host) (w.after r)
          have hx : Settles s m o sel qemu r ⟨o, sel, environment s m qemu r v, i⟩ :=
            ⟨rfl, rfl, ⟨v, hrelease.symm, rfl⟩, hi⟩
          exact Or.inr ⟨_, _, hx, hfiles, hruns.trans (World.runs_after w r),
            (printed_told _ _).trans (World.printed_after w r), rfl⟩

theorem prepare_eq {s : Settings} {o : Options} {sel : Selection}
    (hparse : Options.parse s.flags = .ok o) (hresolve : Selection.resolve o = .ok sel) :
    prepare s = inquire s o sel := by
  have hchecked : checked (configuration s.flags) = pure (o, sel) := by
    rw [configuration_eq_ok_iff.mpr ⟨hparse, hresolve⟩]
    rfl
  rw [prepare, hchecked, pure_bind]

/-- Nothing is done for flags that are not in order. -/
theorem perform_prepare_refused {s : Settings}
    (h : ∀ o sel, Options.parse s.flags = .ok o → Selection.resolve o ≠ .ok sel) :
    ∃ e, (prepare s).perform m w = (.error e, w) := by
  unfold prepare
  cases hc : configuration s.flags with
  | error e => exact ⟨_, rfl⟩
  | ok c =>
    obtain ⟨hparse, hresolve⟩ := configuration_eq_ok_iff.mp hc
    exact absurd hresolve (h _ _ hparse)

/-! ## 4. The whole program -/

/-- The exit code of the launcher and the world that it leaves, for an argument list that it does
not reject. -/
def outcome? (envRoot : Option String) (args : List String) (m : Machine) (w : World) :
    Option (Nat × World) :=
  match read envRoot args with
  | .misuse => none
  | .help => some (0, w)
  | .run s => some (resultCode ((run s).perform m w).1, ((run s).perform m w).2)

end VirtBoard.CommandLine.Launcher
