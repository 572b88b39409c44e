import VirtBoard.Proofs.CommandLine.Effects
import VirtBoard.Proofs.Launch.LastLaunch

/-!
# The exit code

The exit code of the launcher is that of the last launch of the emulator.  Nothing that comes after
that launch can hide its failure, and a failure of anything else makes the exit code 1.
-/

namespace VirtBoard.CommandLine.Launcher

open VirtBoard.Action Board DeviceTree FileSystem Launch Qemu
open Pipeline (OnlyRun)

variable {m : Machine} {w : World} {s : Settings}

/-! ## 1. From the result to the exit code -/

/-- The exit code for the runs of a launch, of which the last launch has one command. -/
inductive ExitsWith (p : Pipeline) (m : Machine) (c : Command) (rs : List Run) : Nat → Prop where
  /-- The last launch was not made. -/
  | notMade : (∀ r ∈ rs, r.start.command ≠ c) → ExitsWith p m c rs 1
  | failed {before r after code} : OnlyRun c rs before r after → r.effect.status = .exited code →
      code ≠ 0 → ExitsWith p m c rs code
  | killed {before r after signal} : OnlyRun c rs before r after →
      r.effect.status = .killed signal → ExitsWith p m c rs 1
  | finished {before r after} : OnlyRun c rs before r after → r.effect.status = .exited 0 →
      p.Finishes m r after → ExitsWith p m c rs 0
  | unfinished {before r after} : OnlyRun c rs before r after → r.effect.status = .exited 0 →
      ¬p.Finishes m r after → ExitsWith p m c rs 1

theorem exitsWith_of_endsWith {p : Pipeline} {c : Command} {rs : List Run}
    {result : Except Failure ExitStatus} (h : p.EndsWith m c rs result) :
    ExitsWith p m c rs (resultCode (result.map exitCode)) := by
  rcases h with ⟨hnone, e, rfl⟩ | ⟨before, r, after, honly, ⟨rfl, hdone⟩ | ⟨hs, hundone, e, rfl⟩⟩
  · exact .notMade hnone
  · cases hs : r.effect.status with
    | killed signal => exact .killed honly hs
    | exited code =>
      by_cases hcode : code = 0
      · rw [hcode] at hs ⊢
        exact .finished honly hs (hdone hs)
      · exact .failed honly hs hcode
  · exact .unfinished honly hs hundone

/-! ## 2. The launcher -/

/-- A run of the launcher comes to launch the board, with a plan and in a world. -/
structure Reaches (s : Settings) (m : Machine) (w : World) (x : Plan) (w' : World) : Prop where
  launches : s.dryRun = false
  provided : ∃ w₁ tool made, (prepare s).perform m w = (.ok x, w₁) ∧
    m.which w₁.files s.qemuImg = some tool ∧
    (ensureImages m.cwd.path tool x.invocation.disks).perform m w₁ = (.ok made, w')

theorem perform_run_of_reaches {x : Plan} {w' : World} (h : Reaches s m w x w') :
    (run s).perform m w =
      (((pipeline s m x).run.perform m w').1.map exitCode,
        ((pipeline s m x).run.perform m w').2) := by
  obtain ⟨w₁, tool, made, hprepare, htool, hmade⟩ := h.provided
  rw [run_eq, perform_bind, hprepare]
  dsimp only
  rw [if_neg (by simp [h.launches])]
  unfold boot
  simp only [perform_bind, perform_machine, perform_which, htool, hmade, perform_sourceRoot]
  exact (perform_bind _ _ m w').symm.trans (perform_bind_pure (pipeline s m x).run exitCode)

/-- A run that does not come to launch the board fails, unless it is a dry run. -/
theorem reaches_or_fails (hdry : s.dryRun = false) (m : Machine) (w : World) :
    (∃ x w', Reaches s m w x w') ∨ resultCode ((run s).perform m w).1 = 1 := by
  rw [run_eq, perform_bind]
  rcases hprepare : (prepare s).perform m w with ⟨e | x, w₁⟩
  · exact Or.inr rfl
  dsimp only
  rw [if_neg (by simp [hdry])]
  unfold boot
  simp only [perform_bind, perform_machine, perform_which]
  cases htool : m.which w₁.files s.qemuImg with
  | none => exact Or.inr rfl
  | some tool =>
    dsimp only
    rcases hmade : (ensureImages m.cwd.path tool x.invocation.disks).perform m w₁ with
      ⟨e | made, w'⟩
    · exact Or.inr rfl
    · exact Or.inl ⟨x, w', hdry, w₁, tool, made, hprepare, htool, hmade⟩

theorem prepare_ok {x : Plan} {w' : World} (h : (prepare s).perform m w = (.ok x, w')) :
    Options.parse s.flags = .ok x.options ∧
      Invocation.assemble x.options x.selection x.environment = .ok x.invocation := by
  cases hc : configuration s.flags with
  | error e =>
    rw [prepare, perform_checked_bind, hc] at h
    cases h
  | ok c =>
    obtain ⟨hparse, hresolve⟩ := configuration_eq_ok_iff.mp hc
    rw [prepare_eq hparse hresolve] at h
    rcases inquire_cases s c.1 c.2 m w with
      ⟨e, he⟩ | ⟨qemu, r, -, ⟨e, -, he⟩ | ⟨x', w₁, hx, -, -, -, he⟩⟩
    · cases he.symm.trans h
    · cases he.symm.trans h
    · obtain ⟨rfl, rfl⟩ : x' = x ∧ w₁ = w' := by simpa using he.symm.trans h
      have hi := hx.invocation
      rw [← hx.options, ← hx.selection] at hi
      exact ⟨by rw [hx.options]; exact hparse, hi⟩

/-- Whatever the flags, the files and the programs, a run that comes to launch the board exits with
the code of the last launch.  Without overlays the emulator runs at most once; behind it runs at most
the decompiler, only if a tree was to be dumped and the emulator has succeeded, and it reads the file
that the emulator was told to write. -/
theorem exit_code_is_the_emulators {envRoot : Option String} {args : List String}
    (hread : read envRoot args = .run s) {x : Plan} {w₂ : World} (h : Reaches s m w x w₂) :
    ∃ code w' launches c, outcome? envRoot args m w = some (code, w') ∧
      w'.runs = w₂.runs ++ launches ∧
      (pipeline s m x).emulator (pipeline s m x).lastOptions = some c ∧
      ExitsWith (pipeline s m x) m c launches code ∧
      (x.options.overlays = [] → launches = [] ∨
        ∃ r after, launches = r :: after ∧ r.start.command = c ∧
          (after = [] ∨ ∃ dump dtc r', x.options.dumpTree = some dump ∧
            r.effect.status = .success ∧ after = [r'] ∧
            r'.start.command = ⟨dtc, Toolchain.decompileArgs dump dump.treeSource⟩ ∧
            dumpTargets r.start.command.args = some [dump.text])) := by
  have houtcome : outcome? envRoot args m w =
      some (resultCode (((pipeline s m x).run.perform m w₂).1.map exitCode),
        ((pipeline s m x).run.perform m w₂).2) := by
    rw [outcome?, hread]
    dsimp only
    rw [perform_run_of_reaches h]
  have hplain : (pipeline s m x).emulator x.options =
      some ⟨x.invocation.program, x.invocation.args⟩ := by
    obtain ⟨w₁, -, -, hprepare, -⟩ := h.provided
    unfold Pipeline.emulator pipeline
    rw [(prepare_ok hprepare).2]
  -- There is a command line for the flags, so there is one for the merged tree.
  obtain ⟨c, hc⟩ : ∃ c, (pipeline s m x).emulator (pipeline s m x).lastOptions = some c := by
    refine Option.ne_none_iff_exists'.mp fun hnone => ?_
    cases hplain.symm.trans (Pipeline.emulator_eq_none _ x.options hnone)
  by_cases hoverlays : x.options.overlays = []
  · have hdirect : (pipeline s m x).options.overlays = [] := hoverlays
    obtain ⟨rs, result, w', hrun, hruns, hends, hshape⟩ :=
      (pipeline s m x).direct_ends hdirect hc m w₂
    rw [hrun] at houtcome
    refine ⟨_, w', rs, c, houtcome, hruns, hc, exitsWith_of_endsWith hends, fun _ => ?_⟩
    refine hshape.imp_right ?_
    rintro ⟨r, after, hrs, hcommand, hdecompiles⟩
    refine ⟨r, after, hrs, hcommand, hdecompiles.imp_right ?_⟩
    rintro ⟨dump, dtc, r', hdump, hs, hafter, hcommand'⟩
    refine ⟨dump, dtc, r', hdump, hs, hafter, hcommand', ?_⟩
    rw [Pipeline.lastOptions, if_pos hdirect] at hc
    rw [hcommand, Pipeline.dumpTargets_emulator hc]
    exact congrArg (fun target : Option Path => some (target.map (·.text)).toList) hdump
  · obtain ⟨rs, result, w', hrun, hruns, hends⟩ :=
      (pipeline s m x).relaunch_ends hoverlays hc m w₂
    rw [hrun] at houtcome
    exact ⟨_, w', rs, c, houtcome, hruns, hc, exitsWith_of_endsWith hends,
      fun hnone => absurd hnone hoverlays⟩

/-- The emulator knows its release but cannot run the board. -/
def faultyMachine : Machine :=
  { boardMachine with
    programs := fun before start =>
      if start.command.args.head? = some "-M" then
        some ⟨start.files, start.now, .exited 3, .empty⟩
      else boardMachine.programs before start }

/-- A tree is wanted at a path with a comma. -/
def dumping : Settings := { flags := ["-dumpdtb", "a,b.dtb"] }

theorem faulty_emulator_is_reported :
    ∃ x w₂ w' launches c, Reaches dumping faultyMachine boardWorld x w₂ ∧
      outcome? none dumping.flags faultyMachine boardWorld = some (3, w') ∧
      w'.runs = w₂.runs ++ launches ∧
      ExitsWith (pipeline dumping faultyMachine x) faultyMachine c launches 3 := by
  have hread : read none dumping.flags = .run dumping := by rfl
  have hcode : resultCode ((run dumping).perform faultyMachine boardWorld).1 = 3 := by
    decide +kernel
  rcases reaches_or_fails (s := dumping) rfl faultyMachine boardWorld with ⟨x, w₂, h⟩ | hfailed
  · obtain ⟨code, w', launches, c, houtcome, hruns, -, hexits, -⟩ :=
      exit_code_is_the_emulators hread h
    have hthree : code = 3 := by
      rw [outcome?, hread] at houtcome
      exact (Prod.mk.inj (Option.some.inj houtcome)).1.symm.trans hcode
    rw [hthree] at houtcome hexits
    exact ⟨x, w₂, w', launches, c, h, houtcome, hruns, hexits⟩
  · cases hcode.symm.trans hfailed

end VirtBoard.CommandLine.Launcher
