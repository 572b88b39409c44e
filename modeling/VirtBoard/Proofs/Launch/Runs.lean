import VirtBoard.Proofs.Action.Outcomes
import VirtBoard.Proofs.Launch.Stages

/-!
# The runs of a launch without overlays

A launch without overlays adds the run of the emulator, and behind it at most a run of the
decompiler.
-/

namespace VirtBoard.Launch

open VirtBoard.Action DeviceTree FileSystem Qemu

variable {m : Machine} {w : World}

/-- The decompiler is not found or does not start, or it runs and what counts is whether it
succeeded. -/
theorem decompile_cases (t : TreeTools) (binary source : Path) (m : Machine) (w : World) :
    (∃ e, (do (← t.decompiler).decompile binary source : Action Unit).perform m w =
      (.error e, w)) ∨
    ∃ dtc r, r.start.command = ⟨dtc, Toolchain.decompileArgs binary source⟩ ∧
      (do (← t.decompiler).decompile binary source : Action Unit).perform m w =
        (if r.effect.status = .success then .ok () else .error (.failed "dtc" r.effect.status),
          w.after r) := by
  have hrun (dtc : Path) :
      (∃ e, (Action.run "dtc" ⟨dtc, Toolchain.decompileArgs binary source⟩).perform m w =
        (.error e, w)) ∨
      ∃ dtc' r, r.start.command = ⟨dtc', Toolchain.decompileArgs binary source⟩ ∧
        (Action.run "dtc" ⟨dtc, Toolchain.decompileArgs binary source⟩).perform m w =
          (if r.effect.status = .success then .ok () else .error (.failed "dtc" r.effect.status),
            w.after r) := by
    rw [perform_run]
    cases hr : shownRun? m w ⟨dtc, Toolchain.decompileArgs binary source⟩ with
    | none => exact Or.inl ⟨_, rfl⟩
    | some r => exact Or.inr ⟨dtc, r, (started_of_shownRun? hr).command, rfl⟩
  unfold TreeTools.decompiler
  cases t.compiler with
  | some dtc => exact hrun dtc
  | none =>
    simp only [Toolchain.system, perform_bind, perform_which]
    cases m.which w.files ⟨"dtc"⟩ with
    | none => exact Or.inl ⟨_, rfl⟩
    | some dtc => exact hrun dtc

/-- The result of a launch once the emulator has ended: its status, unless it succeeded and what is
left to do did not. -/
def Concludes (done : Prop) (r : Run) (result : Except Failure ExitStatus) : Prop :=
  (result = .ok r.effect.status ∧ (r.effect.status = .success → done)) ∨
    (r.effect.status = .success ∧ ¬done ∧ ∃ e, result = .error e)

namespace Pipeline

theorem run_eq_direct {p : Pipeline} (h : p.options.overlays = []) : p.run = p.direct := by
  unfold run Stage.plan
  rw [h]
  rfl

/-- A decompilation of the tree that a run of the emulator was to dump, if there is one at all. -/
def Decompiles (p : Pipeline) (r : Run) (after : List Run) : Prop :=
  after = [] ∨ ∃ dump dtc r', p.options.dumpTree = some dump ∧ r.effect.status = .success ∧
    after = [r'] ∧ r'.start.command = ⟨dtc, Toolchain.decompileArgs dump dump.treeSource⟩

/-- A tree that was to be dumped is decompiled in the end. -/
def Decompiled (p : Pipeline) (after : List Run) : Prop :=
  p.options.dumpTree = none ∨ ∃ r', after = [r'] ∧ r'.effect.status = .success

/-- What a launch without overlays does once the emulator has ended. -/
def decompileDump (p : Pipeline) (status : ExitStatus) : Action ExitStatus := do
  match p.options.dumpTree with
  | some dump =>
    if status = .success then
      (← p.tools.decompiler).decompile dump dump.treeSource
  | none => pure ()
  return status

theorem direct_eq (p : Pipeline) : p.direct = p.launch p.options >>= p.decompileDump :=
  rfl

theorem decompileDump_cases (p : Pipeline) (r : Run) (m : Machine) (w : World) :
    ∃ after result w', w'.runs = w.runs ++ after ∧ p.Decompiles r after ∧
      Concludes (p.Decompiled after) r result ∧
      (p.decompileDump r.effect.status).perform m w = (result, w') := by
  unfold decompileDump
  cases hdump : p.options.dumpTree with
  | none =>
    exact ⟨[], _, w, (List.append_nil _).symm, Or.inl rfl, Or.inl ⟨rfl, fun _ => Or.inl hdump⟩, rfl⟩
  | some dump =>
    dsimp only
    by_cases hs : r.effect.status = .success
    · have hdumps : p.options.dumpTree ≠ none := by simp [hdump]
      rw [if_pos hs, ← bind_assoc, perform_bind]
      rcases decompile_cases p.tools dump dump.treeSource m w with ⟨e, h⟩ | ⟨dtc, r', hcommand, h⟩
      · rw [h]
        exact ⟨[], _, w, (List.append_nil _).symm, Or.inl rfl,
          Or.inr ⟨hs, by simp [Decompiled, hdumps], e, rfl⟩, rfl⟩
      · rw [h]
        refine ⟨[r'], ?_⟩
        have hdecompiles : p.Decompiles r [r'] := Or.inr ⟨dump, dtc, r', hdump, hs, rfl, hcommand⟩
        by_cases hs' : r'.effect.status = .success
        · rw [if_pos hs']
          exact ⟨_, _, World.runs_after w r', hdecompiles,
            Or.inl ⟨rfl, fun _ => Or.inr ⟨r', rfl, hs'⟩⟩, rfl⟩
        · rw [if_neg hs']
          exact ⟨_, _, World.runs_after w r', hdecompiles,
            Or.inr ⟨hs, by simp [Decompiled, hdumps, hs'], _, rfl⟩, rfl⟩
    · rw [if_neg hs]
      exact ⟨[], _, w, (List.append_nil _).symm, Or.inl rfl, Or.inl ⟨rfl, fun h => absurd h hs⟩, rfl⟩

/-- The emulator runs once, and then at most the decompiler, if there was a tree to dump. -/
theorem direct_cases (p : Pipeline) (m : Machine) (w : World) :
    (∃ e w₁, w₁.runs = w.runs ∧ p.direct.perform m w = (.error e, w₁)) ∨
    ∃ c r after result w', p.emulator p.options = some c ∧ shownRun? m w c = some r ∧
      w'.runs = w.runs ++ r :: after ∧ p.Decompiles r after ∧
      Concludes (p.Decompiled after) r result ∧ p.direct.perform m w = (result, w') := by
  rw [direct_eq, perform_bind]
  rcases perform_launch p p.options m w with ⟨e, -, h⟩ | ⟨c, w₁, hc, -, hruns, h⟩
  · rw [h]
    exact Or.inl ⟨_, w, rfl, rfl⟩
  rw [h]
  cases hr : shownRun? m w c with
  | none => exact Or.inl ⟨_, w₁, hruns, rfl⟩
  | some r =>
    obtain ⟨after, result, w', hafter, hdecompiles, hresult, h'⟩ :=
      p.decompileDump_cases r m (w₁.after r)
    refine Or.inr ⟨c, r, after, result, w', hc, hr, ?_, hdecompiles, hresult, h'⟩
    rw [hafter, World.runs_after, hruns, List.append_assoc, List.singleton_append]

end Pipeline

end VirtBoard.Launch
