import VirtBoard.Proofs.DeviceTree.Merging
import VirtBoard.Proofs.Launch.Jobs
import VirtBoard.Proofs.Qemu.Environments

/-!
# How the stages end

Every way in which a part of a launch with overlays can end, with its result, the runs it added and
the files it left.
-/

namespace VirtBoard.Launch

open VirtBoard.Action DeviceTree FileSystem Qemu

variable {m : Machine}

/-! ## 1. One launch of the emulator -/

/-- The world after some warnings. -/
def told (warnings : List Warning) (w : World) : World :=
  warnings.foldl (fun w warning => w.record (.warned warning)) w

theorem told_keeps (warnings : List Warning) (w : World) :
    (told warnings w).files = w.files ∧ (told warnings w).now = w.now ∧
      (told warnings w).runs = w.runs := by
  induction warnings generalizing w with
  | nil => exact ⟨rfl, rfl, rfl⟩
  | cons warning warnings ih =>
    obtain ⟨hfiles, hnow, hruns⟩ := ih (w.record (.warned warning))
    exact ⟨hfiles, hnow, hruns.trans (World.runs_warned w warning)⟩

theorem printed_told (warnings : List Warning) (w : World) :
    (told warnings w).printed = w.printed := by
  induction warnings generalizing w with
  | nil => rfl
  | cons warning warnings ih => exact (ih _).trans (World.printed_warned w warning)

theorem perform_warnings (warnings : List Warning) (w : World) :
    perform (forIn warnings PUnit.unit fun warning _ => do
      Action.warn warning
      pure (ForInStep.yield PUnit.unit)) m w = (.ok PUnit.unit, told warnings w) := by
  induction warnings generalizing w with
  | nil => rfl
  | cons warning warnings ih =>
    simp only [List.forIn_cons, perform_bind, perform_warn, perform_pure]
    exact ih (w.record (.warned warning))

namespace Pipeline

variable {p : Pipeline}

/-- A launch tells what goes with its command line, and then starts the emulator. -/
theorem perform_launch_eq (p : Pipeline) (o : Board.Options) (m : Machine) (w : World) :
    (p.launch o).perform m w =
      match Invocation.assemble o p.selection p.environment with
      | .error e => (.error (.usage e), w)
      | .ok i =>
        match shownRun? m w ⟨i.program, i.args⟩ with
        | none => (.error (.notStarted i.program.text),
            told (Assembly.logged o p.selection p.environment) w)
        | some r => (.ok r.effect.status,
            (told (Assembly.logged o p.selection p.environment) w).after r) := by
  unfold launch Assembly.logged
  cases Invocation.assemble o p.selection p.environment with
  | error e => rfl
  | ok i =>
    obtain ⟨hfiles, hnow, hruns⟩ := told_keeps (Assembly.warnings o p.environment.host) w
    -- The warnings change nothing that the start depends on.
    simp only [perform_bind, perform_warnings, perform_start, shownRun?_congr hfiles hnow hruns]
    cases shownRun? m w ⟨i.program, i.args⟩ <;> rfl

theorem perform_launch (p : Pipeline) (o : Board.Options) (m : Machine) (w : World) :
    (∃ e, p.emulator o = none ∧ (p.launch o).perform m w = (.error (.usage e), w)) ∨
    ∃ c w₁, p.emulator o = some c ∧ w₁.files = w.files ∧ w₁.runs = w.runs ∧
      (p.launch o).perform m w =
        match shownRun? m w c with
        | none => (.error (.notStarted p.environment.program.text), w₁)
        | some r => (.ok r.effect.status, w₁.after r) := by
  rw [perform_launch_eq]
  unfold emulator
  cases h : Invocation.assemble o p.selection p.environment with
  | error e => exact Or.inl ⟨e, rfl, rfl⟩
  | ok i =>
    obtain ⟨hfiles, -, hruns⟩ := told_keeps (Assembly.logged o p.selection p.environment) w
    have hprogram : p.environment.program = i.program := by rw [Assembly.assemble_ok h]
    rw [hprogram]
    exact Or.inr ⟨_, _, rfl, hfiles, hruns, rfl⟩

/-- A run of a job that starts in a world. -/
structure Ran (p : Pipeline) (m : Machine) (w : World) (j : Job) (r : Run) : Prop where
  does : p.Does m j r
  files : r.start.files = w.files
  effect : m.programs w.runs r.start = some r.effect

theorem Ran.behaves {w : World} {j : Job} {r : Run} {change : Files → Files → Prop}
    (h : p.Ran m w j r) (hj : p.Behaves m j change) : change w.files r.effect.files := by
  rw [← h.files]
  exact hj w.runs r.start r.effect h.does h.effect

theorem ran_of_shownRun? {w : World} {j : Job} {c : Command} {r : Run}
    (hc : p.command? m w.files j = some c) (hr : shownRun? m w c = some r) : p.Ran m w j r := by
  have hstarted := started_of_shownRun? hr
  refine ⟨?_, hstarted.files, hstarted.effect⟩
  rw [Does, hstarted.files, hc, hstarted.command]

/-- A launch fails before the emulator runs, or ends with the status of its run. -/
theorem launch_cases {o : Board.Options} {j : Job} (hj : ∀ fs, p.command? m fs j = p.emulator o)
    (w : World) :
    (∃ e w₁, (p.emulator o = none ∨ e = .notStarted p.environment.program.text) ∧
      w₁.files = w.files ∧ w₁.runs = w.runs ∧ (p.launch o).perform m w = (.error e, w₁)) ∨
    ∃ r w₁, p.Ran m w j r ∧ w₁.files = r.effect.files ∧ w₁.runs = w.runs ++ [r] ∧
      (p.launch o).perform m w = (.ok r.effect.status, w₁) := by
  rcases perform_launch p o m w with ⟨e, hnone, h⟩ | ⟨c, w₁, hc, hfiles, hruns, h⟩
  · exact Or.inl ⟨_, w, Or.inl hnone, rfl, rfl, h⟩
  · cases hr : shownRun? m w c with
    | none =>
      rw [hr] at h
      exact Or.inl ⟨_, w₁, Or.inr rfl, hfiles, hruns, h⟩
    | some r =>
      rw [hr] at h
      have hran := ran_of_shownRun? ((hj w.files).trans hc) hr
      exact Or.inr ⟨r, w₁.after r, hran, rfl, by rw [World.runs_after, hruns], h⟩

/-! ## 2. The tools

All four tools are run in the same way: the program may have to be found first, and it has to
succeed. -/

/-- Runs the tool of a job; `missing` is the failure if the program is not found. -/
def tool (p : Pipeline) (name : String) (missing : Failure) (j : Job) : Action Unit := do
  match p.command? (← machine) (← get).files j with
  | none => throw missing
  | some c => Action.run name c

theorem perform_tool (name : String) (missing : Failure) (j : Job) (w : World) :
    (p.tool name missing j).perform m w =
      match p.command? m w.files j with
      | none => (.error missing, w)
      | some c =>
        match shownRun? m w c with
        | none => (.error (.notStarted name), w)
        | some r =>
          (if r.effect.status = .success then .ok () else .error (.failed name r.effect.status),
            w.after r) := by
  simp only [tool, perform_bind, perform_machine, perform_get]
  cases p.command? m w.files j with
  | none => rfl
  | some c => exact perform_run name c

/-- A tool does not start, or it runs and what counts is whether it succeeded. -/
theorem tool_cases (p : Pipeline) (m : Machine) (name : String) (missing : Failure) (j : Job)
    (w : World) :
    (∃ e, (e = missing ∨ e = .notStarted name) ∧
      (p.tool name missing j).perform m w = (.error e, w)) ∨
    ∃ r, p.Ran m w j r ∧
      ((r.effect.status = .success ∧ (p.tool name missing j).perform m w = (.ok (), w.after r)) ∨
        (r.effect.status ≠ .success ∧
          (p.tool name missing j).perform m w =
            (.error (.failed name r.effect.status), w.after r))) := by
  rw [perform_tool]
  cases hc : p.command? m w.files j with
  | none => exact Or.inl ⟨_, Or.inl rfl, rfl⟩
  | some c =>
    dsimp only
    cases hr : shownRun? m w c with
    | none => exact Or.inl ⟨_, Or.inr rfl, rfl⟩
    | some r =>
      refine Or.inr ⟨r, ran_of_shownRun? hc hr, ?_⟩
      by_cases hs : r.effect.status = .success <;> simp [hs]

theorem perform_decompiler (p : Pipeline) (w : World) :
    (do (← p.tools.decompiler).decompile (p.temporary .dumpBinary) (p.temporary .dumpSource) :
      Action Unit).perform m w =
      (p.tool "dtc" (.notInSearchPath ⟨"dtc"⟩) .decompile).perform m w := by
  rw [perform_bind, perform_tool]
  unfold TreeTools.decompiler command?
  cases h : p.tools.compiler with
  | some dtc => exact perform_run "dtc" _
  | none =>
    simp only [Toolchain.system, perform_bind, perform_which, Option.none_or]
    cases m.which w.files ⟨"dtc"⟩ with
    | none => rfl
    | some dtc => exact perform_run "dtc" _

theorem perform_compileChain (p : Pipeline) (w : World) :
    p.tools.compileChain.perform m w =
      if p.tools.compiler.isSome then (.ok p.chain, w)
      else
        match (p.tool "scons" (.notInSearchPath ⟨"scons"⟩) .build).perform m w with
        | (.ok (), w₁) => (.ok p.chain, w₁)
        | (.error e, w₁) => (.error e, w₁) := by
  unfold TreeTools.compileChain chain
  rw [perform_tool]
  unfold command?
  cases hc : p.tools.compiler with
  | some dtc => cases p.tools.preprocessor <;> rfl
  | none =>
    simp only [Toolchain.bundled, perform_bind, perform_which]
    cases m.which w.files ⟨"scons"⟩ with
    | none => rfl
    | some scons =>
      simp only [Option.map_some, perform_run]
      cases shownRun? m w ⟨scons, ["-C", (p.tools.root.join compilerDir).text]⟩ with
      | none => rfl
      | some r =>
        by_cases hs : r.effect.status = .success
        · simp only [hs, ↓reduceIte]
          cases p.tools.preprocessor <;> rfl
        · simp only [hs, ↓reduceIte]
          rfl

theorem perform_preprocess (p : Pipeline) (w : World) :
    (p.chain.preprocess (p.temporary .mergedSource) (p.temporary .expandedSource)).perform m w =
      (p.tool "cpp" (.noPreprocessor p.chain.preprocessor) .preprocess).perform m w := by
  rw [Toolchain.perform_preprocess, perform_tool]
  simp only [command?]
  cases m.which w.files p.chain.preprocessor with
  | none => rfl
  | some cpp => exact perform_run "cpp" _

-- The compiler needs no looking for.
theorem perform_compiler (p : Pipeline) (w : World) :
    (Action.run "dtc" ⟨p.chain.compiler,
        Toolchain.compileArgs (p.temporary .expandedSource) (p.temporary .mergedBinary)⟩).perform
        m w =
      (p.tool "dtc" .noStage .compile).perform m w := by
  rw [perform_tool, perform_run]
  rfl

/-! ## 3. The stages in terms of their tools -/

/-- The first stage. -/
def dumpByTools (p : Pipeline) : Action ExitStatus := do
  let status ← p.launch p.dumpOptions
  if status ≠ .success then throw (.noDump status)
  cleaned (p.tool "dtc" (.notInSearchPath ⟨"dtc"⟩) .decompile) (discard (p.temporary .dumpBinary))
  return status

theorem perform_dump (p : Pipeline) (w : World) :
    p.dump.perform m w = p.dumpByTools.perform m w := by
  unfold dump dumpByTools
  rw [perform_bind, perform_bind]
  rcases (p.launch p.dumpOptions).perform m w with ⟨e | s, w₁⟩
  · rfl
  dsimp only
  -- The decompiler is looked for in the attempt, so that its absence is cleaned up after, too.
  by_cases hs : s = .success
  · rw [if_neg (fun hne => hne hs), if_neg (fun hne => hne hs), perform_cleaned_bind, perform_bind,
      perform_bind, ← perform_cleaned_congr (perform_decompiler p w₁)]
    rfl
  · rw [if_pos hs, if_pos hs]
    rfl

theorem sources_eq (p : Pipeline) :
    p.sources = p.temporary .dumpSource :: p.options.overlays :=
  rfl

theorem mergeOverlays_eq (p : Pipeline) :
    p.mergeOverlays = (do
      let merged ← attempt (merge p.sources (p.temporary .mergedSource))
      discard (p.temporary .dumpSource)
      if let .error _ := merged then
        discard (p.temporary .mergedSource)
      ofExcept merged) :=
  rfl

/-- The compilation of the merged source, when its binary is not up to date. -/
def compileByTools (p : Pipeline) : Action Compiled := do
  if let .error e ← attempt (p.tool "cpp" (.noPreprocessor p.chain.preprocessor) .preprocess) then
    discard (p.temporary .expandedSource)
    throw e
  cleaned (p.tool "dtc" .noStage .compile) (remove (p.temporary .expandedSource))
  return ⟨p.temporary .mergedSource, p.temporary .mergedBinary, .built⟩

theorem perform_rebuild (p : Pipeline) (w : World) :
    (p.chain.rebuild (p.temporary .mergedSource)).perform m w = p.compileByTools.perform m w := by
  unfold Toolchain.rebuild Toolchain.compilation compileByTools
  rw [treeBinary_mergedSource, expanded_mergedSource, perform_bind, perform_attempt,
    perform_preprocess, perform_bind, perform_attempt]
  rcases (p.tool "cpp" (.noPreprocessor p.chain.preprocessor) .preprocess).perform m w with
    ⟨_ | _, w₁⟩
  · rfl
  · dsimp only
    rw [perform_bind, perform_bind, perform_cleaned_congr (perform_compiler p w₁)]

theorem perform_compile (p : Pipeline) (w : World) :
    (p.chain.compile (p.temporary .mergedSource)).perform m w =
      match isFresh? w.files m.cwd (p.temporary .mergedSource) (p.temporary .mergedBinary) with
      | .error e => (.error e, w)
      | .ok true => (.ok ⟨p.temporary .mergedSource, p.temporary .mergedBinary, .upToDate⟩, w)
      | .ok false => p.compileByTools.perform m w := by
  have hcompile := p.chain.perform_compile (p.temporary .mergedSource) m w
  rw [treeBinary_mergedSource, perform_rebuild] at hcompile
  exact hcompile

/-- The rest of the stage, once the old tree is out of the way. -/
def recompile (p : Pipeline) : Action Compiled := do
  let chain ← p.tools.compileChain
  cleaned (chain.compile (p.temporary .mergedSource)) (remove (p.temporary .mergedSource))

theorem compileMerged_eq (p : Pipeline) :
    p.compileMerged = (do
      if ← Action.ask (fun cwd fs => fs.exists? cwd (p.temporary .mergedBinary)) .system then
        remove (p.temporary .mergedBinary)
      p.recompile) :=
  rfl

/-- The stage behind the compilation. -/
def relaunch (p : Pipeline) (tree : Path) : Action ExitStatus := do
  let status ← p.launch (p.relaunchOptions tree)
  if status = .success then
    remove tree
  else
    warn .mergedTreeKept
  return status

theorem mergeAndRelaunch_eq (p : Pipeline) :
    p.mergeAndRelaunch = (do
      p.mergeOverlays
      let compiled ← p.compileMerged
      p.relaunch compiled.binary) :=
  rfl

end Pipeline

end VirtBoard.Launch
