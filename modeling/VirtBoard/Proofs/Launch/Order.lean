import VirtBoard.Proofs.DeviceTree.Freshness
import VirtBoard.Proofs.FileSystem.NamedEntries
import VirtBoard.Proofs.Launch.JobRuns
import VirtBoard.Proofs.Launch.Stages

/-!
# The order of the jobs

A launch with overlays starts its programs in one order, each only after the one before it has
succeeded.  The compilation is left out elsewhere when its product is up to date; here the old tree
is removed first, so that only what the compiler's builder does can make it look so.  A link that
leads nowhere is not removed, and whatever the builder makes at its end is taken for the tree.
-/

namespace VirtBoard.Launch

open VirtBoard.Action DeviceTree FileSystem

namespace Pipeline

variable {p : Pipeline} {m : Machine} {w : World}

/-! ## 1. Programs and stages -/

theorem plays_tool (p : Pipeline) (name : String) (missing : Failure) (j : Job) :
    PlaysAll (p.Does m) [j] m w (p.tool name missing j) := by
  unfold PlaysAll Plays
  rcases tool_cases p m name missing j w with ⟨e, -, h⟩ | ⟨r, hran, ⟨hs, h⟩ | ⟨hs, h⟩⟩
  · rw [h]
    exact ⟨[], (List.append_nil _).symm, .nil, fun _ hx => by cases hx⟩
  · rw [h]
    exact ⟨[r], World.runs_after w r, .last hran.does,
      fun _ _ => ⟨.cons hran.does .nil, by simpa using hs⟩⟩
  · rw [h]
    exact ⟨[r], World.runs_after w r, .last hran.does, fun _ hx => by cases hx⟩

-- A launch ends well with the status of its run.
theorem plays_launch {o : Board.Options} {j : Job}
    (hj : ∀ fs, p.command? m fs j = p.emulator o) :
    Plays (p.Does m) [j] (fun s done => ∃ r, done = [r] ∧ p.Does m j r ∧ r.effect.status = s) m w
      (p.launch o) := by
  unfold Plays
  rcases launch_cases hj w with ⟨e, w₁, -, -, hruns, h⟩ | ⟨r, w₁, hran, -, hruns, h⟩
  · rw [h]
    exact ⟨[], by rw [hruns, List.append_nil], .nil, fun _ hx => by cases hx⟩
  · rw [h]
    exact ⟨[r], hruns, .last hran.does, fun s hs => ⟨r, rfl, hran.does, Except.ok.inj hs⟩⟩

theorem plays_dump (p : Pipeline) : PlaysAll (p.Does m) [.dump, .decompile] m w p.dump := by
  unfold dump
  refine playsAll_bind (plays_launch (j := .dump) fun _ => rfl) ?_
  rintro status w₁ _ - ⟨r, rfl, hdoes, hstatus⟩
  -- A dump that did not succeed ends the launch at once.
  by_cases hs : status = .success
  · rw [hs] at hstatus ⊢
    refine Or.inr ⟨⟨.cons hdoes .nil, by simpa using hstatus⟩, ?_⟩
    simp only [ne_eq, not_true_eq_false, ↓reduceIte]
    have hdecompile : PlaysAll (p.Does m) [.decompile] m w₁ _ :=
      (plays_tool p "dtc" _ .decompile).congr (perform_decompiler p w₁)
    refine playsAll_attempt hdecompile (fun e => ?_) (fun e => ?_) (fun x w₂ _ => ?_)
    · exact (quiet_discard _).bind fun _ => (quiet_throw e).bind fun _ => quiet_pure _
    · exact (yields_any _).bind fun _ _ => (fails_throw e).bind fun _ h => h.elim
    · exact plays_of_quiet ((quiet_discard _).bind fun _ => quiet_pure _)
  · exact Or.inl ⟨_, by simp [hs]; rfl⟩

theorem quiet_merge (sources : List Path) (output : Path) : Quiet m (merge sources output) :=
  (quiet_mapM (fun _ => quiet_ask _ _) sources).bind fun _ => quiet_writeText _ _

theorem quiet_mergeOverlays (p : Pipeline) : Quiet m p.mergeOverlays := by
  unfold mergeOverlays
  refine (quiet_attempt (quiet_merge _ _)).bind fun merged => (quiet_discard _).bind fun _ => ?_
  cases merged with
  | error e => exact (quiet_discard _).bind fun _ => quiet_ofExcept _
  | ok => exact quiet_ofExcept _

-- The compiler is given, or a run of its builder makes it.
theorem plays_compileChain (p : Pipeline) :
    PlaysAll (p.Does m) (if p.tools.compiler.isNone then [.build] else []) m w
      p.tools.compileChain := by
  unfold PlaysAll Plays
  rw [perform_compileChain]
  cases p.tools.compiler with
  | some dtc => exact ⟨[], (List.append_nil _).symm, .nil, fun _ _ => .nil⟩
  | none =>
    obtain ⟨done, hruns, hfollows, hgood⟩ :=
      plays_tool (m := m) (w := w) p "scons" (.notInSearchPath ⟨"scons"⟩) .build
    simp only [Option.isSome_none, Bool.false_eq_true, ↓reduceIte, Option.isNone_none]
    rcases hout : (p.tool "scons" (.notInSearchPath ⟨"scons"⟩) .build).perform m w with ⟨_ | x, w₁⟩
    · rw [hout] at hruns
      exact ⟨done, hruns, hfollows, fun _ h => by cases h⟩
    · rw [hout] at hruns hgood
      exact ⟨done, hruns, hfollows, fun _ _ => hgood x rfl⟩

theorem compileChain_ok {chain : Toolchain} {w₁ : World}
    (hout : p.tools.compileChain.perform m w = (.ok chain, w₁)) :
    chain = p.chain ∧ ((p.tools.compiler.isSome ∧ w₁ = w) ∨
      ∃ r, p.Ran m w .build r ∧ r.effect.status = .success ∧ w₁ = w.after r) := by
  rw [perform_compileChain] at hout
  split at hout
  next hsome =>
    obtain ⟨hchain, rfl⟩ := Prod.mk.inj hout
    exact ⟨(Except.ok.inj hchain).symm, Or.inl ⟨hsome, rfl⟩⟩
  next =>
    rcases tool_cases p m "scons" (.notInSearchPath ⟨"scons"⟩) .build w with
      ⟨e, -, h⟩ | ⟨r, hran, ⟨hs, h⟩ | ⟨hs, h⟩⟩
    · rw [h] at hout
      cases hout
    · rw [h] at hout
      obtain ⟨hchain, rfl⟩ := Prod.mk.inj hout
      exact ⟨(Except.ok.inj hchain).symm, Or.inr ⟨r, hran, hs, rfl⟩⟩
    · rw [h] at hout
      cases hout

theorem plays_compileByTools (p : Pipeline) :
    PlaysAll (p.Does m) [.preprocess, .compile] m w p.compileByTools := by
  unfold compileByTools
  refine playsAll_attempt (plays_tool p "cpp" _ .preprocess) (fun e => ?_) (fun e => ?_)
    (fun x w₁ _ => ?_)
  · exact (quiet_discard _).bind fun _ => quiet_throw_bind e _
  · exact (yields_any _).bind fun _ _ => (fails_throw e).bind fun _ h => h.elim
  · have hcompile := (plays_tool (m := m) (w := w₁) p "dtc" .noStage .compile).cleaned
      (quiet_remove (p.temporary .expandedSource))
    exact playsAll_bind hcompile fun _ _ _ _ hrs => Or.inr ⟨hrs, plays_of_quiet (quiet_pure _)⟩

theorem plays_compile (p : Pipeline) :
    Plays (p.Does m) [.preprocess, .compile]
      (fun _ done => Completes (p.Does m) [.preprocess, .compile] done ∨
        (done = [] ∧ UpToDate w.files m.cwd (p.temporary .mergedSource))) m w
      (p.chain.compile (p.temporary .mergedSource)) := by
  have hperform := perform_compile (m := m) p w
  split at hperform
  next e _ =>
    refine Plays.congr (b := throw e) ?_ hperform
    exact ⟨[], (List.append_nil _).symm, .nil, fun _ hx => by cases hx⟩
  next hfresh =>
    rw [← treeBinary_mergedSource] at hfresh
    refine Plays.congr (b := pure _) ?_ hperform
    exact ⟨[], (List.append_nil _).symm, .nil, fun _ _ => Or.inr ⟨rfl, isFresh?_eq_true.mp hfresh⟩⟩
  next => exact ((plays_compileByTools p).mono fun _ _ => Or.inl).congr hperform

/-! ## 2. The tree is made -/

/-- The jobs that make the merged tree. -/
def treeJobs (p : Pipeline) : List Job :=
  (if p.tools.compiler.isNone then [.build] else []) ++ [.preprocess, .compile]

theorem jobs_eq (p : Pipeline) :
    p.jobs = ([.dump, .decompile] ++ p.treeJobs) ++ [.relaunch] := by
  simp only [jobs, treeJobs, List.append_assoc, List.cons_append, List.nil_append]

/-- No tree can be found at the merged tree's path. -/
def NoTree (p : Pipeline) (m : Machine) (fs : Files) : Prop :=
  ∀ e, fs.stat m.cwd (p.temporary .mergedBinary) ≠ .ok e

theorem noTree_of_exists {fs : Files}
    (h : fs.exists? m.cwd (p.temporary .mergedBinary) = .ok false) : p.NoTree m fs := by
  intro e he
  rw [Files.exists?, he] at h
  cases h

theorem noTree_of_removed {w₁ : World} {x : Unit}
    (h : (remove (p.temporary .mergedBinary)).perform m w = (.ok x, w₁)) : p.NoTree m w₁.files := by
  rw [perform_remove] at h
  split at h
  next hunlink =>
    obtain ⟨-, rfl⟩ := Prod.mk.inj h
    exact stat_of_unlinked Temporary.mergedBinary.fileName hunlink
  next => cases h

theorem not_upToDate_of_noTree {fs : Files} (h : p.NoTree m fs) :
    ¬UpToDate fs m.cwd (p.temporary .mergedSource) := by
  rintro ⟨s, b, -, hb, -⟩
  rw [treeBinary_mergedSource] at hb
  exact h b hb

/-- The builder of the compiler brings something to where the merged tree's path led nowhere, and
what it brings is not older than the merged source. -/
structure Overtakes (p : Pipeline) (m : Machine) (b : Run) : Prop where
  does : p.Does m .build b
  succeeded : b.effect.status = .success
  nowhere : p.NoTree m b.start.files
  upToDate : UpToDate b.effect.files m.cwd (p.temporary .mergedSource)

/-- The merged tree was made behind some jobs, or the builder has overtaken the compilation and
nothing was started behind it. -/
def MadeBehind (p : Pipeline) (m : Machine) (js : List Job) (done : List Run) : Prop :=
  Completes (p.Does m) (js ++ p.treeJobs) done ∨
    ∃ rs b, done = rs ++ [b] ∧ Completes (p.Does m) js rs ∧ p.Overtakes m b

theorem MadeBehind.behind {js : List Job} {rs ss : List Run} (h : p.MadeBehind m [] ss)
    (hrs : Completes (p.Does m) js rs) : p.MadeBehind m js (rs ++ ss) := by
  rcases h with hss | ⟨us, b, rfl, hus, hb⟩
  · exact Or.inl (hrs.append hss)
  · refine Or.inr ⟨rs ++ us, b, (List.append_assoc rs us [b]).symm, ?_, hb⟩
    have hjobs := hrs.append hus
    rwa [List.append_nil] at hjobs

-- Between the removal and the test of freshness only the builder can have run.
theorem plays_recompile (p : Pipeline) (h : p.NoTree m w.files) :
    Plays (p.Does m) p.treeJobs (fun _ => p.MadeBehind m []) m w p.recompile := by
  unfold recompile
  refine plays_bind (plays_compileChain p) fun chain w₁ rs hout hruns hrs => Or.inr ⟨hrs, ?_⟩
  obtain ⟨rfl, hchain⟩ := compileChain_ok hout
  refine ((plays_compile p).cleaned (quiet_remove _)).mono ?_
  rintro _ ss (hss | ⟨rfl, hfresh⟩)
  · exact Or.inl (hrs.append hss)
  · rcases hchain with ⟨-, rfl⟩ | ⟨b, hran, hs, rfl⟩
    · exact absurd hfresh (not_upToDate_of_noTree h)
    · obtain rfl : rs = [b] := List.append_cancel_left (hruns.symm.trans (World.runs_after w b))
      have hnowhere : p.NoTree m b.start.files := by
        rw [hran.files]
        exact h
      exact Or.inr ⟨[], b, rfl, .nil, hran.does, hs, hnowhere, hfresh⟩

theorem plays_compileMerged (p : Pipeline) :
    Plays (p.Does m) p.treeJobs (fun _ => p.MadeBehind m []) m w p.compileMerged := by
  rw [compileMerged_eq]
  refine plays_quiet_bind (quiet_ask _ _) fun found w₁ hout => ?_
  rw [perform_ask] at hout
  split at hout
  next found' hfound =>
    obtain ⟨he, rfl⟩ := Prod.mk.inj hout
    obtain rfl := Except.ok.inj he
    cases found' with
    | false => exact plays_recompile p (noTree_of_exists hfound)
    | true =>
      exact plays_quiet_bind (quiet_remove _) fun _ w₂ hremove =>
        plays_recompile p (noTree_of_removed hremove)
  next => cases hout

theorem compile_binary (chain : Toolchain) (source : Path) :
    Yields m (·.binary = source.treeBinary) (chain.compile source) :=
  fun _ _ hc => (Toolchain.compile_ok (Prod.ext hc rfl)).2

theorem compileMerged_binary (p : Pipeline) :
    Yields m (·.binary = p.temporary .mergedBinary) p.compileMerged := by
  have hrest : Yields m (·.binary = p.temporary .mergedBinary) p.recompile := by
    unfold recompile
    refine (yields_any _).bind fun chain _ => ?_
    refine (yields_attempt (compile_binary chain _)).bind fun compiled hcompiled => ?_
    rw [treeBinary_mergedSource] at hcompiled
    exact (yields_any _).bind fun _ _ => yields_ofExcept hcompiled
  rw [compileMerged_eq]
  refine (yields_any _).bind fun found _ => ?_
  cases found with
  | false => exact hrest
  | true => exact (yields_any _).bind fun _ _ => hrest

/-- All that a launch with overlays does before the second launch. -/
def buildTree (p : Pipeline) : Action Compiled :=
  p.dump >>= fun _ => p.mergeOverlays >>= fun _ => p.compileMerged

theorem buildTree_binary (p : Pipeline) :
    Yields m (·.binary = p.temporary .mergedBinary) p.buildTree :=
  (yields_any _).bind fun _ _ => (yields_any _).bind fun _ _ => compileMerged_binary p

theorem plays_buildTree (p : Pipeline) :
    Plays (p.Does m) ([.dump, .decompile] ++ p.treeJobs)
      (fun _ => p.MadeBehind m [.dump, .decompile]) m w p.buildTree := by
  unfold buildTree
  refine plays_bind (plays_dump p) fun _ w₁ rs _ _ hrs => Or.inr ⟨hrs, ?_⟩
  exact plays_quiet_bind (quiet_mergeOverlays p) fun _ _ _ =>
    (plays_compileMerged p).mono fun _ _ hss => hss.behind hrs

/-! ## 3. The whole -/

theorem run_eq (h : p.options.overlays ≠ []) :
    p.run = p.dump >>= fun _ => p.mergeAndRelaunch := by
  unfold run Stage.plan
  rw [if_neg (by simpa using h)]
  rfl

theorem run_eq_relaunch (h : p.options.overlays ≠ []) :
    p.run = p.buildTree >>= fun compiled => p.relaunch compiled.binary := by
  rw [run_eq h, mergeAndRelaunch_eq, buildTree]
  simp only [bind_assoc]

theorem plays_relaunch (p : Pipeline) :
    Plays (p.Does m) [.relaunch]
      (fun s done => ∃ r, done = [r] ∧ p.Does m .relaunch r ∧ r.effect.status = s) m w
      (p.relaunch (p.temporary .mergedBinary)) := by
  unfold relaunch
  refine (plays_launch fun _ => rfl).bind_quiet (fun status => ?_) (fun status => ?_)
  · split
    · exact (quiet_remove _).bind fun _ => quiet_pure _
    · exact (quiet_warn _).bind fun _ => quiet_pure _
  · split
    · exact (yields_any _).bind fun _ _ => yields_pure rfl
    · exact (yields_any _).bind fun _ _ => yields_pure rfl

/-- The emulator boots with what the builder of the compiler has made: nothing is started between
the two. -/
def Skips (p : Pipeline) (m : Machine) (done : List Run) : Prop :=
  ∃ rs b r, done = rs ++ [b, r] ∧ Completes (p.Does m) [.dump, .decompile] rs ∧
    p.Overtakes m b ∧ p.Does m .relaunch r

/-- The runs of a launch with overlays skip the compilation, or they follow the jobs, and the launch
ends well only behind the last of them. -/
theorem run_cases (hoverlays : p.options.overlays ≠ []) :
    ∃ done, (p.run.perform m w).2.runs = w.runs ++ done ∧
      (p.Skips m done ∨
        (Follows (p.Does m) p.jobs done ∧ ∀ s, (p.run.perform m w).1 = .ok s →
          done.length = p.jobs.length ∧ ∃ r, done.getLast? = some r ∧ r.effect.status = s)) := by
  obtain ⟨rs, hruns, hfollows, hgood⟩ := plays_buildTree (m := m) (w := w) p
  have hbinary := buildTree_binary (m := m) p w
  rw [run_eq_relaunch hoverlays, perform_bind, jobs_eq]
  rcases hout : p.buildTree.perform m w with ⟨e | compiled, w₁⟩
  · rw [hout] at hruns
    exact ⟨rs, hruns, Or.inr ⟨hfollows.append _, fun _ h => by cases h⟩⟩
  · rw [hout] at hruns hgood hbinary
    dsimp only
    rw [hbinary compiled rfl]
    obtain ⟨ss, hruns', hfollows', hgood'⟩ := plays_relaunch (m := m) (w := w₁) p
    refine ⟨rs ++ ss, by rw [hruns', hruns, List.append_assoc], ?_⟩
    rcases hgood compiled rfl with hrs | ⟨rs, b, rfl, hrs, hb⟩
    · refine Or.inr ⟨hrs.append_follows hfollows', fun s hs => ?_⟩
      obtain ⟨r, rfl, -, hstatus⟩ := hgood' s hs
      refine ⟨?_, r, List.getLast?_concat, hstatus⟩
      rw [List.length_append, List.length_append, hrs.1.length_eq]
      rfl
    · -- The builder's run is the last one, unless the emulator starts behind it.
      rcases hfollows'.single_cases with rfl | ⟨r, rfl, hdoes⟩
      · refine Or.inr ⟨?_, fun s hs => ?_⟩
        · rw [List.append_nil]
          exact hfollows.append _
        · obtain ⟨r, hr, -⟩ := hgood' s hs
          cases hr
      · exact Or.inl ⟨rs, b, r, List.append_assoc rs [b] [r], hrs, hb, hdoes⟩

/-! ## 4. The order -/

theorem map_ofCommand {js : List Job} {rs : List Run} (h : List.Forall₂ (p.Does m) js rs) :
    rs.map (fun r => Job.ofCommand r.start.command) = js := by
  induction h with
  | nil => rfl
  | cons hdoes _ ih => rw [List.map_cons, ih, ofCommand_eq hdoes]

theorem relaunch_notMem (p : Pipeline) : Job.relaunch ∉ [.dump, .decompile] ++ p.treeJobs := by
  unfold treeJobs
  split <;> decide

-- The relaunch is the last of the jobs, so that none is missing where it is not.
theorem take_jobs_of_relaunch {n : Nat} (h : Job.relaunch ∈ p.jobs.take n) :
    p.jobs.take n = p.jobs := by
  by_cases hn : p.jobs.length ≤ n
  · exact List.take_of_length_le hn
  · rw [jobs_eq, List.length_append, List.length_singleton] at hn
    rw [jobs_eq, List.take_append_of_le_length (by omega)] at h
    exact absurd (List.mem_of_mem_take h) (relaunch_notMem p)

-- Where all jobs were started, the compiler succeeded.
theorem compiled_of_all {done : List Run} (hfits : List.Forall₂ (p.Does m) p.jobs done)
    (hsuccess : ∀ r ∈ done.dropLast, r.effect.status = .success) :
    ∃ c ∈ done, p.Does m .compile c ∧ c.effect.status = .success := by
  -- The compiler's run is the last but one, so that it is among those that succeeded.
  obtain ⟨first, hjobs⟩ : ∃ first, p.jobs = first ++ [.compile, .relaunch] :=
    ⟨_, (List.append_assoc _ [Job.preprocess] [Job.compile, Job.relaunch]).symm⟩
  have hdrop := List.forall₂_drop first.length hfits
  rw [hjobs, List.drop_left] at hdrop
  obtain ⟨c, rest, hcompile, hrest, hdone⟩ := List.forall₂_cons_left_iff.mp hdrop
  obtain ⟨r, more, _, hnil, rfl⟩ := List.forall₂_cons_left_iff.mp hrest
  obtain rfl := List.forall₂_nil_left_iff.mp hnil
  have hc : c ∈ done.dropLast := by
    rw [← List.take_append_drop first.length done, hdone,
      List.dropLast_append_of_ne_nil (List.cons_ne_nil c [r])]
    simp
  exact ⟨c, (List.dropLast_sublist done).subset hc, hcompile, hsuccess c hc⟩

/-- The programs start in one order, each after the one before it has succeeded, and the launch ends
well only with the status of the emulator that boots with the merged tree.  Before that emulator
starts, a compilation of this launch has succeeded. -/
structure InOrder (p : Pipeline) (m : Machine) (done : List Run)
    (result : Except Failure ExitStatus) : Prop where
  jobs : List.Forall₂ (p.Does m) (p.jobs.take done.length) done
  succeeded : ∀ r ∈ done.dropLast, r.effect.status = .success
  status : ∀ s, result = .ok s →
    done.length = p.jobs.length ∧ ∃ r, done.getLast? = some r ∧ r.effect.status = s
  compiled : ∀ r ∈ done, p.Does m .relaunch r →
    ∃ c ∈ done, p.Does m .compile c ∧ c.effect.status = .success
  dumps : ∀ r ∈ done, p.Does m .dump r →
    dumpTargets r.start.command.args = some [(p.temporary .dumpBinary).text]
  boots : ∀ r ∈ done, p.Does m .relaunch r → dumpTargets r.start.command.args = some [] ∧
    bootTrees r.start.command.args = some [(p.temporary .mergedBinary).text]

theorem inOrder_of_follows {done : List Run} {result : Except Failure ExitStatus}
    (h : Follows (p.Does m) p.jobs done) (hstatus : ∀ s, result = .ok s →
      done.length = p.jobs.length ∧ ∃ r, done.getLast? = some r ∧ r.effect.status = s) :
    p.InOrder m done result where
  jobs := h.jobs
  succeeded := h.succeeded
  status := hstatus
  compiled r hr hdoes := by
    have hjobs := h.jobs
    have hmem : Job.relaunch ∈ p.jobs.take done.length := by
      rw [← map_ofCommand hjobs, ← ofCommand_eq hdoes]
      exact List.mem_map_of_mem hr
    rw [take_jobs_of_relaunch hmem] at hjobs
    exact compiled_of_all hjobs h.succeeded
  dumps _ _ hr := dumpTargets_emulator hr
  boots _ _ hr := ⟨dumpTargets_emulator hr, bootTrees_emulator hr⟩

theorem Skips.not_inOrder {done : List Run} {result : Except Failure ExitStatus}
    (h : p.Skips m done) : ¬p.InOrder m done result := by
  obtain ⟨rs, b, r, rfl, hrs, hb, hdoes⟩ := h
  intro horder
  obtain ⟨c, hc, hcompile, -⟩ := horder.compiled r (by simp) hdoes
  -- None of the four runs compiles anything.
  have hjobs : List.Forall₂ (p.Does m) [.dump, .decompile, .build, .relaunch] (rs ++ [b, r]) :=
    List.rel_append hrs.1 (.cons hb.does (.cons hdoes .nil))
  have hmem := List.mem_map_of_mem (f := fun r : Run => Job.ofCommand r.start.command) hc
  rw [map_ofCommand hjobs, ofCommand_eq hcompile] at hmem
  exact absurd hmem (by decide)

/-- A run puts nothing of its own under the merged tree's name: if there is a tree afterwards, the
name stands for what it stood for before. -/
def MakesNoTree (p : Pipeline) (m : Machine) (b : Run) : Prop :=
  ∀ x, b.effect.files.stat m.cwd (p.temporary .mergedBinary) = .ok x →
    ∃ e, p.standing m b.effect.files .mergedBinary = some e ∧
      p.standing m b.start.files .mergedBinary = some e

-- A builder that makes no tree can give a link that led nowhere something to lead to.
theorem Overtakes.link {b : Run} (h : p.Overtakes m b) (hmakes : p.MakesNoTree m b) :
    ∃ target, p.standing m b.start.files .mergedBinary = some (.link target) ∧
      p.standing m b.effect.files .mergedBinary = some (.link target) := by
  obtain ⟨s, x, -, hx, -⟩ := h.upToDate
  rw [treeBinary_mergedSource] at hx
  obtain ⟨e, hafter, hbefore⟩ := hmakes x hx
  obtain ⟨target, rfl⟩ := link_of_named? Temporary.mergedBinary.fileName hbefore h.nowhere
  exact ⟨target, hbefore, hafter⟩

/-- The order is kept unless the builder of the compiler overtakes the compilation.  A builder that
makes no tree does so only through a link which led nowhere until then. -/
theorem boots_in_order_iff (hoverlays : p.options.overlays ≠ []) :
    ∃ done, (p.run.perform m w).2.runs = w.runs ++ done ∧
      (p.InOrder m done (p.run.perform m w).1 ↔ ¬p.Skips m done) ∧
      ((∀ b ∈ done, p.Does m .build b → p.MakesNoTree m b) → p.Skips m done →
        ∃ b ∈ done, p.Overtakes m b ∧
          ∃ target, p.standing m b.start.files .mergedBinary = some (.link target) ∧
            p.standing m b.effect.files .mergedBinary = some (.link target)) := by
  obtain ⟨done, hruns, hcases⟩ := run_cases (m := m) (w := w) hoverlays
  refine ⟨done, hruns, ⟨fun horder hskips => hskips.not_inOrder horder, fun hskips => ?_⟩, ?_⟩
  · obtain ⟨hfollows, hstatus⟩ := hcases.resolve_left hskips
    exact inOrder_of_follows hfollows hstatus
  · rintro hmakes ⟨rs, b, r, rfl, -, hb, -⟩
    have hmem : b ∈ rs ++ [b, r] := by simp
    exact ⟨b, hmem, hb, hb.link (hmakes b hmem hb.does)⟩

/-- Where the compiler of the sample is built. -/
def builtPlace : Place :=
  ["dtc", "dtc", "tools", "src"]

/-- The machine of the sample, on which the builder makes the compiler. -/
def buildingMachine : Machine where
  cwd := sampleMachine.cwd
  searchPath := sampleMachine.searchPath
  programs before start :=
    if start.executable = ["scons", "bin"] then
      let made := start.files.create builtPlace (.file .empty start.now true) start.now
      some ⟨made, start.now, .success, .empty⟩
    else sampleMachine.programs before start

/-- The sample before its compiler is built. -/
def untilBuilt : World :=
  sampleWorld samplePrograms.dropLast

-- The compiler is made, no tree is, and the compiler runs.
theorem built_compiler_compiles :
    ∃ done, (sample.run.perform buildingMachine untilBuilt).2.runs = done ∧ done.length = 6 ∧
      (∀ b ∈ done, sample.Does buildingMachine .build b → sample.MakesNoTree buildingMachine b ∧
        b.start.files.find? builtPlace = none ∧ b.effect.files.find? builtPlace ≠ none) ∧
      sample.InOrder buildingMachine done (sample.run.perform buildingMachine untilBuilt).1 := by
  obtain ⟨done, hruns, horder, -⟩ :=
    boots_in_order_iff (p := sample) (m := buildingMachine) (w := untilBuilt) (by decide)
  obtain rfl : _ = done := hruns
  obtain ⟨hlength, hbuilds⟩ : (sample.run.perform buildingMachine untilBuilt).2.runs.length = 6 ∧
      ∀ b ∈ (sample.run.perform buildingMachine untilBuilt).2.runs,
        Job.ofCommand b.start.command = .build →
          b.effect.files.exists? [] (sample.temporary .mergedBinary) = .ok false ∧
            b.start.files.find? builtPlace = none ∧ b.effect.files.find? builtPlace ≠ none := by
    decide +kernel
  refine ⟨_, rfl, hlength, fun b hb hdoes => ?_, horder.mpr ?_⟩
  · obtain ⟨hnone, hmade⟩ := hbuilds b hb (ofCommand_eq hdoes)
    exact ⟨fun x hx => absurd hx (noTree_of_exists (m := buildingMachine) hnone x), hmade⟩
  · rintro ⟨rs, b, r, hdone, hrs, -⟩
    have hshort : rs.length = 2 := hrs.1.length_eq.symm
    rw [hdone, List.length_append, hshort] at hlength
    cases hlength

/-- A link to the compiler that stands where the tree is to be made. -/
def linked : World where
  files := untilBuilt.files.insert ["qemu.run.dtb", "work"] (.link ⟨"/src/tools/dtc/dtc"⟩)
  now := untilBuilt.now
  journal := untilBuilt.journal

-- The link is left alone by all, but once the compiler is there it is a tree that is up to date.
theorem link_is_booted :
    ¬∀ (p : Pipeline) (m : Machine) (w : World), p.options.overlays ≠ [] →
      ∃ done, (p.run.perform m w).2.runs = w.runs ++ done ∧
        ((∀ b ∈ done, p.Does m .build b → p.MakesNoTree m b) →
          p.InOrder m done (p.run.perform m w).1) := by
  intro h
  obtain ⟨done, hruns, horder⟩ := h sample buildingMachine linked (by decide)
  obtain rfl : _ = done := hruns
  obtain ⟨hok, hlength, hlink⟩ :
      (sample.run.perform buildingMachine linked).1.toOption = some .success ∧
        (sample.run.perform buildingMachine linked).2.runs.length ≠ 6 ∧
        ∀ b ∈ (sample.run.perform buildingMachine linked).2.runs,
          Job.ofCommand b.start.command = .build →
            b.effect.files.named? [] (sample.temporary .mergedBinary) =
                some (.link ⟨"/src/tools/dtc/dtc"⟩) ∧
              b.start.files.named? [] (sample.temporary .mergedBinary) =
                some (.link ⟨"/src/tools/dtc/dtc"⟩) := by
    decide +kernel
  have hinOrder := horder fun b hb hdoes _ _ => ⟨_, hlink b hb (ofCommand_eq hdoes)⟩
  cases hrun : (sample.run.perform buildingMachine linked).1 with
  | error e =>
    rw [hrun] at hok
    cases hok
  | ok s => exact hlength (hinOrder.status s hrun).1

end Pipeline

end VirtBoard.Launch
