import VirtBoard.Proofs.Launch.Leftovers

/-!
# When a launch leaves files behind

A launch with overlays owes it to the user to leave none of its temporary files, but for the merged
tree that the emulator failed to boot with.  It does so unless a program fails at one of four
points, and then what that program left, or was to read, stays.
-/

namespace VirtBoard.Launch

open VirtBoard.Action DeviceTree FileSystem

namespace Pipeline

variable {p : Pipeline} {m : Machine} {w w' : World} {fs : Files} {A : List Temporary}
variable {t : Temporary}

/-! ## 1. What is owed, and the ways to owe it -/

/-- The emulator was to boot with the merged tree, and could not be started or did not end well. -/
def RelaunchFailed (p : Pipeline) (done : List Run) (result : Except Failure ExitStatus) : Prop :=
  (done.length = p.jobs.length ∧ ∃ r ∈ done.getLast?, r.effect.status ≠ .success) ∨
    (done.length + 1 = p.jobs.length ∧
      result = .error (.notStarted p.environment.program.text))

/-- No temporary file is left, but for the merged tree that a failed relaunch leaves to be looked
at. -/
structure Tidy (p : Pipeline) (m : Machine) (done : List Run)
    (result : Except Failure ExitStatus) (fs : Files) : Prop where
  gone : ∀ t, t ≠ .mergedBinary → ¬p.Present m fs t
  kept : p.Present m fs .mergedBinary → p.RelaunchFailed done result

/-- The ways to leave something behind, told by the runs and the result of the launch. -/
inductive Leak (p : Pipeline) (m : Machine) (done : List Run)
    (result : Except Failure ExitStatus) : Prop where
  /-- The emulator dumped a tree and did not end well. -/
  | dump {r} : done = [r] → r.effect.status ≠ .success →
      p.Present m r.effect.files .dumpBinary → Leak p m done result
  /-- The decompiler wrote a source and did not end well. -/
  | decompile {r₀ r} : done = [r₀, r] → r.effect.status ≠ .success →
      p.Present m r.effect.files .dumpSource → Leak p m done result
  /-- The bundled compiler is wanted, and its builder is not there. -/
  | noBuilder {r₀ r e} : done = [r₀, r] → r.effect.status = .success →
      p.Present m r.effect.files .dumpSource → p.tools.compiler = none →
      result = .error e → BuilderMissing e → Leak p m done result
  /-- The builder did not end well. -/
  | build {r₀ r₁ r} : done = [r₀, r₁, r] → p.tools.compiler = none →
      r.effect.status ≠ .success → p.Present m r.effect.files .mergedSource → Leak p m done result
  /-- The compiler wrote a tree, and it or what was to be cleaned up behind it failed. -/
  | compile {first r e} : done = first ++ [r] → done.length + 1 = p.jobs.length →
      result = .error e → e ≠ .notStarted p.environment.program.text →
      p.Present m r.effect.files .mergedBinary → Leak p m done result

variable {done : List Run} {result : Except Failure ExitStatus}

theorem tidy_of_none (h : p.Within m [] fs) : p.Tidy m done result fs where
  gone _ _ := h.absent List.not_mem_nil
  kept hpresent := absurd hpresent (h.absent List.not_mem_nil)

theorem tidy_of_relaunchFailed (h : p.Within m [.mergedBinary] fs)
    (hfailed : p.RelaunchFailed done result) : p.Tidy m done result fs where
  gone _ ht := h.absent (by simpa using ht)
  kept _ := hfailed

-- Where one temporary file may be left, it is the one that counts.
theorem tidy_iff_of_one (h : p.Within m [t] fs)
    (hfailed : t = .mergedBinary → ¬p.RelaunchFailed done result) :
    p.Tidy m done result fs ↔ ¬p.Present m fs t := by
  constructor
  · intro htidy
    by_cases ht : t = .mergedBinary
    · intro hpresent
      rw [ht] at hpresent
      exact hfailed ht (htidy.kept hpresent)
    · exact htidy.gone t ht
  · intro habsent
    have hgone : ∀ u, ¬p.Present m fs u := by
      intro u
      by_cases hu : u = t
      · rwa [hu]
      · exact h.absent (by simpa using hu)
    exact tidy_of_none (within_nil.mpr hgone)

theorem tidy_iff_of_other (h : p.Within m [t] fs) (ht : t ≠ .mergedBinary) :
    p.Tidy m done result fs ↔ ¬p.Present m fs t :=
  tidy_iff_of_one h fun heq => absurd heq ht

/-! Which of the ways a launch can have taken is told by how far it came. -/

theorem not_leak_of_early {e : Failure} (hlength : done.length ≤ 2)
    (hs : ∀ r ∈ done, r.effect.status = .success) (he : BuilderMissing e → done.length ≤ 1) :
    ¬p.Leak m done (.error e) := by
  intro hleak
  cases hleak with
  | dump hdone hfailed => exact hfailed (hs _ (by simp [hdone]))
  | decompile hdone hfailed => exact hfailed (hs _ (by simp [hdone]))
  | noBuilder hdone _ _ _ hresult hmissing =>
    cases hresult
    have hone := he hmissing
    simp [hdone] at hone
  | build hdone => simp [hdone] at hlength
  | compile _ hjobs =>
    rw [jobs_length] at hjobs
    omega

theorem leak_dump_iff {r : Run} (hs : r.effect.status ≠ .success) :
    p.Leak m [r] result ↔ p.Present m r.effect.files .dumpBinary := by
  refine ⟨fun hleak => ?_, .dump rfl hs⟩
  cases hleak with
  | dump hdone _ hpresent => rwa [(List.cons.inj hdone).1]
  | decompile hdone => simp at hdone
  | noBuilder hdone => simp at hdone
  | build hdone => simp at hdone
  | compile _ hjobs =>
    rw [jobs_length, List.length_singleton] at hjobs
    omega

theorem leak_decompile_iff {r₀ r : Run} (hs : r.effect.status ≠ .success) :
    p.Leak m [r₀, r] result ↔ p.Present m r.effect.files .dumpSource := by
  refine ⟨fun hleak => ?_, .decompile rfl hs⟩
  cases hleak with
  | dump hdone => simp at hdone
  | decompile hdone _ hpresent =>
    obtain ⟨rfl, rfl⟩ := by simpa using hdone
    exact hpresent
  | noBuilder hdone hs' =>
    obtain ⟨rfl, rfl⟩ := by simpa using hdone
    exact absurd hs' hs
  | build hdone => simp at hdone
  | compile _ hjobs =>
    rw [jobs_length, List.length_cons, List.length_singleton] at hjobs
    omega

theorem leak_noBuilder_iff {r₀ r : Run} {e : Failure} (hs : r.effect.status = .success)
    (hnone : p.tools.compiler = none) (he : BuilderMissing e) :
    p.Leak m [r₀, r] (.error e) ↔ p.Present m r.effect.files .dumpSource := by
  refine ⟨fun hleak => ?_, fun hpresent => .noBuilder rfl hs hpresent hnone rfl he⟩
  cases hleak with
  | dump hdone => simp at hdone
  | decompile hdone hs' =>
    obtain ⟨rfl, rfl⟩ := by simpa using hdone
    exact absurd hs hs'
  | noBuilder hdone _ hpresent =>
    obtain ⟨rfl, rfl⟩ := by simpa using hdone
    exact hpresent
  | build hdone => simp at hdone
  | compile _ hjobs =>
    rw [jobs_length, List.length_cons, List.length_singleton] at hjobs
    omega

theorem leak_build_iff {r₀ r₁ r : Run} (hnone : p.tools.compiler = none)
    (hs : r.effect.status ≠ .success) :
    p.Leak m [r₀, r₁, r] result ↔ p.Present m r.effect.files .mergedSource := by
  refine ⟨fun hleak => ?_, .build rfl hnone hs⟩
  cases hleak with
  | dump hdone => simp at hdone
  | decompile hdone => simp at hdone
  | noBuilder hdone => simp at hdone
  | build hdone _ _ hpresent =>
    obtain ⟨rfl, rfl, rfl⟩ := by simpa using hdone
    exact hpresent
  | compile _ hjobs =>
    rw [jobs_length, builds_of_none hnone] at hjobs
    simp at hjobs

-- Behind a compiler that was found or built.
theorem leak_built_iff {r₀ r₁ : Run} {bs cs : List Run} (hs₁ : r₁.effect.status = .success)
    (hbuilt : p.Built bs) :
    p.Leak m ([r₀, r₁] ++ (bs ++ cs)) result ↔
      ∃ c r e, cs = [c, r] ∧ result = .error e ∧
        e ≠ .notStarted p.environment.program.text ∧ p.Present m r.effect.files .mergedBinary := by
  have hbs := hbuilt.length
  constructor
  · intro hleak
    cases hleak with
    | dump hdone => simp at hdone
    | decompile hdone hs =>
      simp only [List.cons_append, List.nil_append, List.cons.injEq] at hdone
      exact absurd (hdone.2.1 ▸ hs₁) hs
    | noBuilder hdone hs hpresent hnone =>
      rw [builds_of_none hnone] at hbs
      have hlength := congrArg List.length hdone
      simp [hbs] at hlength
    | build hdone hnone hs =>
      rw [builds_of_none hnone] at hbs
      obtain ⟨b, rfl⟩ := List.length_eq_one_iff.mp hbs
      simp only [List.cons_append, List.nil_append, List.cons.injEq] at hdone
      exact absurd (hdone.2.2.1 ▸ hbuilt.succeeded b List.mem_cons_self) hs
    | @compile first r e hdone hjobs hresult he hpresent =>
      -- All jobs but the relaunch were started, so that the last run is the compiler's.
      rw [jobs_length, ← hbs] at hjobs
      simp only [List.length_append, List.length_cons, List.length_nil] at hjobs
      obtain ⟨c, r', rfl⟩ := List.length_eq_two.mp (show cs.length = 2 by omega)
      have hlast : ([r₀, r₁] ++ (bs ++ [c])) ++ [r'] = first ++ [r] := by simpa using hdone
      obtain rfl := List.singleton_inj.mp (List.append_inj' hlast rfl).2
      exact ⟨c, r', e, rfl, hresult, he, hpresent⟩
  · rintro ⟨c, r, e, rfl, hresult, he, hpresent⟩
    have hdone : [r₀, r₁] ++ (bs ++ [c, r]) = ([r₀, r₁] ++ (bs ++ [c])) ++ [r] := by simp
    refine .compile hdone ?_ hresult he hpresent
    rw [jobs_length, ← hbs]
    simp only [List.length_append, List.length_cons, List.length_nil]
    omega

/-- A launch that came to the relaunch leaves at most the merged tree, and that only if the
relaunch failed. -/
theorem relaunch_tidy (htools : ∀ j, p.Behaves m j (p.Confined m j))
    (hstarts : p.emulator p.dumpOptions ≠ none) {before : List Run} {r₀ r₁ : Run}
    {bs cs : List Run} (hs₁ : r₁.effect.status = .success) (hbuilt : p.Built bs)
    (hruns : w.runs = before ++ ([r₀, r₁] ++ (bs ++ cs))) (hw : p.Within m A w.files)
    (hcs : cs = [] ∧ A = [] ∨ cs.length = 2 ∧ A = [.mergedBinary]) :
    let out := (p.relaunch (p.temporary .mergedBinary)).perform m w
    ∃ done, out.2.runs = before ++ done ∧ p.Tidy m done out.1 out.2.files ∧
      ¬p.Leak m done out.1 := by
  have hrelaunch := relaunch_exit htools hw hstarts
  generalize (p.relaunch (p.temporary .mergedBinary)).perform m w = out at hrelaunch ⊢
  obtain ⟨result, w₁⟩ := out
  have hlength : ∀ rs, ([r₀, r₁] ++ (bs ++ (cs ++ rs))).length = 2 + p.builds + cs.length + rs.length := by
    intro rs
    simp only [List.length_append, hbuilt.length, List.length_cons, List.length_nil]
    omega
  have hall : ∀ {rs}, w₁.runs = w.runs ++ rs →
      w₁.runs = before ++ ([r₀, r₁] ++ (bs ++ (cs ++ rs))) := by
    intro rs h
    rw [h, hruns]
    simp only [List.append_assoc]
  have hjobs := p.jobs_length
  cases hrelaunch with
  | notStarted hruns₁ hw₁ =>
    refine ⟨_, hall (hruns₁.trans (List.append_nil _).symm), ?_, ?_⟩
    · rcases hcs with ⟨-, rfl⟩ | ⟨htwo, rfl⟩
      · exact tidy_of_none hw₁
      · refine tidy_of_relaunchFailed hw₁ (Or.inr ⟨?_, rfl⟩)
        rw [hlength, hjobs, htwo, List.length_nil]
        omega
    · rw [leak_built_iff hs₁ hbuilt]
      rintro ⟨c, r, e, -, hresult, he, -⟩
      exact he (Except.error.inj hresult).symm
  | @failed w₁ r hruns₁ hs hw₁ =>
    refine ⟨_, hall hruns₁, ?_, ?_⟩
    · rcases hcs with ⟨-, rfl⟩ | ⟨htwo, rfl⟩
      · exact tidy_of_none hw₁
      · have hlast : r ∈ ([r₀, r₁] ++ (bs ++ (cs ++ [r]))).getLast? := by
          simp only [List.getLast?_append, List.getLast?_singleton, Option.some_or, Option.mem_def]
        refine tidy_of_relaunchFailed hw₁ (Or.inl ⟨?_, r, hlast, hs⟩)
        rw [hlength, hjobs, htwo, List.length_singleton]
        omega
    · rw [leak_built_iff hs₁ hbuilt]
      rintro ⟨c, r', e, -, hresult, -⟩
      cases hresult
  | @removed _ w₁ r hruns₁ hw₁ =>
    have hnil : p.Within m [] w₁.files := by
      rcases hcs with ⟨-, rfl⟩ | ⟨-, rfl⟩ <;> exact hw₁
    refine ⟨_, hall hruns₁, tidy_of_none hnil, ?_⟩
    rw [leak_built_iff hs₁ hbuilt]
    rintro ⟨c, r', e, hrs, -⟩
    have hodd := congrArg List.length hrs
    rcases hcs with ⟨rfl, -⟩ | ⟨htwo, -⟩
    · simp at hodd
    · simp [htwo] at hodd

-- The second stage leaves what it should, unless it is in one of the ways to leave more.
theorem mergeAndRelaunch_tidy_iff (htools : ∀ j, p.Behaves m j (p.Confined m j))
    (hstarts : p.emulator p.dumpOptions ≠ none) {before : List Run} {r₀ r₁ : Run}
    (hs₀ : r₀.effect.status = .success) (hs₁ : r₁.effect.status = .success)
    (hruns : w.runs = before ++ [r₀, r₁])
    (hsource : p.standing m w.files .dumpSource = p.standing m r₁.effect.files .dumpSource)
    (hw : p.Within m [.dumpSource] w.files) :
    ∃ done, (p.mergeAndRelaunch.perform m w).2.runs = before ++ done ∧
      (p.Tidy m done (p.mergeAndRelaunch.perform m w).1 (p.mergeAndRelaunch.perform m w).2.files ↔
        ¬p.Leak m done (p.mergeAndRelaunch.perform m w).1) := by
  -- A stop before the compiler is had leaves nothing, unless it is the builder that is missing.
  have hearly : ∀ {e}, ¬BuilderMissing e → ¬p.Leak m [r₀, r₁] (.error e) := by
    intro e he
    exact not_leak_of_early (by simp) (by simpa using ⟨hs₀, hs₁⟩) (fun h => absurd h he)
  rw [mergeAndRelaunch_eq, perform_bind]
  obtain ⟨w₁, hruns₁, ⟨hout, hw₁, hmerged⟩ | ⟨task, q, hout, hnil⟩⟩ := merge_exit hw
  swap
  · rw [hout]
    refine ⟨[r₀, r₁], hruns₁.trans hruns, iff_of_true (tidy_of_none hnil) ?_⟩
    exact hearly (not_builderMissing (by simp) (by simp))
  rw [hout]
  dsimp only
  rw [perform_bind]
  have hall : ∀ {w₂ : World} {rs}, w₂.runs = w₁.runs ++ rs → w₂.runs = before ++ ([r₀, r₁] ++ rs) := by
    intro w₂ rs h
    rw [h, hruns₁, hruns, List.append_assoc]
  have htree := compileMerged_exit htools hw₁
  generalize p.compileMerged.perform m w₁ = out at htree ⊢
  obtain ⟨result, w₂⟩ := out
  cases htree with
  | stopped hruns₂ he hnil =>
    exact ⟨[r₀, r₁], hruns₂.trans (hruns₁.trans hruns), iff_of_true (tidy_of_none hnil) (hearly he)⟩
  | noBuilder hruns₂ hnone he hsource₂ hw₂ =>
    refine ⟨[r₀, r₁], hruns₂.trans (hruns₁.trans hruns), ?_⟩
    have hpresent :
        p.Present m w₂.files .mergedSource ↔ p.Present m r₁.effect.files .dumpSource := by
      rw [Present, hsource₂, Present, ← hsource]
      exact hmerged
    rw [tidy_iff_of_other hw₂ (by decide), leak_noBuilder_iff hs₁ hnone he, hpresent]
  | buildFailed hruns₂ hnone hs hfiles hw₂ =>
    refine ⟨_, hall hruns₂, ?_⟩
    rw [tidy_iff_of_other hw₂ (by decide), hfiles]
    exact not_congr (leak_build_iff hnone hs).symm
  | early hruns₂ hbuilt hlength hnil =>
    refine ⟨_, hall hruns₂, iff_of_true (tidy_of_none hnil) ?_⟩
    rw [leak_built_iff hs₁ hbuilt]
    rintro ⟨c, r, e, rfl, -⟩
    simp at hlength
  | @compilerFailed e w₂ bs c r he hruns₂ hbuilt hw₂ hbinary =>
    refine ⟨_, hall hruns₂, ?_⟩
    have hfailed : ¬p.RelaunchFailed ([r₀, r₁] ++ (bs ++ [c, r])) (.error e) := by
      rintro (⟨hlength, -⟩ | ⟨-, hresult⟩)
      · rw [jobs_length, ← hbuilt.length] at hlength
        simp at hlength
        omega
      · exact he _ (Except.error.inj hresult)
    rw [tidy_iff_of_one hw₂ fun _ => hfailed, leak_built_iff hs₁ hbuilt, Present, hbinary]
    refine not_congr ⟨fun h => ⟨c, r, e, rfl, rfl, he _, h⟩, ?_⟩
    rintro ⟨c', r', e', hcs, -, -, hpresent⟩
    obtain ⟨rfl, rfl⟩ : c = c' ∧ r = r' := by simpa using hcs
    exact hpresent
  | upToDate hbinary hruns₂ hbuilt hw₂ =>
    dsimp only
    rw [hbinary]
    obtain ⟨done, hdone, htidy, hleak⟩ := relaunch_tidy htools hstarts hs₁ hbuilt
      (hall (hruns₂.trans (by rw [List.append_nil]))) hw₂ (Or.inl ⟨rfl, rfl⟩)
    exact ⟨done, hdone, iff_of_true htidy hleak⟩
  | made hbinary hruns₂ hbuilt hw₂ =>
    dsimp only
    rw [hbinary]
    obtain ⟨done, hdone, htidy, hleak⟩ := relaunch_tidy htools hstarts hs₁ hbuilt
      (hall hruns₂) hw₂ (Or.inr ⟨rfl, rfl⟩)
    exact ⟨done, hdone, iff_of_true htidy hleak⟩

/-- A launch with overlays that starts without any of its temporary files ends without them, but
for a tree that a failed relaunch leaves, exactly if it does not take one of the ways to leave more:
a dump, a decompilation, a build or a compilation that failed and left its output or its input. -/
theorem tidy_iff_not_leak (hoverlays : p.options.overlays ≠ [])
    (htools : ∀ j, p.Behaves m j (p.Confined m j)) (hclean : ∀ t, ¬p.Present m w.files t) :
    ∃ done, (p.run.perform m w).2.runs = w.runs ++ done ∧
      (p.Tidy m done (p.run.perform m w).1 (p.run.perform m w).2.files ↔
        ¬p.Leak m done (p.run.perform m w).1) := by
  rw [run_eq hoverlays, perform_bind]
  have hdump := dump_exit htools (within_nil.mpr hclean)
  generalize p.dump.perform m w = out at hdump ⊢
  obtain ⟨result, w₁⟩ := out
  cases hdump with
  | done hruns hdoes hs₀ hs₁ hsource hw₁ =>
    refine mergeAndRelaunch_tidy_iff htools ?_ hs₀ hs₁ hruns hsource hw₁
    exact Option.ne_none_iff_exists'.mpr ⟨_, hdoes⟩
  | early hruns hlength he hs hnil =>
    exact ⟨_, hruns, iff_of_true (tidy_of_none hnil) (not_leak_of_early hlength hs he)⟩
  | dumpFailed hruns hs hfiles hw₁ =>
    refine ⟨_, hruns, ?_⟩
    rw [tidy_iff_of_other hw₁ (by decide), leak_dump_iff hs, hfiles]
  | decompilerFailed hruns hs hsource hw₁ =>
    refine ⟨_, hruns, ?_⟩
    rw [tidy_iff_of_other hw₁ (by decide), leak_decompile_iff hs, Present, hsource, Present]

theorem sample_confined (j : Job) :
    sample.Behaves sampleMachine j (sample.Confined sampleMachine j) := by
  intro before start effect hcommand heffect A hA
  rcases sample_effect hcommand heffect with hfiles | ⟨t, text, hout, hwrite⟩
  · rw [hfiles]
    exact hA.mono (List.subset_append_right _ _)
  · rw [hout]
    exact hA.written hwrite

/-- The sample without the builder. -/
def unbuilt : World :=
  sampleWorld samplePrograms.tail

theorem unbuilt_clean (t : Temporary) : ¬sample.Present sampleMachine unbuilt.files t := by
  unfold Present standing
  cases t <;> decide +kernel

theorem unbuilt_leaves_source :
    sample.Present sampleMachine (sample.run.perform sampleMachine unbuilt).2.files
      .mergedSource := by
  unfold Present standing
  decide +kernel

theorem unbuilt_leaks :
    ∃ done, (sample.run.perform sampleMachine unbuilt).2.runs = done ∧
      sample.Leak sampleMachine done (sample.run.perform sampleMachine unbuilt).1 := by
  obtain ⟨done, hruns, htidy⟩ :=
    tidy_iff_not_leak (w := unbuilt) (by decide) sample_confined unbuilt_clean
  refine ⟨done, hruns, by_contra fun hleak => ?_⟩
  exact (htidy.mpr hleak).gone .mergedSource (by decide) unbuilt_leaves_source

/-- A missing builder alone leaves a file behind. -/
theorem tidiness_needs_the_builder :
    ¬∀ (p : Pipeline) (m : Machine) (w : World), p.options.overlays ≠ [] →
      (∀ j, p.Behaves m j (p.Confined m j)) → (∀ t, ¬p.Present m w.files t) →
      ∃ done, (p.run.perform m w).2.runs = w.runs ++ done ∧
        p.Tidy m done (p.run.perform m w).1 (p.run.perform m w).2.files := by
  intro h
  obtain ⟨done, -, htidy⟩ := h sample sampleMachine unbuilt (by decide) sample_confined unbuilt_clean
  exact htidy.gone .mergedSource (by decide) unbuilt_leaves_source

end Pipeline

end VirtBoard.Launch
