import VirtBoard.Proofs.Launch.Order

/-!
# What a launch leaves behind

The temporary files of a launch with overlays, from the moment one is made to the moment it is
removed.  Most ways out of the launch remove all of them; four do not.
-/

namespace VirtBoard.Launch

open VirtBoard.Action DeviceTree FileSystem

namespace Pipeline

variable {p : Pipeline} {m : Machine} {w w' : World} {fs fs' : Files} {A B : List Temporary}
variable {t u : Temporary}

/-! ## 1. Temporary files that are present -/

/-- Only some temporary files are present, and they are regular files. -/
def Within (p : Pipeline) (m : Machine) (A : List Temporary) (fs : Files) : Prop :=
  ∀ t e, p.standing m fs t = some e → t ∈ A ∧ e.branch = none

theorem Within.mono (h : p.Within m A fs) (hsub : A ⊆ B) : p.Within m B fs :=
  fun t e he => ⟨hsub (h t e he).1, (h t e he).2⟩

theorem Within.absent (h : p.Within m A fs) (ht : t ∉ A) : ¬p.Present m fs t := by
  intro hpresent
  obtain ⟨e, he⟩ := Option.ne_none_iff_exists'.mp hpresent
  exact ht (h t e he).1

theorem within_nil : p.Within m [] fs ↔ ∀ t, ¬p.Present m fs t := by
  constructor
  · exact fun h t => h.absent List.not_mem_nil
  · intro h t e he
    exact absurd (fun hnone => Option.some_ne_none e (he.symm.trans hnone)) (h t)

theorem Within.unlinkable (h : p.Within m A fs) (t : Temporary) :
    fs.Unlinkable m.cwd (p.temporary t) :=
  fun e he => (h t e he).2

/-! ## 2. What removes them -/

theorem standing_unlinked (h : p.Within m A fs) (now : Time) (hne : u ≠ t) :
    p.standing m (fs.unlinked m.cwd (p.temporary t) now) u = p.standing m fs u :=
  named?_unlinked_other t.fileName u.fileName (Temporary.name_ne hne) (h.unlinkable t) now

theorem Within.unlinked (h : p.Within m A fs) (t : Temporary) (now : Time) :
    p.Within m (A.filter (· ≠ t)) (fs.unlinked m.cwd (p.temporary t) now) := by
  intro u e he
  by_cases hut : u = t
  · have hself := named?_unlinked_self t.fileName (h.unlinkable t) now
    rw [hut] at he
    exact absurd (hself.symm.trans he) (Option.some_ne_none e).symm
  · rw [standing_unlinked h now hut] at he
    obtain ⟨hu, hbranch⟩ := h u e he
    exact ⟨List.mem_filter.mpr ⟨hu, by simpa using hut⟩, hbranch⟩

-- A file that cannot be discarded is in a directory without any temporary file.  The longest of
-- their names may be refused where the others are not.
theorem discard_error (h : p.Within m A w.files) {e : Failure}
    (hout : (discard (p.temporary t)).perform m w = (.error e, w')) :
    w' = w ∧ e = .file .remove (p.temporary t) ∧
      (t ≠ .expandedSource → p.Within m [] w.files) := by
  rw [perform_discard] at hout
  split at hout
  next => cases hout
  next => cases hout
  next reason hreason hunlink =>
    cases hout
    refine ⟨rfl, rfl, fun ht => within_nil.mpr fun u hu => hu ?_⟩
    exact named?_of_unlink_error t.fileName (h.unlinkable t) hunlink hreason u.fileName.1
      (checkPath_temporary ht)

/-! ## 3. What makes them -/

/-- Among regular files, a job makes no temporary file but its own output, a regular file. -/
def Confined (p : Pipeline) (m : Machine) (j : Job) (fs fs' : Files) : Prop :=
  ∀ A, p.Within m A fs → p.Within m (j.output.toList ++ A) fs'

theorem Within.ran {j : Job} {r : Run} (h : p.Within m A w.files) (hran : p.Ran m w j r)
    (htools : ∀ j, p.Behaves m j (p.Confined m j)) :
    p.Within m (j.output.toList ++ A) r.effect.files :=
  hran.behaves (htools j) A h

theorem Within.written (h : p.Within m A fs) {content : ByteArray} {now : Time}
    (hwrite : fs.write m.cwd (p.temporary t) content now = .ok fs') :
    p.Within m (t :: A) fs' := by
  intro u e he
  by_cases hut : u = t
  · rw [hut] at he ⊢
    exact ⟨List.mem_cons_self,
      (h.unlinkable t).sameTree t.fileName.1 (sameTree_write hwrite) e he⟩
  · have hother := named?_written_other t.fileName u.fileName.1 (Temporary.name_ne hut)
      (h.unlinkable t) hwrite
    obtain ⟨hu, hbranch⟩ := h u e (hother.symm.trans he)
    exact ⟨List.mem_cons_of_mem t hu, hbranch⟩

-- A temporary file that was written stands there, if there is a place for it.
theorem present_of_written (h : p.Within m A fs) {content : ByteArray} {now : Time}
    (hwrite : fs.write m.cwd (p.temporary t) content now = .ok fs') :
    p.Present m fs' t ↔ ∃ dir, fs.walkInto m.cwd p.work = .ok dir := by
  constructor
  · intro hpresent
    obtain ⟨e, he⟩ := Option.ne_none_iff_exists'.mp hpresent
    obtain ⟨-, dir, hdir, -⟩ := (named?_join_eq_some t.fileName.1).mp he
    exact ⟨dir, walkInto_of_sameTree (sameTree_write hwrite).symm hdir⟩
  · rintro ⟨dir, hdir⟩
    obtain ⟨x, hx⟩ := named?_written_self t.fileName (h.unlinkable t) hwrite hdir
    exact Option.ne_none_iff_exists'.mpr ⟨_, hx⟩

-- So does one that can be read.
theorem present_of_holdsText {text : String} (h : HoldsText fs m.cwd (p.temporary t) text) :
    p.Present m fs t ↔ ∃ dir, fs.walkInto m.cwd p.work = .ok dir := by
  constructor
  · intro hpresent
    obtain ⟨e, he⟩ := Option.ne_none_iff_exists'.mp hpresent
    obtain ⟨-, dir, hdir, -⟩ := (named?_join_eq_some t.fileName.1).mp he
    exact ⟨dir, hdir⟩
  · rintro ⟨dir, hdir⟩
    obtain ⟨k, time, x, hwalk⟩ := h
    have hstat : fs.stat m.cwd (p.temporary t) = .ok (.file text.toUTF8 time x) := by
      rw [stat_eq, hwalk]
    exact named?_of_stat t.fileName hstat hdir

/-- One temporary file is gone, and nothing was run. -/
structure Removed (p : Pipeline) (m : Machine) (A : List Temporary) (t : Temporary)
    (w w₁ : World) : Prop where
  runs : w₁.runs = w.runs
  within : p.Within m (A.filter (· ≠ t)) w₁.files
  others : ∀ u, u ≠ t → p.standing m w₁.files u = p.standing m w.files u

theorem removed_of_unlinked (h : p.Within m A w.files) {w₁ : World} (hruns : w₁.runs = w.runs)
    (hfiles : w₁.files = w.files.unlinked m.cwd (p.temporary t) w.now) :
    p.Removed m A t w w₁ where
  runs := hruns
  within := by
    rw [hfiles]
    exact h.unlinked t w.now
  others u hu := by
    rw [hfiles]
    exact standing_unlinked h w.now hu

theorem remove_exit (h : p.Within m A w.files) (t : Temporary) :
    ∃ w₁, p.Removed m A t w w₁ ∧
      ((remove (p.temporary t)).perform m w = (.ok (), w₁) ∨
        (remove (p.temporary t)).perform m w = (.error (.file .remove (p.temporary t)), w₁)) := by
  refine ⟨_, removed_of_unlinked h (runs_remove _) (files_remove _), ?_⟩
  rw [perform_remove]
  split
  · exact Or.inl rfl
  · exact Or.inr rfl

theorem discard_exit (h : p.Within m A w.files) (t : Temporary) :
    ∃ w₁, p.Removed m A t w w₁ ∧
      ((discard (p.temporary t)).perform m w = (.ok (), w₁) ∨
        ((discard (p.temporary t)).perform m w = (.error (.file .remove (p.temporary t)), w₁) ∧
          (t ≠ .expandedSource → p.Within m [] w₁.files))) := by
  refine ⟨_, removed_of_unlinked h (runs_discard _) (files_discard _), ?_⟩
  rcases hout : (discard (p.temporary t)).perform m w with ⟨e | x, w₁⟩
  · obtain ⟨rfl, rfl, hnil⟩ := discard_error h hout
    exact Or.inr ⟨rfl, hnil⟩
  · exact Or.inl rfl

/-! ## 4. Ways out of the stages -/

/-- Why the builder of the bundled compiler does not run. -/
def BuilderMissing (e : Failure) : Prop :=
  e = .notInSearchPath ⟨"scons"⟩ ∨ e = .notStarted "scons"

theorem not_builderMissing {e : Failure} (hfind : e ≠ .notInSearchPath ⟨"scons"⟩)
    (hstart : e ≠ .notStarted "scons") : ¬BuilderMissing e :=
  not_or.mpr ⟨hfind, hstart⟩

/-- The ways out of the first stage. -/
inductive DumpExit (p : Pipeline) (m : Machine) (w : World) :
    Except Failure ExitStatus → World → Prop where
  | done {s w' r₀ r₁} : w'.runs = w.runs ++ [r₀, r₁] → p.Does m .dump r₀ →
      r₀.effect.status = .success → r₁.effect.status = .success →
      p.standing m w'.files .dumpSource = p.standing m r₁.effect.files .dumpSource →
      p.Within m [.dumpSource] w'.files → DumpExit p m w (.ok s) w'
  | early {e w' rs} : w'.runs = w.runs ++ rs → rs.length ≤ 2 →
      (BuilderMissing e → rs.length ≤ 1) → (∀ r ∈ rs, r.effect.status = .success) →
      p.Within m [] w'.files → DumpExit p m w (.error e) w'
  | dumpFailed {e w' r} : w'.runs = w.runs ++ [r] → r.effect.status ≠ .success →
      w'.files = r.effect.files → p.Within m [.dumpBinary] w'.files →
      DumpExit p m w (.error e) w'
  | decompilerFailed {e w' r₀ r₁} : w'.runs = w.runs ++ [r₀, r₁] →
      r₁.effect.status ≠ .success →
      p.standing m w'.files .dumpSource = p.standing m r₁.effect.files .dumpSource →
      p.Within m [.dumpSource] w'.files → DumpExit p m w (.error e) w'

theorem dump_exit (htools : ∀ j, p.Behaves m j (p.Confined m j)) (hw : p.Within m [] w.files) :
    DumpExit p m w (p.dump.perform m w).1 (p.dump.perform m w).2 := by
  rw [perform_dump]
  unfold dumpByTools
  rw [perform_bind]
  rcases launch_cases (j := .dump) (fun _ => rfl) w with
    ⟨e, w₁, -, hfiles, hruns, h⟩ | ⟨r₀, w₁, hran, hfiles, hruns, h⟩
  · rw [h]
    exact .early (by rw [hruns, List.append_nil]) (by simp) (by simp) (by simp) (by rwa [hfiles])
  rw [h]
  dsimp only
  have hw₁ : p.Within m [.dumpBinary] w₁.files := by
    rw [hfiles]
    exact hw.ran hran htools
  -- From here on the dump is there, and only what follows a good end of the emulator discards it.
  by_cases hs : r₀.effect.status = .success
  · rw [if_neg (fun hne => hne hs), perform_bind, perform_cleaned]
    rcases tool_cases p m "dtc" (.notInSearchPath ⟨"dtc"⟩) .decompile w₁ with
      ⟨e, -, hout⟩ | ⟨r₁, hran₁, hout⟩
    · obtain ⟨w₂, hremoved, hdiscard⟩ := discard_exit hw₁ .dumpBinary
      have hall : w₂.runs = w.runs ++ [r₀] := hremoved.runs.trans hruns
      rcases hdiscard with hdiscard | ⟨hdiscard, -⟩
      · rw [hout, hdiscard]
        exact .early hall (by simp) (by simp) (by simpa using hs) hremoved.within
      · rw [hout, hdiscard]
        exact .early hall (by simp) (by simp) (by simpa using hs) hremoved.within
    have hw₂ : p.Within m [.dumpSource, .dumpBinary] (w₁.after r₁).files :=
      hw₁.ran hran₁ htools
    obtain ⟨w₃, hremoved, hdiscard⟩ := discard_exit hw₂ .dumpBinary
    have hall : w₃.runs = w.runs ++ [r₀, r₁] := by simp [hremoved.runs, hruns]
    have hsource := hremoved.others .dumpSource (by decide)
    rcases hout with ⟨hs₁, hout⟩ | ⟨hs₁, hout⟩
    · rcases hdiscard with hdiscard | ⟨hdiscard, hnil⟩
      · rw [hout, hdiscard]
        exact .done hall hran.does hs hs₁ hsource hremoved.within
      · rw [hout, hdiscard]
        exact .early hall (by simp) (fun he => absurd he (not_builderMissing nofun nofun))
          (by simpa using ⟨hs, hs₁⟩) (hnil (by decide))
    · rcases hdiscard with hdiscard | ⟨hdiscard, -⟩
      · rw [hout, hdiscard]
        exact .decompilerFailed hall hs₁ hsource hremoved.within
      · rw [hout, hdiscard]
        exact .decompilerFailed hall hs₁ hsource hremoved.within
  · rw [if_pos hs]
    exact .dumpFailed hruns hs hfiles hw₁

-- The merge ends with the merged source in the place of the dump, or with neither.
theorem merge_exit (hw : p.Within m [.dumpSource] w.files) :
    ∃ w₁, w₁.runs = w.runs ∧
      ((p.mergeOverlays.perform m w = (.ok (), w₁) ∧ p.Within m [.mergedSource] w₁.files ∧
          (p.Present m w₁.files .mergedSource ↔ p.Present m w.files .dumpSource)) ∨
        ∃ task q, p.mergeOverlays.perform m w = (.error (.file task q), w₁) ∧
          p.Within m [] w₁.files) := by
  have hends : (∃ task q, (merge p.sources (p.temporary .mergedSource)).perform m w =
        (.error (.file task q), w)) ∨
      ∃ texts files, List.Forall₂ (HoldsText w.files m.cwd) p.sources texts ∧
        w.files.write m.cwd (p.temporary .mergedSource) (mergeTexts texts).toUTF8 w.now =
          .ok files ∧
        (merge p.sources (p.temporary .mergedSource)).perform m w = (.ok (),
          { w with files }.record (.wrote (p.temporary .mergedSource) (mergeTexts texts))) := by
    rcases merge_cases p.sources (p.temporary .mergedSource) m w with
      ⟨-, q, -, -, -, -, h⟩ | ⟨texts, hread, ⟨-, h⟩ | ⟨files, hwrite, h⟩⟩
    · exact Or.inl ⟨_, _, h⟩
    · exact Or.inl ⟨_, _, h⟩
    · exact Or.inr ⟨texts, files, hread, hwrite, h⟩
  rw [mergeOverlays_eq, perform_bind, perform_attempt]
  rcases hends with ⟨task, q, h⟩ | ⟨texts, files, hread, hwrite, h⟩
  · rw [h]
    dsimp only
    obtain ⟨w₁, hremoved, hdiscard⟩ := discard_exit hw .dumpSource
    rw [perform_bind]
    -- Nothing was written, so that the second removal finds nothing.
    rcases hdiscard with hdiscard | ⟨hdiscard, hnil⟩
    · obtain ⟨w₂, hremoved₂, hdiscard₂⟩ := discard_exit hremoved.within .mergedSource
      have hall : w₂.runs = w.runs := hremoved₂.runs.trans hremoved.runs
      rw [hdiscard]
      dsimp only
      rw [perform_bind]
      rcases hdiscard₂ with hdiscard₂ | ⟨hdiscard₂, -⟩
      · rw [hdiscard₂]
        exact ⟨w₂, hall, Or.inr ⟨task, q, rfl, hremoved₂.within⟩⟩
      · rw [hdiscard₂]
        exact ⟨w₂, hall, Or.inr ⟨.remove, _, rfl, hremoved₂.within⟩⟩
    · rw [hdiscard]
      exact ⟨w₁, hremoved.runs, Or.inr ⟨.remove, _, rfl, hnil (by decide)⟩⟩
  · rw [h]
    dsimp only
    generalize hw₁ : { w with files }.record (.wrote (p.temporary .mergedSource)
      (mergeTexts texts)) = w₁
    have hfiles : w₁.files = files := by rw [← hw₁, World.files_record]
    have hruns : w₁.runs = w.runs := by rw [← hw₁, World.runs_wrote, World.runs_with_files]
    have hwithin : p.Within m [.mergedSource, .dumpSource] w₁.files := by
      rw [hfiles]
      exact hw.written hwrite
    obtain ⟨w₂, hremoved, hdiscard⟩ := discard_exit hwithin .dumpSource
    have hall : w₂.runs = w.runs := hremoved.runs.trans hruns
    rw [perform_bind]
    rcases hdiscard with hdiscard | ⟨hdiscard, hnil⟩
    · rw [hdiscard]
      rw [sources_eq] at hread
      obtain ⟨text, rest, hdump, -, -⟩ := List.forall₂_cons_left_iff.mp hread
      have hpresent : p.Present m w₂.files .mergedSource ↔ p.Present m w.files .dumpSource := by
        rw [present_of_holdsText hdump, ← present_of_written hw hwrite, ← hfiles, Present, Present,
          hremoved.others .mergedSource (by decide)]
      exact ⟨w₂, hall, Or.inl ⟨rfl, hremoved.within, hpresent⟩⟩
    · rw [hdiscard]
      exact ⟨w₂, hall, Or.inr ⟨.remove, _, rfl, hnil (by decide)⟩⟩

/-- The ways out of the compilation proper. -/
inductive CompileExit (p : Pipeline) (m : Machine) (A : List Temporary) (w : World) :
    Except Failure Compiled → World → Prop where
  | upToDate {c w'} : c.binary = p.temporary .mergedBinary → w'.runs = w.runs →
      p.Within m A w'.files → CompileExit p m A w (.ok c) w'
  | early {e w' rs} : w'.runs = w.runs ++ rs → rs.length ≤ 1 → p.Within m A w'.files →
      CompileExit p m A w (.error e) w'
  | compiled {c w' r₀ r} : c.binary = p.temporary .mergedBinary →
      w'.runs = w.runs ++ [r₀, r] → p.Within m (.mergedBinary :: A) w'.files →
      p.standing m w'.files .mergedBinary = p.standing m r.effect.files .mergedBinary →
      CompileExit p m A w (.ok c) w'
  | compilerFailed {e w' r₀ r} : (∀ what, e ≠ .notStarted what) →
      w'.runs = w.runs ++ [r₀, r] → p.Within m (.mergedBinary :: A) w'.files →
      p.standing m w'.files .mergedBinary = p.standing m r.effect.files .mergedBinary →
      CompileExit p m A w (.error e) w'

/-- What is done with an expanded source. -/
def compileExpanded (p : Pipeline) : Action Compiled := do
  cleaned (p.tool "dtc" .noStage .compile) (remove (p.temporary .expandedSource))
  return ⟨p.temporary .mergedSource, p.temporary .mergedBinary, .built⟩

theorem compileExpanded_exit (htools : ∀ j, p.Behaves m j (p.Confined m j)) {r₀ : Run} {w₁ : World}
    (hruns : w₁.runs = w.runs ++ [r₀])
    (hw : p.Within m [.expandedSource, .mergedSource] w₁.files) :
    CompileExit p m [.mergedSource] w (p.compileExpanded.perform m w₁).1
      (p.compileExpanded.perform m w₁).2 := by
  unfold compileExpanded
  rw [perform_bind, perform_cleaned]
  rcases tool_cases p m "dtc" .noStage .compile w₁ with
    ⟨e, -, hout⟩ | ⟨r, hran, ⟨hs, hout⟩ | ⟨hs, hout⟩⟩
  · obtain ⟨w₂, hremoved, hremove | hremove⟩ := remove_exit hw .expandedSource
    · rw [hout, hremove]
      exact .early (hremoved.runs.trans hruns) (by simp) hremoved.within
    · rw [hout, hremove]
      exact .early (hremoved.runs.trans hruns) (by simp) hremoved.within
  · obtain ⟨w₂, hremoved, hremove⟩ :=
      remove_exit (w := w₁.after r) (hw.ran hran htools) .expandedSource
    have hall : w₂.runs = w.runs ++ [r₀, r] := by simp [hremoved.runs, hruns]
    have hbinary := hremoved.others .mergedBinary (by decide)
    rcases hremove with hremove | hremove
    · rw [hout, hremove]
      exact .compiled rfl hall hremoved.within hbinary
    · rw [hout, hremove]
      exact .compilerFailed (fun _ h => by cases h) hall hremoved.within hbinary
  · obtain ⟨w₂, hremoved, hremove⟩ :=
      remove_exit (w := w₁.after r) (hw.ran hran htools) .expandedSource
    have hall : w₂.runs = w.runs ++ [r₀, r] := by simp [hremoved.runs, hruns]
    have hbinary := hremoved.others .mergedBinary (by decide)
    rcases hremove with hremove | hremove
    · rw [hout, hremove]
      exact .compilerFailed (fun _ h => by cases h) hall hremoved.within hbinary
    · rw [hout, hremove]
      exact .compilerFailed (fun _ h => by cases h) hall hremoved.within hbinary

theorem compileByTools_exit (htools : ∀ j, p.Behaves m j (p.Confined m j))
    (hw : p.Within m [.mergedSource] w.files) :
    CompileExit p m [.mergedSource] w (p.compileByTools.perform m w).1
      (p.compileByTools.perform m w).2 := by
  unfold compileByTools
  rw [perform_bind, perform_attempt]
  rcases tool_cases p m "cpp" (.noPreprocessor p.chain.preprocessor) .preprocess w with
    ⟨e, -, hout⟩ | ⟨r₀, hran, ⟨hs, hout⟩ | ⟨hs, hout⟩⟩
  · rw [hout]
    dsimp only
    rw [perform_bind]
    obtain ⟨w₁, hremoved, hdiscard⟩ := discard_exit hw .expandedSource
    have hall : w₁.runs = w.runs ++ [] := by rw [hremoved.runs, List.append_nil]
    rcases hdiscard with hdiscard | ⟨hdiscard, -⟩
    · rw [hdiscard]
      exact .early hall (by simp) hremoved.within
    · rw [hdiscard]
      exact .early hall (by simp) hremoved.within
  · rw [hout]
    exact compileExpanded_exit htools (World.runs_after w r₀) (hw.ran hran htools)
  · rw [hout]
    dsimp only
    rw [perform_bind]
    obtain ⟨w₁, hremoved, hdiscard⟩ :=
      discard_exit (w := w.after r₀) (hw.ran hran htools) .expandedSource
    have hall : w₁.runs = w.runs ++ [r₀] := by rw [hremoved.runs, World.runs_after]
    rcases hdiscard with hdiscard | ⟨hdiscard, -⟩
    · rw [hdiscard]
      exact .early hall (by simp) hremoved.within
    · rw [hdiscard]
      exact .early hall (by simp) hremoved.within

-- The compilation, with the removal of the merged source behind it.
theorem compile_exit (htools : ∀ j, p.Behaves m j (p.Confined m j))
    (hw : p.Within m [.mergedSource] w.files) :
    CompileExit p m [] w
      ((cleaned (p.chain.compile (p.temporary .mergedSource))
        (remove (p.temporary .mergedSource))).perform m w).1
      ((cleaned (p.chain.compile (p.temporary .mergedSource))
        (remove (p.temporary .mergedSource))).perform m w).2 := by
  have hcompile : CompileExit p m [.mergedSource] w
      ((p.chain.compile (p.temporary .mergedSource)).perform m w).1
      ((p.chain.compile (p.temporary .mergedSource)).perform m w).2 := by
    rw [perform_compile]
    split
    · exact .early (List.append_nil _).symm (by simp) hw
    · exact .upToDate rfl rfl hw
    · exact compileByTools_exit htools hw
  rw [perform_cleaned]
  generalize (p.chain.compile (p.temporary .mergedSource)).perform m w = out at hcompile
  obtain ⟨result, w₁⟩ := out
  cases hcompile with
  | upToDate hbinary hruns hw₁ =>
    obtain ⟨w₂, hremoved, hremove⟩ := remove_exit hw₁ .mergedSource
    have hall : w₂.runs = w.runs := hremoved.runs.trans hruns
    rcases hremove with hremove | hremove <;> dsimp only <;> rw [hremove]
    · exact .upToDate hbinary hall hremoved.within
    · exact .early (hall.trans (List.append_nil _).symm) (by simp) hremoved.within
  | early hruns hlength hw₁ =>
    obtain ⟨w₂, hremoved, hremove⟩ := remove_exit hw₁ .mergedSource
    rcases hremove with hremove | hremove <;> dsimp only <;> rw [hremove]
    · exact .early (hremoved.runs.trans hruns) hlength hremoved.within
    · exact .early (hremoved.runs.trans hruns) hlength hremoved.within
  | compiled hbinary hruns hw₁ hstanding =>
    obtain ⟨w₂, hremoved, hremove⟩ := remove_exit hw₁ .mergedSource
    have hstanding₂ := (hremoved.others .mergedBinary (by decide)).trans hstanding
    rcases hremove with hremove | hremove <;> dsimp only <;> rw [hremove]
    · exact .compiled hbinary (hremoved.runs.trans hruns) hremoved.within hstanding₂
    · exact .compilerFailed (fun _ h => by cases h) (hremoved.runs.trans hruns) hremoved.within
        hstanding₂
  | compilerFailed he hruns hw₁ hstanding =>
    obtain ⟨w₂, hremoved, hremove⟩ := remove_exit hw₁ .mergedSource
    have hstanding₂ := (hremoved.others .mergedBinary (by decide)).trans hstanding
    rcases hremove with hremove | hremove <;> dsimp only <;> rw [hremove]
    · exact .compilerFailed he (hremoved.runs.trans hruns) hremoved.within hstanding₂
    · exact .compilerFailed (fun _ h => by cases h) (hremoved.runs.trans hruns) hremoved.within
        hstanding₂

/-! ## 5. Getting the compiler -/

-- A directory with a temporary file in it shows that the merged tree is absent.
theorem exists_mergedBinary (hw : p.Within m [.mergedSource] fs) :
    fs.exists? m.cwd (p.temporary .mergedBinary) = .ok false ∨ p.Within m [] fs := by
  -- Whatever is present, the directory was found, and the name of the merged tree is not in it.
  by_cases hnil : p.Within m [] fs
  · exact Or.inr hnil
  · refine Or.inl ?_
    rw [within_nil, not_forall_not] at hnil
    obtain ⟨u, hu⟩ := hnil
    obtain ⟨e, he⟩ := Option.ne_none_iff_exists'.mp hu
    obtain ⟨hcheck, dir, hdir, -⟩ := (named?_join_eq_some u.fileName.1).mp he
    have hcheckBinary : Files.checkPath (p.temporary .mergedBinary) = .ok () :=
      checkPath_temporary (by decide) hcheck
    have hnone : fs.find? (Temporary.mergedBinary.name :: dir) = none := by
      by_contra hsome
      obtain ⟨e', he'⟩ := Option.ne_none_iff_exists'.mp hsome
      refine hw.absent (t := .mergedBinary) (by decide) ?_
      exact ne_of_eq_of_ne ((named?_join_eq_some Temporary.mergedBinary.fileName.1).mpr
        ⟨hcheckBinary, dir, hdir, he'⟩) (Option.some_ne_none e')
    have hwalk := walk_join_of_none Temporary.mergedBinary.fileName hcheckBinary hdir hnone
    rw [Files.exists?, stat_eq]
    unfold temporary
    rw [hwalk]

/-- How many runs it takes to have the compiler. -/
def builds (p : Pipeline) : Nat :=
  if p.tools.compiler.isNone then 1 else 0

theorem jobs_length (p : Pipeline) : p.jobs.length = 5 + p.builds := by
  unfold jobs builds
  split <;> rfl

theorem builds_of_none (h : p.tools.compiler = none) : p.builds = 1 := by
  rw [builds, h]
  rfl

/-- The runs after which the compiler is there. -/
structure Built (p : Pipeline) (bs : List Run) : Prop where
  length : bs.length = p.builds
  succeeded : ∀ r ∈ bs, r.effect.status = .success

/-- The ways out of getting the compiler. -/
inductive BuildExit (p : Pipeline) (m : Machine) (A : List Temporary) (w : World) :
    Except Failure Toolchain → World → Prop where
  | ready {w' bs} : w'.runs = w.runs ++ bs → p.Built bs → p.Within m A w'.files →
      BuildExit p m A w (.ok p.chain) w'
  | missing {e} : p.tools.compiler = none → BuilderMissing e → BuildExit p m A w (.error e) w
  | failed {e w' r} : p.tools.compiler = none → w'.runs = w.runs ++ [r] →
      r.effect.status ≠ .success → w'.files = r.effect.files → p.Within m A w'.files →
      BuildExit p m A w (.error e) w'

theorem compileChain_exit (htools : ∀ j, p.Behaves m j (p.Confined m j))
    (hw : p.Within m A w.files) :
    BuildExit p m A w (p.tools.compileChain.perform m w).1
      (p.tools.compileChain.perform m w).2 := by
  rw [perform_compileChain]
  cases hcompiler : p.tools.compiler with
  | some dtc =>
    have hbuilt : p.Built [] := ⟨by rw [builds, hcompiler]; rfl, by simp⟩
    exact .ready (List.append_nil _).symm hbuilt hw
  | none =>
    simp only [Option.isSome_none, Bool.false_eq_true, ↓reduceIte]
    rcases tool_cases p m "scons" (.notInSearchPath ⟨"scons"⟩) .build w with
      ⟨e, he, hout⟩ | ⟨r, hran, ⟨hs, hout⟩ | ⟨hs, hout⟩⟩
    · rw [hout]
      exact .missing hcompiler he
    · rw [hout]
      have hbuilt : p.Built [r] := ⟨(builds_of_none hcompiler).symm, by simpa using hs⟩
      exact .ready (World.runs_after w r) hbuilt (hw.ran hran htools)
    · rw [hout]
      exact .failed hcompiler (World.runs_after w r) hs rfl (hw.ran hran htools)

/-- The ways out of making the merged tree. -/
inductive TreeExit (p : Pipeline) (m : Machine) (w : World) :
    Except Failure Compiled → World → Prop where
  /-- A tree that was there before all, as far as can be told. -/
  | upToDate {c w' bs} : c.binary = p.temporary .mergedBinary → w'.runs = w.runs ++ bs →
      p.Built bs → p.Within m [] w'.files → TreeExit p m w (.ok c) w'
  | made {c w' bs r₀ r} : c.binary = p.temporary .mergedBinary →
      w'.runs = w.runs ++ (bs ++ [r₀, r]) → p.Built bs → p.Within m [.mergedBinary] w'.files →
      TreeExit p m w (.ok c) w'
  | stopped {e w'} : w'.runs = w.runs → ¬BuilderMissing e → p.Within m [] w'.files →
      TreeExit p m w (.error e) w'
  | noBuilder {e w'} : w'.runs = w.runs → p.tools.compiler = none → BuilderMissing e →
      p.standing m w'.files .mergedSource = p.standing m w.files .mergedSource →
      p.Within m [.mergedSource] w'.files → TreeExit p m w (.error e) w'
  | buildFailed {e w' r} : w'.runs = w.runs ++ [r] → p.tools.compiler = none →
      r.effect.status ≠ .success → w'.files = r.effect.files →
      p.Within m [.mergedSource] w'.files → TreeExit p m w (.error e) w'
  | early {e w' bs cs} : w'.runs = w.runs ++ (bs ++ cs) → p.Built bs → cs.length ≤ 1 →
      p.Within m [] w'.files → TreeExit p m w (.error e) w'
  | compilerFailed {e w' bs r₀ r} : (∀ what, e ≠ .notStarted what) →
      w'.runs = w.runs ++ (bs ++ [r₀, r]) → p.Built bs → p.Within m [.mergedBinary] w'.files →
      p.standing m w'.files .mergedBinary = p.standing m r.effect.files .mergedBinary →
      TreeExit p m w (.error e) w'

theorem TreeExit.before {w₀ : World} {result : Except Failure Compiled}
    (h : TreeExit p m w result w') (hruns : w.runs = w₀.runs)
    (hstanding : p.standing m w.files .mergedSource = p.standing m w₀.files .mergedSource) :
    TreeExit p m w₀ result w' := by
  cases h with
  | upToDate hbinary h hbuilt hw' => exact .upToDate hbinary (hruns ▸ h) hbuilt hw'
  | made hbinary h hbuilt hw' => exact .made hbinary (hruns ▸ h) hbuilt hw'
  | stopped h he hw' => exact .stopped (hruns ▸ h) he hw'
  | noBuilder h hnone he hsource hw' =>
    exact .noBuilder (hruns ▸ h) hnone he (hsource.trans hstanding) hw'
  | buildFailed h hnone hs hfiles hw' => exact .buildFailed (hruns ▸ h) hnone hs hfiles hw'
  | early h hbuilt hlength hw' => exact .early (hruns ▸ h) hbuilt hlength hw'
  | compilerFailed he h hbuilt hw' hbinary =>
    exact .compilerFailed he (hruns ▸ h) hbuilt hw' hbinary

theorem recompile_exit (htools : ∀ j, p.Behaves m j (p.Confined m j))
    (hw : p.Within m [.mergedSource] w.files) :
    TreeExit p m w (p.recompile.perform m w).1 (p.recompile.perform m w).2 := by
  unfold recompile
  rw [perform_bind]
  have hchain := compileChain_exit htools hw
  generalize p.tools.compileChain.perform m w = out at hchain ⊢
  obtain ⟨result, w₁⟩ := out
  cases hchain with
  -- The merged source stays: its removal comes after the compiler is had.
  | missing hnone he => exact .noBuilder rfl hnone he rfl hw
  | failed hnone hruns hs hfiles hw₁ => exact .buildFailed hruns hnone hs hfiles hw₁
  | @ready w₁ bs hruns hbuilt hw₁ =>
    dsimp only
    have hcompile := compile_exit htools hw₁
    generalize (cleaned (p.chain.compile (p.temporary .mergedSource))
      (remove (p.temporary .mergedSource))).perform m w₁ = out at hcompile ⊢
    obtain ⟨result, w₂⟩ := out
    have hall : ∀ cs, w₂.runs = w₁.runs ++ cs → w₂.runs = w.runs ++ (bs ++ cs) := by
      intro cs hcs
      rw [hcs, hruns, List.append_assoc]
    cases hcompile with
    | upToDate hbinary hruns₂ hw₂ => exact .upToDate hbinary (hruns₂.trans hruns) hbuilt hw₂
    | early hruns₂ hlength hw₂ => exact .early (hall _ hruns₂) hbuilt hlength hw₂
    | compiled hbinary hruns₂ hw₂ hstanding => exact .made hbinary (hall _ hruns₂) hbuilt hw₂
    | compilerFailed he hruns₂ hw₂ hstanding =>
      exact .compilerFailed he (hall _ hruns₂) hbuilt hw₂ hstanding

theorem compileMerged_exit (htools : ∀ j, p.Behaves m j (p.Confined m j))
    (hw : p.Within m [.mergedSource] w.files) :
    TreeExit p m w (p.compileMerged.perform m w).1 (p.compileMerged.perform m w).2 := by
  rw [compileMerged_eq, perform_bind, perform_ask]
  rcases exists_mergedBinary hw with hfound | hnil
  · rw [hfound]
    exact recompile_exit htools hw
  cases w.files.exists? m.cwd (p.temporary .mergedBinary) with
  | error e => exact .stopped rfl (not_builderMissing nofun nofun) hnil
  | ok found =>
    cases found with
    | false => exact recompile_exit htools hw
    | true =>
      dsimp only
      rw [if_pos rfl, perform_bind]
      obtain ⟨w₁, hremoved, hremove⟩ := remove_exit hnil .mergedBinary
      have hnil₁ : p.Within m [] w₁.files := hremoved.within
      rcases hremove with hremove | hremove
      · rw [hremove]
        dsimp only
        refine (recompile_exit htools (hnil₁.mono (List.nil_subset _))).before hremoved.runs ?_
        exact hremoved.others .mergedSource (by decide)
      · rw [hremove]
        exact .stopped hremoved.runs (not_builderMissing nofun nofun) hnil₁

/-! ## 6. The last launch -/

/-- The ways out of the last launch. -/
inductive RelaunchExit (p : Pipeline) (m : Machine) (A : List Temporary) (w : World) :
    Except Failure ExitStatus → World → Prop where
  | notStarted {w' : World} : w'.runs = w.runs → p.Within m A w'.files →
      RelaunchExit p m A w (.error (.notStarted p.environment.program.text)) w'
  | failed {w' r} : w'.runs = w.runs ++ [r] → r.effect.status ≠ .success →
      p.Within m A w'.files → RelaunchExit p m A w (.ok r.effect.status) w'
  | removed {result w' r} : w'.runs = w.runs ++ [r] →
      p.Within m (A.filter (· ≠ .mergedBinary)) w'.files → RelaunchExit p m A w result w'

theorem relaunch_exit (htools : ∀ j, p.Behaves m j (p.Confined m j))
    (hw : p.Within m A w.files) (hstarts : p.emulator p.dumpOptions ≠ none) :
    RelaunchExit p m A w ((p.relaunch (p.temporary .mergedBinary)).perform m w).1
      ((p.relaunch (p.temporary .mergedBinary)).perform m w).2 := by
  unfold relaunch
  rw [perform_bind]
  rcases launch_cases (j := .relaunch) (fun _ => rfl) w with
    ⟨e, w₁, he, hfiles, hruns, h⟩ | ⟨r, w₁, hran, hfiles, hruns, h⟩
  · rw [h]
    rcases he with hnone | rfl
    · exact absurd (emulator_eq_none _ _ hnone) hstarts
    · exact .notStarted hruns (by rwa [hfiles])
  rw [h]
  dsimp only
  have hw₁ : p.Within m A w₁.files := by
    rw [hfiles]
    exact hw.ran hran htools
  by_cases hs : r.effect.status = .success
  · rw [if_pos hs, perform_bind]
    obtain ⟨w₂, hremoved, hremove | hremove⟩ := remove_exit hw₁ .mergedBinary
    · rw [hremove]
      exact .removed (hremoved.runs.trans hruns) hremoved.within
    · rw [hremove]
      exact .removed (hremoved.runs.trans hruns) hremoved.within
  · rw [if_neg hs]
    exact .failed ((World.runs_warned _ _).trans hruns) hs hw₁

end Pipeline

end VirtBoard.Launch
