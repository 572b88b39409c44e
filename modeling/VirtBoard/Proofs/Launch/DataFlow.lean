import VirtBoard.Proofs.Launch.Order
import VirtBoard.Proofs.Launch.Workplace

/-!
# What the emulator boots with

Through a launch with overlays by tools that work, one text is made from the next: the dump, its
source, the merged source, the expanded source and the tree.  Whatever stood under the names of the
temporary files before is replaced or removed on the way, so that none of it comes into the tree.
-/

namespace VirtBoard.Launch

open VirtBoard.Action DeviceTree FileSystem

/-! ## 1. Tools that work -/

/-- A job writes where its command tells it to and nothing else: a text that depends on its command
and its input. -/
def Writes (m : Machine) (product : Command → Option String → String) (j : Job) (c : Command)
    (fs fs' : Files) : Prop :=
  match j.target c with
  | none => fs' = fs
  | some path =>
    ∃ now, fs.write m.cwd path (product c (inputText m.cwd j c fs)).toUTF8 now = .ok fs'

namespace Pipeline

variable {p : Pipeline} {m : Machine} {dir : Place} {fs₀ fs fs' : Files} {σ : Temporary → Slot}
variable {product : Command → Option String → String} {w : World}

/-- Every tool of a launch is there and can be started, whatever the temporary files hold, and then
it writes its output and ends well. -/
def Cooperative (p : Pipeline) (m : Machine) (dir : Place) (fs₀ : Files)
    (product : Command → Option String → String) : Prop :=
  ∀ j ∈ p.jobs, ∀ fs, Alike dir fs₀ fs → ∃ c, p.command? m fs j = some c ∧
    ∀ before now, ∃ r, m.run? before fs now .shown c = some r ∧ r.effect.status = .success ∧
      Writes m product j c fs r.effect.files

/-- What is known after a job. -/
def learnt (product : Command → Option String → String) (σ : Temporary → Slot) (j : Job)
    (c : Command) (input : Option String) : Temporary → Slot :=
  match j.output with
  | none => σ
  | some t => Function.update σ t (.holds (product c input))

theorem exists_run (hplace : Workplace p m dir fs₀)
    (htools : p.Cooperative m dir fs₀ product) {j : Job} (hj : j ∈ p.jobs)
    (h : Known dir fs₀ σ w.files) :
    ∃ c r, p.command? m w.files j = some c ∧ shownRun? m w c = some r ∧ p.Ran m w j r ∧
      r.effect.status = .success ∧
      Known dir fs₀ (learnt product σ j r.start.command (inputText m.cwd j r.start.command w.files))
        r.effect.files := by
  obtain ⟨c, hc, hstart⟩ := htools j hj w.files h.alike
  obtain ⟨r, hr, hs, hwrites⟩ := hstart w.runs w.now
  have hran := ran_of_shownRun? hc hr
  have hcommand : r.start.command = c := (started_of_shownRun? hr).command
  refine ⟨c, r, hc, hr, hran, hs, ?_⟩
  rw [hcommand]
  unfold Writes at hwrites
  rw [target_command hc] at hwrites
  unfold learnt
  cases hout : j.output with
  | none =>
    rw [hout] at hwrites
    rwa [show r.effect.files = w.files from hwrites]
  | some t =>
    rw [hout] at hwrites
    obtain ⟨now, hwrite⟩ := hwrites
    exact h.write hplace hwrite

theorem tool_succeeds (hplace : Workplace p m dir fs₀)
    (htools : p.Cooperative m dir fs₀ product) {j : Job} (hj : j ∈ p.jobs)
    (h : Known dir fs₀ σ w.files) (name : String) (missing : Failure) :
    ∃ r, p.Ran m w j r ∧ (p.tool name missing j).perform m w = (.ok (), w.after r) ∧
      Known dir fs₀ (learnt product σ j r.start.command (inputText m.cwd j r.start.command w.files))
        (w.after r).files := by
  obtain ⟨c, r, hc, hr, hran, hs, hknown⟩ := exists_run hplace htools hj h
  refine ⟨r, hran, ?_, hknown⟩
  rw [perform_tool, hc]
  dsimp only
  rw [hr]
  dsimp only
  rw [if_pos hs]

theorem launch_succeeds (hplace : Workplace p m dir fs₀)
    (htools : p.Cooperative m dir fs₀ product) {j : Job} (hj : j ∈ p.jobs)
    (h : Known dir fs₀ σ w.files) {o : Board.Options}
    (ho : ∀ fs, p.command? m fs j = p.emulator o) :
    ∃ r w₁, p.Ran m w j r ∧ (p.launch o).perform m w = (.ok .success, w₁) ∧
      w₁.runs = w.runs ++ [r] ∧
      Known dir fs₀ (learnt product σ j r.start.command (inputText m.cwd j r.start.command w.files)) w₁.files := by
  obtain ⟨c, r, hc, hr, hran, hs, hknown⟩ := exists_run hplace htools hj h
  rcases perform_launch p o m w with ⟨e, hnone, -⟩ | ⟨c', w₁, hc', hfiles, hruns, hlaunch⟩
  · rw [ho, hnone] at hc
    cases hc
  · rw [ho, hc'] at hc
    obtain rfl := Option.some.inj hc
    rw [hr] at hlaunch
    dsimp only at hlaunch
    rw [hs] at hlaunch
    exact ⟨r, w₁.after r, hran, hlaunch, by rw [World.runs_after, hruns], hknown⟩

/-! ## 2. The stages by tools that work -/

theorem inputText_eq (hplace : Workplace p m dir fs₀) (h : Known dir fs₀ σ fs) {j : Job} {r : Run}
    (hdoes : p.Does m j r) {t : Temporary} {text : String} (hj : j.input = some t)
    (hσ : σ t = .holds text) : inputText m.cwd j r.start.command fs = some text := by
  rw [inputText, source_command hdoes, hj, Option.map_some, Option.bind_some,
    h.readText hplace hσ]
  rfl

/-- Known after the first stage: the source of the dump. -/
theorem dump_succeeds (hplace : Workplace p m dir fs₀) (htools : p.Cooperative m dir fs₀ product)
    (h : Known dir fs₀ σ w.files) :
    ∃ r₀ r₁ w₁ source, p.dump.perform m w = (.ok .success, w₁) ∧ w₁.runs = w.runs ++ [r₀, r₁] ∧
      p.Does m .dump r₀ ∧ p.Does m .decompile r₁ ∧
      source = product r₁.start.command (some (product r₀.start.command none)) ∧
      ∃ σ₁, Known dir fs₀ σ₁ w₁.files ∧ σ₁ .dumpSource = .holds source ∧
        σ₁ .dumpBinary = .gone := by
  rw [perform_dump]
  unfold dumpByTools
  obtain ⟨r₀, w₁, hran₀, hout₀, hruns₀, hknown₀⟩ := launch_succeeds hplace htools
    (j := .dump) (by simp [jobs]) h (fun _ => rfl)
  rw [perform_bind, hout₀]
  dsimp only
  rw [if_neg (not_not_intro rfl), perform_bind, perform_cleaned]
  obtain ⟨r₁, hran₁, hout₁, hknown₁⟩ := tool_succeeds hplace htools (j := .decompile)
    (by simp [jobs]) hknown₀ "dtc" (.notInSearchPath ⟨"dtc"⟩)
  obtain ⟨w₂, hdiscard, hruns₂, hknown₂⟩ := hknown₁.discard hplace (t := .dumpBinary) rfl
  rw [inputText_eq hplace hknown₀ hran₁.does rfl rfl] at hknown₂
  -- What the decompiler read is what the emulator wrote, whatever was there before.
  refine ⟨r₀, r₁, w₂, _, ?_, ?_, hran₀.does, hran₁.does, rfl, _, hknown₂, rfl, rfl⟩
  · rw [hout₁, hdiscard]
    rfl
  · rw [hruns₂, World.runs_after, hruns₀, List.append_assoc]
    rfl

-- Known after the merge: the merged source.
theorem mergeOverlays_succeeds (hplace : Workplace p m dir fs₀) (h : Known dir fs₀ σ w.files)
    {source : String} (hσ : σ .dumpSource = .holds source) {texts : List String}
    (htexts : List.Forall₂ (fun q text => fs₀.readText m.cwd q = .ok text) p.options.overlays texts)
    (hapart : ∀ q ∈ p.options.overlays, ∀ (t : Temporary) e,
      fs₀.walk m.cwd q ≠ .ok (.occupied (t.place dir) e)) :
    ∃ w₁, p.mergeOverlays.perform m w = (.ok (), w₁) ∧ w₁.runs = w.runs ∧
      Known dir fs₀ (Function.update (Function.update σ .mergedSource
        (.holds (mergeTexts (source :: texts)))) .dumpSource .gone) w₁.files := by
  have hread : List.Forall₂ (fun q text => w.files.readText m.cwd q = .ok text) p.sources
      (source :: texts) := by
    rw [sources_eq]
    refine .cons (h.readText hplace hσ) ?_
    -- The overlays are none of the temporary files, so they read as they did at the start.
    refine ((List.forall₂_and_left _ _).mpr ⟨hapart, htexts⟩).imp ?_
    rintro q text ⟨hq, htext⟩
    exact h.alike.readText hplace.isDirectory htext hq
  obtain ⟨w₁, hwrite, hruns, hknown⟩ :=
    h.writeText hplace .mergedSource (mergeTexts (source :: texts))
  obtain ⟨w₂, hdiscard, hruns₂, hknown₂⟩ := hknown.discard hplace (t := .dumpSource) hσ
  refine ⟨w₂, ?_, hruns₂.trans hruns, hknown₂⟩
  rw [mergeOverlays_eq, perform_bind, perform_attempt,
    perform_merge (forall₂_holdsText_iff.mpr hread), hwrite]
  dsimp only
  rw [perform_bind, hdiscard]
  rfl

theorem isFresh_of_gone (hplace : Workplace p m dir fs₀) (h : Known dir fs₀ σ fs)
    (hσ : σ .mergedBinary = .gone) :
    isFresh? fs m.cwd (p.temporary .mergedSource) (p.temporary .mergedBinary) = .ok false := by
  have hfits := h.slots .mergedBinary
  rw [hσ] at hfits
  have hwalk := walk_join_of_none Temporary.mergedBinary.fileName (hplace.accepted .mergedBinary)
    (hplace.alike h.alike).work hfits
  rw [isFresh?, stat_eq, temporary, hwalk]

-- Known after the compilation proper: the tree.
theorem compile_succeeds (hplace : Workplace p m dir fs₀)
    (htools : p.Cooperative m dir fs₀ product) (h : Known dir fs₀ σ w.files)
    {merged : String} (hσ : σ .mergedSource = .holds merged) (hgone : σ .mergedBinary = .gone) :
    ∃ r₀ r₁ w₁ expanded tree, (p.chain.compile (p.temporary .mergedSource)).perform m w =
        (.ok ⟨p.temporary .mergedSource, p.temporary .mergedBinary, .built⟩, w₁) ∧
      w₁.runs = w.runs ++ [r₀, r₁] ∧ p.Does m .preprocess r₀ ∧ p.Does m .compile r₁ ∧
      r₀.start.files.readText m.cwd (p.temporary .mergedSource) = .ok merged ∧
      expanded = product r₀.start.command (some merged) ∧
      r₁.start.files.readText m.cwd (p.temporary .expandedSource) = .ok expanded ∧
      tree = product r₁.start.command (some expanded) ∧
      Known dir fs₀ (Function.update (Function.update (Function.update σ .expandedSource
        (.holds expanded)) .mergedBinary (.holds tree)) .expandedSource .gone) w₁.files := by
  -- Without an old tree there is nothing that could be up to date.
  rw [perform_compile, isFresh_of_gone hplace h hgone]
  dsimp only
  obtain ⟨r₀, hran₀, hout₀, hknown₀⟩ := tool_succeeds hplace htools (j := .preprocess)
    (by simp [jobs]) h "cpp" (.noPreprocessor p.chain.preprocessor)
  rw [inputText_eq hplace h hran₀.does rfl hσ] at hknown₀
  obtain ⟨r₁, hran₁, hout₁, hknown₁⟩ := tool_succeeds hplace htools (j := .compile)
    (by simp [jobs]) hknown₀ "dtc" .noStage
  rw [inputText_eq hplace hknown₀ hran₁.does rfl rfl] at hknown₁
  obtain ⟨e, he⟩ := hknown₁.present (t := .expandedSource) rfl
  obtain ⟨w₂, hremove, hruns₂, hknown₂⟩ := hknown₁.remove hplace he
  refine ⟨r₀, r₁, w₂, _, _, ?_, ?_, hran₀.does, hran₁.does, ?_, rfl, ?_, rfl, hknown₂⟩
  · unfold compileByTools
    rw [perform_bind, perform_attempt, hout₀]
    dsimp only
    rw [perform_bind, perform_cleaned, hout₁, hremove]
    rfl
  · rw [hruns₂, World.runs_after, World.runs_after, List.append_assoc]
    rfl
  · rw [hran₀.files]
    exact h.readText hplace hσ
  · rw [hran₁.files]
    exact hknown₀.readText hplace rfl

-- Getting the compiler changes no file.
theorem compileChain_succeeds (hplace : Workplace p m dir fs₀)
    (htools : p.Cooperative m dir fs₀ product) (h : Known dir fs₀ σ w.files) :
    ∃ bs w₁, p.tools.compileChain.perform m w = (.ok p.chain, w₁) ∧ w₁.runs = w.runs ++ bs ∧
      List.Forall₂ (p.Does m) (if p.tools.compiler.isNone then [.build] else []) bs ∧
      Known dir fs₀ σ w₁.files := by
  rw [perform_compileChain]
  cases hcompiler : p.tools.compiler with
  | some dtc => exact ⟨[], w, rfl, (List.append_nil _).symm, .nil, h⟩
  | none =>
    obtain ⟨r, hran, hout, hknown⟩ := tool_succeeds hplace htools (j := .build)
      (by simp [jobs, hcompiler]) h "scons" (.notInSearchPath ⟨"scons"⟩)
    refine ⟨[r], w.after r, ?_, World.runs_after w r, .cons hran.does .nil, hknown⟩
    simp only [Option.isSome_none, Bool.false_eq_true, ↓reduceIte, hout]

-- Whatever stood in the place of the merged tree, it is gone before the compilation.
theorem compileMerged_clears (hplace : Workplace p m dir fs₀) (h : Known dir fs₀ σ w.files) :
    ∃ w₁, p.compileMerged.perform m w = p.recompile.perform m w₁ ∧ w₁.runs = w.runs ∧
      Known dir fs₀ (Function.update σ .mergedBinary .gone) w₁.files := by
  have hhere := hplace.alike h.alike
  rw [compileMerged_eq, perform_bind, perform_ask]
  cases hfind : w.files.find? (Temporary.mergedBinary.place dir) with
  | none =>
    have hwalk := walk_join_of_none Temporary.mergedBinary.fileName
      (hhere.accepted .mergedBinary) hhere.work hfind
    have hexists : w.files.exists? m.cwd (p.temporary .mergedBinary) = .ok false := by
      rw [Files.exists?, stat_eq, temporary, hwalk]
    rw [hexists]
    exact ⟨w, rfl, rfl, h.update (.refl dir w.files) (fun _ _ => rfl) hfind⟩
  | some e =>
    obtain ⟨content, time, x, rfl⟩ := file_of_branch_eq_none (hhere.regular .mergedBinary) hfind
    have hwalk := walk_join_of_file Temporary.mergedBinary.fileName
      (hhere.accepted .mergedBinary) hhere.work hfind
    have hexists : w.files.exists? m.cwd (p.temporary .mergedBinary) = .ok true := by
      rw [Files.exists?, stat_eq, temporary, hwalk]
    obtain ⟨w₁, hremove, hruns, hknown⟩ := h.remove hplace hfind
    refine ⟨w₁, ?_, hruns, hknown⟩
    rw [hexists]
    dsimp only
    rw [if_pos rfl, perform_bind, hremove]

/-- Known after all compiling: the tree, and nothing else is left of it. -/
theorem compileMerged_succeeds (hplace : Workplace p m dir fs₀)
    (htools : p.Cooperative m dir fs₀ product) (h : Known dir fs₀ σ w.files)
    {merged : String} (hσ : σ .mergedSource = .holds merged) (hdump : σ .dumpBinary = .gone)
    (hsource : σ .dumpSource = .gone) :
    ∃ bs r₀ r₁ w₁ expanded tree, p.compileMerged.perform m w =
        (.ok ⟨p.temporary .mergedSource, p.temporary .mergedBinary, .built⟩, w₁) ∧
      w₁.runs = w.runs ++ (bs ++ [r₀, r₁]) ∧
      List.Forall₂ (p.Does m) (if p.tools.compiler.isNone then [.build] else []) bs ∧
      p.Does m .preprocess r₀ ∧ p.Does m .compile r₁ ∧
      r₀.start.files.readText m.cwd (p.temporary .mergedSource) = .ok merged ∧
      expanded = product r₀.start.command (some merged) ∧
      r₁.start.files.readText m.cwd (p.temporary .expandedSource) = .ok expanded ∧
      tree = product r₁.start.command (some expanded) ∧
      ∃ σ₁, Known dir fs₀ σ₁ w₁.files ∧ σ₁ .mergedBinary = .holds tree ∧
        ∀ t, t ≠ .mergedBinary → σ₁ t = .gone := by
  obtain ⟨w₁, hcompile, hruns₁, hknown₁⟩ := compileMerged_clears hplace h
  obtain ⟨bs, w₂, hchain, hruns₂, hbs, hknown₂⟩ := compileChain_succeeds hplace htools hknown₁
  obtain ⟨r₀, r₁, w₃, expanded, tree, hout, hruns₃, hr₀, hr₁, hin₀, hexpanded, hin₁, htree,
    hknown₃⟩ := compile_succeeds hplace htools hknown₂ hσ rfl
  obtain ⟨e, he⟩ := hknown₃.present (t := .mergedSource) hσ
  obtain ⟨w₄, hremove, hruns₄, hknown₄⟩ := hknown₃.remove hplace he
  refine ⟨bs, r₀, r₁, w₄, expanded, tree, ?_, ?_, hbs, hr₀, hr₁, hin₀, hexpanded, hin₁, htree, _,
    hknown₄, rfl, ?_⟩
  · rw [hcompile, recompile, perform_bind, hchain]
    dsimp only
    rw [perform_cleaned, hout, hremove]
  · rw [hruns₄, hruns₃, hruns₂, hruns₁, List.append_assoc]
  · intro t ht
    cases t with
    | dumpBinary => exact hdump
    | dumpSource => exact hsource
    | mergedSource => rfl
    | expandedSource => rfl
    | mergedBinary => exact absurd rfl ht

-- Known after the last launch: nothing is left.
theorem relaunch_succeeds (hplace : Workplace p m dir fs₀)
    (htools : p.Cooperative m dir fs₀ product) (h : Known dir fs₀ σ w.files) {tree : String}
    (hσ : σ .mergedBinary = .holds tree) (hrest : ∀ t, t ≠ .mergedBinary → σ t = .gone) :
    ∃ r w₁, (p.relaunch (p.temporary .mergedBinary)).perform m w = (.ok .success, w₁) ∧
      w₁.runs = w.runs ++ [r] ∧ p.Does m .relaunch r ∧
      r.start.files.readText m.cwd (p.temporary .mergedBinary) = .ok tree ∧
      Known dir fs₀ (fun _ => .gone) w₁.files := by
  obtain ⟨r, w₁, hran, hout, hruns, hknown⟩ := launch_succeeds hplace htools (j := .relaunch)
    (by simp [jobs]) h (fun _ => rfl)
  obtain ⟨e, he⟩ := hknown.present (t := .mergedBinary) hσ
  obtain ⟨w₂, hremove, hruns₂, hknown₂⟩ := hknown.remove hplace he
  have hall : (fun _ => .gone) = Function.update σ .mergedBinary .gone := by
    funext t
    by_cases ht : t = .mergedBinary
    · rw [ht, Function.update_self]
    · rw [Function.update_of_ne ht, hrest t ht]
  refine ⟨r, w₂, ?_, hruns₂.trans hruns, hran.does, ?_, ?_⟩
  · rw [relaunch, perform_bind, hout]
    dsimp only
    rw [if_pos rfl, perform_bind, hremove]
    rfl
  · rw [hran.files]
    exact h.readText hplace hσ
  · rw [hall]
    exact hknown₂

/-! ## 3. The whole -/

-- The directory suits a launch as soon as its tools can write their outputs there.
theorem workplace_of_cooperative (hwork : fs₀.walkInto m.cwd p.work = .ok dir)
    (hregular : ∀ t : Temporary, fs₀.branch (t.place dir) = none)
    (htools : p.Cooperative m dir fs₀ product) : Workplace p m dir fs₀ where
  work := hwork
  regular := hregular
  accepted t := by
    -- The longest of the names is accepted because the preprocessor writes under it.
    obtain ⟨c, hc, hstart⟩ := htools .preprocess (by simp [jobs]) fs₀ (.refl dir fs₀)
    obtain ⟨r, -, -, hwrites⟩ := hstart [] default
    rw [Writes, target_command hc] at hwrites
    obtain ⟨now, hwrite⟩ := hwrites
    have hlongest : Files.checkPath (p.temporary .expandedSource) = .ok () :=
      checkPath_of_write hwrite
    by_cases ht : t = .expandedSource
    · rw [ht]
      exact hlongest
    · exact checkPath_temporary ht hlongest

/-- Where the tools work, the tree that the emulator boots with is made of this launch's dump and
overlays, whatever stood under the names of the temporary files, and none of them is left. -/
theorem tree_is_made_of_dump_and_overlays (hoverlays : p.options.overlays ≠ [])
    (hwork : w.files.walkInto m.cwd p.work = .ok dir)
    (hregular : ∀ t : Temporary, w.files.branch (t.place dir) = none) {texts : List String}
    (htexts : List.Forall₂ (fun q text => w.files.readText m.cwd q = .ok text)
      p.options.overlays texts)
    (hapart : ∀ q ∈ p.options.overlays, ∀ (t : Temporary) e,
      w.files.walk m.cwd q ≠ .ok (.occupied (t.place dir) e))
    (htools : p.Cooperative m dir w.files product) :
    ∃ dump decompile builds preprocess compile relaunch merged expanded tree,
      (p.run.perform m w).1 = .ok .success ∧
      (p.run.perform m w).2.runs =
        w.runs ++ ([dump, decompile] ++ builds ++ [preprocess, compile, relaunch]) ∧
      List.Forall₂ (p.Does m) p.jobs
        ([dump, decompile] ++ builds ++ [preprocess, compile, relaunch]) ∧
      merged = endLine (product decompile.start.command (some (product dump.start.command none))) ++
        String.join ((texts.filter (· ≠ "")).map endLine) ∧
      preprocess.start.files.readText m.cwd (p.temporary .mergedSource) = .ok merged ∧
      expanded = product preprocess.start.command (some merged) ∧
      compile.start.files.readText m.cwd (p.temporary .expandedSource) = .ok expanded ∧
      tree = product compile.start.command (some expanded) ∧
      relaunch.start.files.readText m.cwd (p.temporary .mergedBinary) = .ok tree ∧
      (∀ t : Temporary, (p.run.perform m w).2.files.find? (t.place dir) = none) ∧
      Alike dir w.files (p.run.perform m w).2.files := by
  have hplace := workplace_of_cooperative hwork hregular htools
  -- Nothing is known of the temporary files at the start, so that it does not matter what they hold.
  have hstart : Known dir w.files (fun _ => .unknown) w.files :=
    ⟨.refl dir w.files, fun _ => trivial⟩
  obtain ⟨dump, decompile, w₁, source, hout₁, hruns₁, hdump, hdecompile, hsource, σ₁, hknown₁,
    hσsource, hσdump⟩ := dump_succeeds hplace htools hstart
  obtain ⟨w₂, hout₂, hruns₂, hknown₂⟩ :=
    mergeOverlays_succeeds hplace hknown₁ hσsource htexts hapart
  obtain ⟨builds, preprocess, compile, w₃, expanded, tree, hout₃, hruns₃, hbuilds, hpreprocess,
    hcompile, hin, hexpanded, hin', htree, σ₃, hknown₃, hσtree, hσrest⟩ :=
    compileMerged_succeeds hplace htools hknown₂ rfl hσdump rfl
  obtain ⟨relaunch, w₄, hout₄, hruns₄, hrelaunch, hin'', hknown₄⟩ :=
    relaunch_succeeds hplace htools hknown₃ hσtree hσrest
  have hrun : p.run.perform m w = (.ok .success, w₄) := by
    rw [run_eq hoverlays, perform_bind, hout₁]
    dsimp only
    rw [mergeAndRelaunch_eq, perform_bind, hout₂]
    dsimp only
    rw [perform_bind, hout₃]
    exact hout₄
  rw [mergeTexts_cons, hsource] at hin hexpanded
  refine ⟨dump, decompile, builds, preprocess, compile, relaunch, _, expanded, tree,
    by rw [hrun], ?_, ?_, rfl, hin, hexpanded, hin', htree, hin'', ?_, ?_⟩
  · rw [hrun, hruns₄, hruns₃, hruns₂, hruns₁]
    simp only [List.append_assoc, List.cons_append, List.nil_append]
  · rw [jobs]
    exact List.rel_append (List.rel_append (.cons hdump (.cons hdecompile .nil)) hbuilds)
      (.cons hpreprocess (.cons hcompile (.cons hrelaunch .nil)))
  · rw [hrun]
    exact hknown₄.slots
  · rw [hrun]
    exact hknown₄.alike

/-- The sample with files that an earlier launch left, in the way of this one. -/
def stale : World :=
  sampleWorld ([["qemu.run.dtb", "work"], ["qemu.tmp.dts", "work"]] ++ samplePrograms)

theorem stale_workplace : Workplace sample sampleMachine ["work"] stale.files where
  work := rfl
  regular t := by cases t <;> rfl
  accepted t := by cases t <;> decide +kernel

-- A program of the sample that is found does what its command says.
theorem sample_obeys (hplace : Workplace sample sampleMachine ["work"] fs) {j : Job} {c : Command}
    (hc : sample.command? sampleMachine fs j = some c) (hargs : c.args.all isPassable = true)
    (hslash : '/' ∈ c.program.chars) {place : Place}
    (hprogram : fs.program? [] c.program = some place) (before : List Run) (now : Time) :
    ∃ r, sampleMachine.run? before fs now .shown c = some r ∧ r.effect.status = .success ∧
      Writes sampleMachine sampleText j c fs r.effect.files := by
  have hlocate : sampleMachine.locate fs c.program = some place := by
    unfold Machine.locate
    rw [if_pos hslash]
    exact hprogram
  obtain ⟨effect, heffect, hs, hwrites⟩ : ∃ effect,
      sampleMachine.programs before ⟨c, place, fs, now⟩ = some effect ∧
        effect.status = .success ∧ Writes sampleMachine sampleText j c fs effect.files := by
    unfold sampleMachine Writes
    dsimp only
    rw [sampleTarget_command hc, target_command hc]
    cases hout : j.output with
    | none => exact ⟨_, rfl, rfl, rfl⟩
    | some t =>
      obtain ⟨files, -, hwrite, -⟩ := write_join t.fileName (hplace.accepted t) hplace.work
        (hplace.regular t) (sampleText c (inputText [] j c fs)).toUTF8 now
      have hwrite' : fs.write [] (sample.temporary t) (sampleText c (inputText [] j c fs)).toUTF8
          now = .ok files := hwrite
      refine ⟨⟨files, now, .success, .empty⟩, ?_, rfl, now, hwrite⟩
      rw [sampleInput_command hc (by simp [hout]), Option.map_some]
      dsimp only
      rw [hwrite']
  refine ⟨⟨⟨c, place, fs, now⟩, .shown, effect⟩, ?_, hs, hwrites⟩
  rw [run?_eq, if_pos hargs, hlocate, Option.bind_some, heffect]
  rfl

theorem stale_programs (h : Alike ["work"] stale.files fs) {place : Place}
    (hplace : place ∈ samplePrograms) : fs.program? [] place.path = some place := by
  refine h.program? stale_workplace.isDirectory ?_ ?_
  · revert place
    decide +kernel
  · intro t
    revert place
    cases t <;> decide +kernel

theorem stale_which (h : Alike ["work"] stale.files fs) {name : String}
    (hname : Machine.isCompound ⟨name⟩ = false) (hpath : [name, "bin"] ∈ samplePrograms)
    (hjoin : Path.join ⟨"/bin"⟩ ⟨name⟩ = Place.path [name, "bin"]) :
    sampleMachine.which fs ⟨name⟩ = some (Place.path [name, "bin"]) := by
  have hprogram : (fs.program? sampleMachine.cwd (Place.path [name, "bin"])).isSome := by
    rw [show sampleMachine.cwd = [] from rfl, stale_programs h hpath]
    rfl
  unfold Machine.which
  rw [hname, show sampleMachine.searchPath = [⟨"/bin"⟩] from rfl]
  simp [hjoin, hprogram]

theorem sample_emulator {o : Board.Options} (hplace : Workplace sample sampleMachine ["work"] fs)
    (hfs : Alike ["work"] stale.files fs) {j : Job}
    (hj : ∀ fs, sample.command? sampleMachine fs j = sample.emulator o)
    (hargs : (sample.emulator o).any (fun c => c.args.all isPassable) = true) :
    ∃ c, sample.command? sampleMachine fs j = some c ∧ ∀ before now, ∃ r,
      sampleMachine.run? before fs now .shown c = some r ∧ r.effect.status = .success ∧
        Writes sampleMachine sampleText j c fs r.effect.files := by
  rw [Option.any_eq_true] at hargs
  obtain ⟨c, hc, hpassable⟩ := hargs
  have hprogram : c.program = Place.path ["qemu", "bin"] :=
    (program_emulator hc).trans (by decide)
  have hslash : '/' ∈ c.program.chars := by
    rw [hprogram]
    decide
  have hfound : fs.program? [] c.program = some ["qemu", "bin"] := by
    rw [hprogram]
    exact stale_programs hfs (by decide)
  have hcommand := (hj fs).trans hc
  exact ⟨c, hcommand, sample_obeys hplace hcommand hpassable hslash hfound⟩

theorem stale_cooperative :
    sample.Cooperative sampleMachine ["work"] stale.files sampleText := by
  intro j hj fs halike
  have hplace := stale_workplace.alike halike
  have hprograms : ∀ {place}, place ∈ samplePrograms → fs.program? [] place.path = some place :=
    stale_programs halike
  cases j with
  | dump =>
    exact sample_emulator hplace halike (fun _ => rfl) (by decide +kernel)
  | relaunch =>
    exact sample_emulator hplace halike (fun _ => rfl) (by decide +kernel)
  | decompile =>
    have hc : sample.command? sampleMachine fs .decompile = some ⟨Place.path ["dtc", "bin"],
        Toolchain.decompileArgs (sample.temporary .dumpBinary) (sample.temporary .dumpSource)⟩ := by
      show ((none : Option Path).or (sampleMachine.which fs ⟨"dtc"⟩)).map _ = _
      rw [stale_which halike (by decide) (by decide) (by decide)]
      rfl
    exact ⟨_, hc, sample_obeys hplace hc (by decide +kernel) (by decide) (hprograms (by decide))⟩
  | build =>
    have hc : sample.command? sampleMachine fs .build = some ⟨Place.path ["scons", "bin"],
        ["-C", (sample.tools.root.join compilerDir).text]⟩ := by
      show (sampleMachine.which fs ⟨"scons"⟩).map _ = _
      rw [stale_which halike (by decide) (by decide) (by decide)]
      rfl
    exact ⟨_, hc, sample_obeys hplace hc (by decide +kernel) (by decide) (hprograms (by decide))⟩
  | preprocess =>
    have hc : sample.command? sampleMachine fs .preprocess = some ⟨Place.path ["cpp", "bin"],
        sample.chain.preprocessArgs (sample.temporary .mergedSource)
          (sample.temporary .expandedSource)⟩ := by
      show (sampleMachine.which fs ⟨"cpp"⟩).map _ = _
      rw [stale_which halike (by decide) (by decide) (by decide)]
      rfl
    exact ⟨_, hc, sample_obeys hplace hc (by decide +kernel) (by decide) (hprograms (by decide))⟩
  | compile =>
    have hc : sample.command? sampleMachine fs .compile =
        some ⟨Place.path ["dtc", "dtc", "tools", "src"], Toolchain.compileArgs
          (sample.temporary .expandedSource) (sample.temporary .mergedBinary)⟩ := by
      have hcompiler : sample.chain.compiler = Place.path ["dtc", "dtc", "tools", "src"] := by
        decide +kernel
      rw [← hcompiler]
      rfl
    exact ⟨_, hc, sample_obeys hplace hc (by decide +kernel) (by decide) (hprograms (by decide))⟩

theorem stale_apart {q : Path} (hq : q ∈ sample.options.overlays) (t : Temporary) (e : Entry) :
    stale.files.walk [] q ≠ .ok (.occupied (t.place ["work"]) e) := by
  obtain rfl := List.mem_singleton.mp hq
  have hwalk : stale.files.walk [] ⟨"leds.dts"⟩ = .ok (.occupied ["leds.dts"]
      (.file "/ { leds { }; };".toUTF8 default false)) := rfl
  rw [hwalk]
  intro h
  have hplace := (Destination.occupied.inj (Except.ok.inj h)).1
  exact absurd (List.cons.inj hplace).2 (List.cons_ne_nil _ _).symm

/-- The sample boots with its own tree in spite of the one that was there. -/
theorem sample_boots_with_its_tree :
    (sample.run.perform sampleMachine stale).1 = .ok .success ∧
      ∃ relaunch ∈ (sample.run.perform sampleMachine stale).2.runs,
        relaunch.start.files.readText [] (sample.temporary .mergedBinary) =
          .ok "/ { };\n/ { leds { }; };\n" := by
  have htexts : List.Forall₂ (fun q text => stale.files.readText [] q = .ok text)
      sample.options.overlays ["/ { leds { }; };"] := .cons (by decide +kernel) .nil
  obtain ⟨dump, decompile, builds, preprocess, compile, relaunch, merged, expanded, tree, hout,
    hruns, -, hmerged, -, hexpanded, -, htree, hboot, -⟩ :=
    tree_is_made_of_dump_and_overlays (w := stale) (by decide) stale_workplace.work
      stale_workplace.regular htexts (fun q hq => stale_apart hq) stale_cooperative
  have htext : endLine "/ { };" ++ String.join ((["/ { leds { }; };"].filter (· ≠ "")).map endLine) =
      "/ { };\n/ { leds { }; };\n" := by
    decide +kernel
  refine ⟨hout, relaunch, ?_, ?_⟩
  · rw [hruns]
    simp
  · rw [htree, hexpanded, hmerged] at hboot
    exact hboot.trans (congrArg Except.ok htext)

end Pipeline

end VirtBoard.Launch
