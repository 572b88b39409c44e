import VirtBoard.Proofs.DeviceTree.Freshness
import VirtBoard.Proofs.FileSystem.Touching

/-!
# Compiling again

After sources were compiled, compiling them again finds all of them up to date and does nothing.
This needs programs that write nothing but their outputs, a clock that does not go back, and
sources that are not among the outputs.
-/

namespace VirtBoard.DeviceTree

open VirtBoard.Action FileSystem
open VirtBoard.Path (IsName)

/-! ## 1. The names of a regular file and of what is made of it -/

section Names

variable {fs : Files} {cwd : Place} {p : Path} {content : ByteArray} {time : Time} {x : Bool}

theorem walk_of_stat {e : Entry} (h : fs.stat cwd p = .ok e) :
    ∃ k, fs.walk cwd p = .ok (.occupied k e) := by
  rw [stat_eq] at h
  split at h
  next k e' hwalk => exact ⟨k, Except.ok.inj h ▸ hwalk⟩
  next => cases h
  next => cases h

/-- A regular file is not found under a path that asks for a directory. -/
theorem isName_of_file (hgrounded : fs.Grounded) (hcwd : fs.branch cwd = some .into)
    (h : fs.stat cwd p = .ok (.file content time x)) : IsName p.lastName := by
  obtain ⟨k, hwalk⟩ := walk_of_stat h
  have hdots (hname : p.lastName = "." ∨ p.lastName = "..") : False := by
    rw [← p.folder_join_lastName] at hwalk
    obtain ⟨dir, t, hd⟩ := walk_join_dots hgrounded hcwd hname hwalk
    cases hd
  refine ⟨p.lastName_no_slash, fun hempty => ?_, fun hdot => hdots (Or.inl hdot),
    fun hdot => hdots (Or.inr hdot)⟩
  -- Without a last name there is no text, or a slash at its end.
  rcases Path.chars_of_lastName hempty with htext | ⟨s, hs⟩
  · exact (checkPath_eq_ok.mp (checkPath_of_walk hwalk)).2.1 htext
  · have hsteps : p.steps = p.segments ++ ["."] := by
      rw [Path.steps, Path.endsInSlash, hs]
      simp
    rw [walk_eq (checkPath_of_walk hwalk), hsteps] at hwalk
    rcases @wayEnds fs hgrounded linkBudget _ p.segments (hgrounded.origin hcwd p) with
      ⟨dir, left, hleads, hdir⟩ | ⟨e, he⟩
    · obtain ⟨t, ht⟩ := branch_eq_into.mp hdir
      rw [hleads.walkFrom_append, walkFrom_dot, walkFrom_nil, ht] at hwalk
      cases hwalk
    · rw [he ["."] (by simp)] at hwalk
      cases hwalk

end Names

/-! ## 2. Sources, outputs and programs -/

def SameFile (fs : Files) (cwd : Place) (p q : Path) : Prop :=
  ∃ k e, fs.walk cwd p = .ok (.occupied k e) ∧ fs.walk cwd q = .ok (.occupied k e)

open Toolchain (expanded)

/-- Sources that are regular files, none of them from the future, with outputs that are neither
links nor sources. -/
structure Arranged (m : Machine) (w : World) (sources : List Path) : Prop where
  grounded : w.files.Grounded
  cwd : w.files.branch m.cwd = some .into
  regular : ∀ s ∈ sources, ∃ content time x,
    w.files.stat m.cwd s = .ok (.file content time x) ∧ time ≤ w.now
  noLinks : ∀ s ∈ sources, w.files.NoLink m.cwd s.treeBinary ∧ w.files.NoLink m.cwd (expanded s)
  apart : ∀ s ∈ sources, ∀ s' ∈ sources, ¬SameFile w.files m.cwd s s'.treeBinary ∧
    ¬SameFile w.files m.cwd s (expanded s')

/-- Programs that touch nothing but their outputs.  A compiler that succeeds has written its output
since it was started. -/
structure Toolchain.Orderly (t : Toolchain) (m : Machine) (source : Path) : Prop where
  preprocessor : ∀ before start effect cpp, m.which start.files t.preprocessor = some cpp →
    start.command = ⟨cpp, t.preprocessArgs source (expanded source)⟩ →
    m.programs before start = some effect →
    Touched m.cwd (expanded source) start.files start.now effect.files effect.now
  compiler : ∀ before start effect, start.command = t.compilation source →
    m.programs before start = some effect →
    Touched m.cwd source.treeBinary start.files start.now effect.files effect.now
  writes : ∀ before start effect, start.command = t.compilation source →
    m.programs before start = some effect → effect.status = .success →
    ∃ content time x, effect.files.stat m.cwd source.treeBinary = .ok (.file content time x) ∧
      start.now ≤ time

/-! ## 3. What stays while sources are compiled -/

/-- The sources are what they were at first, and so are the ways to everything. -/
structure Kept (m : Machine) (w₀ : World) (sources : List Path) (fs : Files) (now : Time) :
    Prop where
  grounded : fs.Grounded
  sameTree : SameTree w₀.files fs
  later : w₀.now ≤ now
  sources : ∀ s ∈ sources, ∀ k e, w₀.files.walk m.cwd s = .ok (.occupied k e) →
    fs.find? k = some e

/-- The binary of a source is there, and not earlier than the source was at first. -/
def Fresh (m : Machine) (w₀ : World) (fs : Files) (s : Path) : Prop :=
  ∃ k e kb eb, w₀.files.walk m.cwd s = .ok (.occupied k e) ∧
    fs.walk m.cwd s.treeBinary = .ok (.occupied kb eb) ∧ e.modified ≤ eb.modified

section Compiling

variable {t : Toolchain} {m : Machine} {w₀ : World} {sources : List Path} {fs fs' : Files}
  {now now' : Time} {s s' : Path}

theorem Arranged.kept (h : Arranged m w₀ sources) : Kept m w₀ sources w₀.files w₀.now where
  grounded := h.grounded
  sameTree := .refl _
  later := Time.le_refl _
  sources _ _ _ _ hwalk := holds_of_walk hwalk

theorem Arranged.file (h : Arranged m w₀ sources) (hs : s ∈ sources) {k : Place} {e : Entry}
    (hwalk : w₀.files.walk m.cwd s = .ok (.occupied k e)) :
    ∃ content time x, e = .file content time x ∧ time ≤ w₀.now := by
  obtain ⟨content, time, x, hstat, hle⟩ := h.regular s hs
  rw [stat_eq, hwalk] at hstat
  exact ⟨content, time, x, Except.ok.inj hstat, hle⟩

theorem Arranged.binary_cases (h : Arranged m w₀ sources) (hs : s ∈ sources) :
    s.treeBinary = s.folder.join ⟨".."⟩ ∨
      ∃ stem, IsName (stem ++ ".dtb") ∧ s.treeBinary = s.folder.join ⟨stem ++ ".dtb"⟩ := by
  obtain ⟨content, time, x, hstat, -⟩ := h.regular s hs
  have hname := isName_of_file h.grounded h.cwd hstat
  rcases Path.treeBinary_cases (Path.endsInName_of_isName hname) with ⟨hnot, -⟩ | ⟨-, hbinary⟩
  · exact absurd hname hnot
  · exact hbinary

theorem Kept.cwd (h : Arranged m w₀ sources) (hk : Kept m w₀ sources fs now) :
    fs.branch m.cwd = some .into :=
  (hk.sameTree m.cwd).trans h.cwd

/-- A source is up to date if and only if its binary is fresh. -/
theorem Kept.upToDate_iff (hk : Kept m w₀ sources fs now) (h : Arranged m w₀ sources)
    (hs : s ∈ sources) : UpToDate fs m.cwd s ↔ Fresh m w₀ fs s := by
  obtain ⟨content, time, x, hstat, -⟩ := h.regular s hs
  obtain ⟨k, hwalk⟩ := walk_of_stat hstat
  have hwalk' := walk_of_sameTree hk.sameTree hwalk (hk.sources s hs k _ hwalk)
  constructor
  · rintro ⟨e, b, he, hb, hle⟩
    obtain ⟨kb, hkb⟩ := walk_of_stat hb
    rw [stat_eq, hwalk'] at he
    obtain rfl := Except.ok.inj he
    exact ⟨k, _, kb, b, hwalk, hkb, hle⟩
  · rintro ⟨k₁, e, kb, b, hk₁, hkb, hle⟩
    rw [hwalk] at hk₁
    obtain ⟨rfl, rfl⟩ := Destination.occupied.inj (Except.ok.inj hk₁)
    exact ⟨_, b, by rw [stat_eq, hwalk'], by rw [stat_eq, hkb], hle⟩

/-- Whatever is done with a name that is not a source's, the sources are kept. -/
theorem Kept.touched (hk : Kept m w₀ sources fs now) (h : Arranged m w₀ sources) {work : Path}
    {name : String} (hname : IsName name) (hlink : w₀.files.NoLink m.cwd (work.join ⟨name⟩))
    (hapart : ∀ s ∈ sources, ¬SameFile w₀.files m.cwd s (work.join ⟨name⟩))
    (ht : Touched m.cwd (work.join ⟨name⟩) fs now fs' now') :
    Kept m w₀ sources fs' now' ∧ Spares (w₀.files.Seat m.cwd work name) now fs fs' := by
  obtain ⟨hgrounded, hspares⟩ := ht.spares hk.grounded (hk.cwd h) hname
    (noLink_sameTree hname hk.sameTree hlink)
  rw [seat_sameTree hk.sameTree] at hspares
  refine ⟨⟨hgrounded, hk.sameTree.trans hspares.sameTree, Time.le_trans hk.later ht.later, ?_⟩,
    hspares⟩
  intro s hs k e hwalk
  obtain ⟨content, time, x, rfl, -⟩ := h.file hs hwalk
  refine hspares.file (hk.sources s hs k _ hwalk) ?_
  -- A source in the seat of the name would be the same file.
  rintro ⟨hacceptable, dir, hdir, rfl⟩
  obtain ⟨hcheck, hfile⟩ := (acceptable_join hname).mp hacceptable
  exact hapart s hs ⟨_, _, hwalk, walk_join_of_file hfile hcheck hdir (holds_of_walk hwalk)⟩

/-- A fresh binary stays fresh if it is spared or replaced. -/
theorem Fresh.spared (hfresh : Fresh m w₀ fs s) (h : Arranged m w₀ sources)
    (hk : Kept m w₀ sources fs now) (hs : s ∈ sources) {seat : Place → Prop}
    (hspares : Spares seat now fs fs')
    (hseat : ∀ k e, fs.walk m.cwd s.treeBinary = .ok (.occupied k e) → fs.branch k = none →
      seat k → ∃ e', fs'.find? k = some e' ∧ now ≤ e'.modified) : Fresh m w₀ fs' s := by
  obtain ⟨k, e, kb, eb, hwalk, hbinary, hle⟩ := hfresh
  obtain ⟨content, time, x, rfl, htime⟩ := h.file hs hwalk
  have hsince : time ≤ now := Time.le_trans htime hk.later
  have hnew : ∃ eb', fs'.find? kb = some eb' ∧ time ≤ eb'.modified := by
    by_cases hreplaced : fs.branch kb = none ∧ seat kb
    · obtain ⟨eb', hfind, hnow⟩ := hseat kb eb hbinary hreplaced.1 hreplaced.2
      exact ⟨eb', hfind, Time.le_trans hsince hnow⟩
    · obtain ⟨eb', hfind, rfl | ⟨-, hnow⟩⟩ := hspares.keeps kb eb (holds_of_walk hbinary)
        fun hbranch hk => hreplaced ⟨hbranch, hk⟩
      · exact ⟨eb', hfind, hle⟩
      · exact ⟨eb', hfind, Time.le_trans hsince hnow⟩
  obtain ⟨eb', hfind, htime'⟩ := hnew
  exact ⟨k, _, kb, eb', hwalk, walk_of_sameTree hspares.sameTree hbinary hfind, htime'⟩

-- The name of an expanded source is no binary's.
theorem expanded_name_ne (s : Path) (stem : String) : s.lastName ++ ".tmp" ≠ stem ++ ".dtb" := by
  intro he
  have hlast := congrArg (fun name => name.toList.getLast?) he
  simp [String.toList_append] at hlast

/-- Making and removing an expanded source leaves all binaries as fresh as they were. -/
theorem Kept.expanded (hk : Kept m w₀ sources fs now) (h : Arranged m w₀ sources)
    (hs' : s' ∈ sources) (ht : Touched m.cwd (expanded s') fs now fs' now') :
    Kept m w₀ sources fs' now' ∧ ∀ s ∈ sources, Fresh m w₀ fs s → Fresh m w₀ fs' s := by
  have hlink := (h.noLinks s' hs').2
  have hapart := fun s hs => (h.apart s hs s' hs').2
  simp only [Path.expanded_eq] at ht hlink hapart
  obtain ⟨hk', hspares⟩ := hk.touched h s'.isName_expanded hlink hapart ht
  refine ⟨hk', fun s hs hfresh => hfresh.spared h hk hs hspares fun k e hwalk hbranch hseat => ?_⟩
  -- No binary is where the name of the expanded source is.
  exfalso
  rcases h.binary_cases hs with hdots | ⟨stem, hname, hbinary⟩
  · rw [hdots] at hwalk
    obtain ⟨dir, time, hd⟩ := walk_join_dots hk.grounded (hk.cwd h) (Or.inr rfl) hwalk
    obtain ⟨rfl, rfl⟩ := Destination.occupied.inj hd
    rw [branch_eq_into.mpr ⟨time, holds_of_walk hwalk⟩] at hbranch
    cases hbranch
  · have hlink := (h.noLinks s hs).1
    rw [hbinary] at hwalk hlink
    obtain ⟨-, dir, -, hplace⟩ := place_of_walk hk.grounded (hk.cwd h) hname
      (noLink_sameTree hname hk.sameTree hlink) hwalk
    obtain ⟨-, dir', -, rfl⟩ := hseat
    exact expanded_name_ne s' stem (List.cons.inj hplace).1

/-- A compiler that has written its output leaves it fresh, and all others as fresh as they were. -/
theorem Kept.binary (hk : Kept m w₀ sources fs now) (h : Arranged m w₀ sources)
    (hs' : s' ∈ sources) (ht : Touched m.cwd s'.treeBinary fs now fs' now')
    {content : ByteArray} {time : Time} {x : Bool}
    (hwrites : fs'.stat m.cwd s'.treeBinary = .ok (.file content time x)) (hle : now ≤ time) :
    Kept m w₀ sources fs' now' ∧ (∀ s ∈ sources, Fresh m w₀ fs s → Fresh m w₀ fs' s) ∧
      Fresh m w₀ fs' s' := by
  obtain ⟨k', hwalk'⟩ := walk_of_stat hwrites
  rcases h.binary_cases hs' with hdots | ⟨stem, hname, hbinary⟩
  · -- A directory cannot have been written.
    rw [hdots] at ht hwalk'
    rw [ht.dots hk.grounded (hk.cwd h)] at hwalk'
    obtain ⟨dir, t', hd⟩ := walk_join_dots hk.grounded (hk.cwd h) (Or.inr rfl) hwalk'
    cases hd
  have hlink := (h.noLinks s' hs').1
  have hapart := fun s hs => (h.apart s hs s' hs').1
  simp only [hbinary] at ht hlink hapart
  obtain ⟨hk', hspares⟩ := hk.touched h hname hlink hapart ht
  have hnew : fs'.find? k' = some (.file content time x) := holds_of_walk hwalk'
  refine ⟨hk', fun s hs hfresh => hfresh.spared h hk hs hspares fun k e _ _ hseat => ?_, ?_⟩
  · -- The seat of the name is where the new binary is.
    rw [hbinary] at hwalk'
    obtain ⟨-, dir, hdir, rfl⟩ := place_of_walk hk'.grounded (hk'.cwd h) hname
      (noLink_sameTree hname hk'.sameTree hlink) hwalk'
    obtain ⟨-, dir', hdir', rfl⟩ := hseat
    rw [walkInto_of_sameTree hk'.sameTree hdir'] at hdir
    obtain rfl := Except.ok.inj hdir
    exact ⟨_, hnew, hle⟩
  · obtain ⟨c, t', x', hstat, ht'⟩ := h.regular s' hs'
    obtain ⟨k, hwalk⟩ := walk_of_stat hstat
    exact ⟨k, _, k', _, hwalk, hwalk', Time.le_trans ht' (Time.le_trans hk.later hle)⟩

/-! ## 4. One source, and all of them -/

theorem Toolchain.Orderly.preprocessed (h : t.Orderly m s) {w : World} {r : Run}
    (hr : t.Preprocessed m w s r) :
    Touched m.cwd (expanded s) w.files w.now r.effect.files r.effect.now := by
  obtain ⟨cpp, hcpp, hr⟩ := hr
  have hstarted := started_of_shownRun? hr
  rw [← hstarted.files] at hcpp
  rw [← hstarted.files, ← now_of_shownRun? hr]
  exact h.preprocessor _ _ _ cpp hcpp hstarted.command hstarted.effect

theorem Toolchain.Orderly.compiled (h : t.Orderly m s) {w : World} {r : Run}
    (hr : shownRun? m w (t.compilation s) = some r) :
    Touched m.cwd s.treeBinary w.files w.now r.effect.files r.effect.now := by
  have hstarted := started_of_shownRun? hr
  rw [← hstarted.files, ← now_of_shownRun? hr]
  exact h.compiler _ _ _ hstarted.command hstarted.effect

theorem Toolchain.Orderly.written (h : t.Orderly m s) {w : World} {r : Run}
    (hr : shownRun? m w (t.compilation s) = some r) (hs : r.effect.status = .success) :
    ∃ content time x, r.effect.files.stat m.cwd s.treeBinary = .ok (.file content time x) ∧
      w.now ≤ time := by
  have hstarted := started_of_shownRun? hr
  rw [← now_of_shownRun? hr]
  exact h.writes _ _ _ hstarted.command hstarted.effect hs

/-- A compilation that ends well keeps what is fresh and makes its own binary fresh. -/
theorem compile_fresh (h : Arranged m w₀ sources) (ht : ∀ s ∈ sources, t.Orderly m s) {w w' : World}
    (hk : Kept m w₀ sources w.files w.now) (hs : s ∈ sources) {c : Compiled}
    (hc : (t.compile s).perform m w = (.ok c, w')) :
    Kept m w₀ sources w'.files w'.now ∧
      (∀ s' ∈ sources, Fresh m w₀ w.files s' → Fresh m w₀ w'.files s') ∧
      Fresh m w₀ w'.files s := by
  rw [Toolchain.perform_compile] at hc
  split at hc
  · cases hc
  next hfresh =>
    cases hc
    exact ⟨hk, fun _ _ hf => hf, (hk.upToDate_iff h hs).mp (isFresh?_eq_true.mp hfresh)⟩
  next =>
    obtain ⟨rfl, done, htried, htidy⟩ := Toolchain.rebuild_ok hc
    cases htried with
    | @built r r' hpre hsuccess hr' hsuccess' =>
      have htidy' : Toolchain.tidy s [r, r'] = remove (expanded s) :=
        if_pos (by simp [hsuccess])
      rw [htidy'] at htidy
      obtain ⟨hunlink, hnow⟩ := remove_eq_ok htidy
      obtain ⟨content, time, x, hwritten, hle⟩ := (ht s hs).written hr' hsuccess'
      -- The preprocessor, the compiler, and the removal of the expanded source, one after the other.
      obtain ⟨hk₁, hfresh₁⟩ := hk.expanded h hs ((ht s hs).preprocessed hpre)
      obtain ⟨hk₂, hfresh₂, hown⟩ := hk₁.binary h hs ((ht s hs).compiled hr') hwritten hle
      obtain ⟨hk₃, hfresh₃⟩ := hk₂.expanded h hs (.unlink .start hunlink)
      rw [hnow]
      exact ⟨hk₃, fun s' hs' hf => hfresh₃ s' hs' (hfresh₂ s' hs' (hfresh₁ s' hs' hf)),
        hfresh₃ s hs hown⟩

/-- All sources of a list that was compiled are fresh afterwards. -/
theorem compileAll_fresh (h : Arranged m w₀ sources) (ht : ∀ s ∈ sources, t.Orderly m s)
    {todo : List Path} (htodo : ∀ s ∈ todo, s ∈ sources) {w w' : World} {cs : List Compiled}
    (hk : Kept m w₀ sources w.files w.now)
    (hall : (t.compileAll todo).perform m w = (.ok cs, w')) :
    Kept m w₀ sources w'.files w'.now ∧
      (∀ s ∈ sources, Fresh m w₀ w.files s → Fresh m w₀ w'.files s) ∧
      ∀ s ∈ todo, Fresh m w₀ w'.files s := by
  induction todo generalizing w cs with
  | nil =>
    rw [compileAll_nil] at hall
    cases hall
    exact ⟨hk, fun _ _ hf => hf, fun s hs => absurd hs List.not_mem_nil⟩
  | cons source todo ih =>
    have hsource := htodo source List.mem_cons_self
    rw [compileAll_cons] at hall
    rcases hc : (t.compile source).perform m w with ⟨e | c, w₁⟩
    · rw [hc] at hall
      cases hall
    · rw [hc] at hall
      dsimp only at hall
      obtain ⟨hk₁, hfresh₁, hown⟩ := compile_fresh h ht hk hsource hc
      rcases hrest : (t.compileAll todo).perform m w₁ with ⟨e | cs', w₂⟩
      · rw [hrest] at hall
        cases hall
      · rw [hrest] at hall
        cases hall
        obtain ⟨hk₂, hfresh₂, hothers⟩ :=
          ih (fun s hs => htodo s (List.mem_cons_of_mem _ hs)) hk₁ hrest
        refine ⟨hk₂, fun s hs hf => hfresh₂ s hs (hfresh₁ s hs hf), fun s hs => ?_⟩
        rcases List.mem_cons.mp hs with rfl | hs
        · exact hfresh₂ s hsource hown
        · exact hothers s hs

/-- Sources that are all up to date are not compiled. -/
theorem compileAll_upToDate {w : World} (h : ∀ s ∈ sources, UpToDate w.files m.cwd s) :
    (t.compileAll sources).perform m w =
      (.ok (sources.map fun s => ⟨s, s.treeBinary, .upToDate⟩), w) := by
  induction sources with
  | nil => exact compileAll_nil t m w
  | cons s sources ih =>
    have hfirst : (t.compile s).perform m w = (.ok ⟨s, s.treeBinary, .upToDate⟩, w) := by
      rw [Toolchain.perform_compile, isFresh?_eq_true.mpr (h s List.mem_cons_self)]
    rw [compileAll_cons, hfirst]
    dsimp only
    rw [ih fun s' hs' => h s' (List.mem_cons_of_mem _ hs')]
    rfl

/-- Compiling the same sources once more, at whatever time, builds nothing and changes nothing. -/
theorem compileAll_twice {w w' : World} {cs : List Compiled} (h : Arranged m w sources)
    (ht : ∀ s ∈ sources, t.Orderly m s)
    (hall : (t.compileAll sources).perform m w = (.ok cs, w')) (later : Time) :
    (t.compileAll sources).perform m { w' with now := later } =
      (.ok (sources.map fun s => ⟨s, s.treeBinary, .upToDate⟩), { w' with now := later }) := by
  obtain ⟨hk, -, hfresh⟩ := compileAll_fresh h ht (fun _ hs => hs) h.kept hall
  exact compileAll_upToDate fun s hs => (hk.upToDate_iff h hs).mpr (hfresh s hs)

end Compiling

/-! ## 5. In small -/

namespace Toolchain

-- The programs that write an empty file and nothing else.
theorem writing_cases (before : List Run) {start : Start} {effect : Effect} {args : List String}
    {output input : Path} (hargs : start.command.args = args ++ [output.text, input.text])
    (h : writing before start = some effect) :
    (start.files.write [] output .empty start.now = .ok effect.files ∧
      effect.now = start.now) ∨
    (effect.files = start.files ∧ effect.now = start.now ∧ effect.status ≠ .success) := by
  have hreverse : start.command.args.reverse = input.text :: output.text :: args.reverse := by
    rw [hargs]
    simp
  unfold writing at h
  rw [hreverse] at h
  dsimp only at h
  split at h
  next files hwrite =>
    obtain rfl := Option.some.inj h
    exact Or.inl ⟨hwrite, rfl⟩
  next =>
    obtain rfl := Option.some.inj h
    exact Or.inr ⟨rfl, rfl, fun hs => absurd (ExitStatus.exited.inj hs) (by decide)⟩

theorem touched_writing (before : List Run) {start : Start} {effect : Effect} {args : List String}
    {output input : Path} (hargs : start.command.args = args ++ [output.text, input.text])
    (h : writing before start = some effect) :
    Touched [] output start.files start.now effect.files effect.now := by
  rcases writing_cases before hargs h with ⟨hwrite, hnow⟩ | ⟨hfiles, hnow, -⟩
  · rw [hnow]
    exact .write .start hwrite
  · rw [hnow, hfiles]
    exact .start

theorem args_preprocess (t : Toolchain) (source output : Path) :
    ∃ args, t.preprocessArgs source output = args ++ [output.text, source.text] :=
  ⟨["-nostdinc", "-undef", "-D__DTS__", "-x", "assembler-with-cpp"] ++
    t.includes.flatMap (fun dir => ["-I", dir.text]) ++ ["-o"], by simp [preprocessArgs]⟩

theorem orderly_writing (t : Toolchain) (source : Path) :
    t.Orderly (smallMachine writing) source where
  preprocessor before start effect cpp _ hcommand h := by
    obtain ⟨args, hargs⟩ := t.args_preprocess source (expanded source)
    have hstart : start.command.args = args ++ [(expanded source).text, source.text] := by
      rw [hcommand, hargs]
    exact touched_writing before hstart h
  compiler before start effect hcommand h := by
    have hstart : start.command.args = ["-I", "dts", "-O", "dtb", "-@", "-A", "-o"] ++
        [source.treeBinary.text, (expanded source).text] := by rw [hcommand]; rfl
    exact touched_writing before hstart h
  writes before start effect hcommand h hs := by
    have hstart : start.command.args = ["-I", "dts", "-O", "dtb", "-@", "-A", "-o"] ++
        [source.treeBinary.text, (expanded source).text] := by rw [hcommand]; rfl
    rcases writing_cases before hstart h with ⟨hwrite, -⟩ | ⟨-, -, hfailed⟩
    · obtain ⟨x, hstat⟩ := stat_write hwrite
      exact ⟨_, _, x, hstat, Time.le_refl _⟩
    · exact absurd hs hfailed

/-- Two sources of one stem, one of them twice. -/
def smallSources : List Path := [smallSource, ⟨"x.txt"⟩, smallSource]

theorem eq_ok_of_toOption {ε α : Type} {x : Except ε α} {a : α} (h : x.toOption = some a) :
    x = .ok a := by
  cases x with
  | error e => cases h
  | ok b => exact congrArg _ (Option.some.inj h)

theorem not_sameFile {fs : Files} {cwd : Place} {p q : Path} (h : (fs.stat cwd q).toOption = none) :
    ¬SameFile fs cwd p q := by
  rintro ⟨k, e, -, hwalk⟩
  rw [stat_eq, hwalk] at h
  cases h

theorem arranged_small : Arranged (smallMachine writing) smallWorld smallSources where
  grounded := by decide
  cwd := by decide
  regular := by
    have hall : ∀ s ∈ smallSources, (smallWorld.files.stat [] s).toOption =
        some (.file .empty default false) := by decide
    exact fun s hs => ⟨_, _, _, eq_ok_of_toOption (hall s hs), Time.le_refl _⟩
  noLinks := by
    have hall : ∀ s ∈ smallSources, smallWorld.files.named? [] s.treeBinary = none ∧
        smallWorld.files.named? [] (expanded s) = none := by decide
    intro s hs
    constructor
    · intro target htarget
      cases (hall s hs).1.symm.trans htarget
    · intro target htarget
      cases (hall s hs).2.symm.trans htarget
  apart := by
    have hall : ∀ s ∈ smallSources, (smallWorld.files.stat [] s.treeBinary).toOption = none ∧
        (smallWorld.files.stat [] (expanded s)).toOption = none := by decide
    exact fun s _ s' hs' => ⟨not_sameFile (hall s' hs').1, not_sameFile (hall s' hs').2⟩

theorem compileAll_twice_small :
    ∃ cs w', (smallChain.compileAll smallSources).perform (smallMachine writing) smallWorld =
        (.ok cs, w') ∧
      (smallChain.compileAll smallSources).perform (smallMachine writing)
          { w' with now := default } =
        (.ok (smallSources.map fun s => ⟨s, s.treeBinary, .upToDate⟩),
          { w' with now := default }) := by
  have hok : ((smallChain.compileAll smallSources).perform (smallMachine writing)
      smallWorld).1.isOk = true := by decide +kernel
  rcases hall : (smallChain.compileAll smallSources).perform (smallMachine writing) smallWorld with
    ⟨e | cs, w'⟩
  · rw [hall] at hok
    cases hok
  · exact ⟨cs, w', rfl, compileAll_twice arranged_small (fun s _ => orderly_writing smallChain s)
      hall default⟩

end Toolchain

end VirtBoard.DeviceTree
