import VirtBoard.Proofs.FileSystem.Grounded
import VirtBoard.Proofs.Path.Siblings
import VirtBoard.Proofs.Action.Steps

/-!
# How a compilation ends

A compilation whose binary is not up to date tries the preprocessor, then the compiler, and stops at
the first step that fails.  It reports that step and leaves no expanded source, unless the expanded
source cannot be taken away: then the clean-up is what it reports.
-/

namespace VirtBoard.DeviceTree

open VirtBoard.Action FileSystem
open VirtBoard.Path (IsName)

variable {m : Machine} {w : World}

/-! ## 1. The parts of a compilation -/

theorem failure_of_isFresh? {fs : Files} {cwd : Place} {source binary : Path} {e : Failure}
    (h : isFresh? fs cwd source binary = .error e) : ∃ p, e = .file .stat p := by
  unfold isFresh? at h
  split at h
  · cases h
  · cases h
    exact ⟨binary, rfl⟩
  · split at h
    · cases h
      exact ⟨source, rfl⟩
    · cases h

theorem stat_of_isFresh? {fs : Files} {cwd : Place} {source binary : Path} {b : Bool}
    (h : isFresh? fs cwd source binary = .ok b) :
    fs.stat cwd binary = .error .notFound ∨ ∃ e, fs.stat cwd binary = .ok e := by
  unfold isFresh? at h
  split at h
  next hstat => exact Or.inl hstat
  next => cases h
  next e hstat => exact Or.inr ⟨e, hstat⟩

namespace Toolchain

theorem perform_preprocess (t : Toolchain) (source output : Path) (m : Machine) (w : World) :
    (t.preprocess source output).perform m w =
      match m.which w.files t.preprocessor with
      | none => (.error (.noPreprocessor t.preprocessor), w)
      | some cpp => (Action.run "cpp" ⟨cpp, t.preprocessArgs source output⟩).perform m w := by
  rw [preprocess, perform_bind, perform_which]
  cases m.which w.files t.preprocessor <;> rfl

/-- The command that makes the binary out of the expanded source. -/
def compilation (t : Toolchain) (source : Path) : Command :=
  ⟨t.compiler, compileArgs (expanded source) source.treeBinary⟩

/-- The compilation of a source whose binary is not up to date. -/
def rebuild (t : Toolchain) (source : Path) : Action Compiled := do
  if let .error e ← attempt (t.preprocess source (expanded source)) then
    discard (expanded source)
    throw e
  cleaned (Action.run "dtc" (t.compilation source)) (remove (expanded source))
  return ⟨source, source.treeBinary, .built⟩

theorem perform_compile (t : Toolchain) (source : Path) (m : Machine) (w : World) :
    (t.compile source).perform m w =
      match isFresh? w.files m.cwd source source.treeBinary with
      | .error e => (.error e, w)
      | .ok true => (.ok ⟨source, source.treeBinary, .upToDate⟩, w)
      | .ok false => (t.rebuild source).perform m w := by
  unfold compile
  rw [perform_bind, perform_isFresh]
  rcases isFresh? w.files m.cwd source source.treeBinary with _ | _ | _
  · rfl
  · unfold rebuild
    dsimp only
    rw [if_neg Bool.false_ne_true, perform_bind, perform_attempt, perform_bind, perform_attempt]
    rcases (t.preprocess source (expanded source)).perform m w with ⟨_ | _, w₁⟩
    · rfl
    · dsimp only
      rw [perform_cleaned_bind]
      rfl
  · rfl

/-! ## 2. What a compilation tries -/

/-- A run of the preprocessor on a source. -/
def Preprocessed (t : Toolchain) (m : Machine) (w : World) (source : Path) (r : Run) : Prop :=
  ∃ cpp, m.which w.files t.preprocessor = some cpp ∧
    shownRun? m w ⟨cpp, t.preprocessArgs source (expanded source)⟩ = some r

/-- The runs of a compilation, in order, and the result that they call for. -/
inductive Tried (t : Toolchain) (m : Machine) (w : World) (source : Path) :
    List Run → Except Failure Compiled → Prop where
  | noPreprocessor : m.which w.files t.preprocessor = none →
      Tried t m w source [] (.error (.noPreprocessor t.preprocessor))
  | preprocessorNotStarted {cpp} : m.which w.files t.preprocessor = some cpp →
      shownRun? m w ⟨cpp, t.preprocessArgs source (expanded source)⟩ = none →
      Tried t m w source [] (.error (.notStarted "cpp"))
  | preprocessorFailed {r} : t.Preprocessed m w source r → r.effect.status ≠ .success →
      Tried t m w source [r] (.error (.failed "cpp" r.effect.status))
  | compilerNotStarted {r} : t.Preprocessed m w source r → r.effect.status = .success →
      shownRun? m (w.after r) (t.compilation source) = none →
      Tried t m w source [r] (.error (.notStarted "dtc"))
  | compilerFailed {r r'} : t.Preprocessed m w source r → r.effect.status = .success →
      shownRun? m (w.after r) (t.compilation source) = some r' → r'.effect.status ≠ .success →
      Tried t m w source [r, r'] (.error (.failed "dtc" r'.effect.status))
  | built {r r'} : t.Preprocessed m w source r → r.effect.status = .success →
      shownRun? m (w.after r) (t.compilation source) = some r' → r'.effect.status = .success →
      Tried t m w source [r, r'] (.ok ⟨source, source.treeBinary, .built⟩)

/-- The clean-up behind the runs of a compilation: once the preprocessor succeeded, its output has to
be there. -/
def tidy (source : Path) (done : List Run) : Action Unit :=
  if done.any (·.effect.status = .success) then remove (expanded source)
  else discard (expanded source)

-- After a preprocessor that failed.
theorem perform_rebuild_error {t : Toolchain} {source : Path} {e : Failure} {w₁ : World}
    (h : (t.preprocess source (expanded source)).perform m w = (.error e, w₁)) :
    (t.rebuild source).perform m w =
      match (discard (expanded source)).perform m w₁ with
      | (.ok _, w₂) => (.error e, w₂)
      | (.error e', w₂) => (.error e', w₂) := by
  rw [rebuild, perform_bind, perform_attempt, h]
  dsimp only
  rw [perform_bind]
  rcases (discard (expanded source)).perform m w₁ with ⟨_ | _, _⟩ <;> rfl

-- After a preprocessor that succeeded.
theorem perform_rebuild_ok {t : Toolchain} {source : Path} {w₁ : World}
    (h : (t.preprocess source (expanded source)).perform m w = (.ok (), w₁)) :
    (t.rebuild source).perform m w =
      match (remove (expanded source)).perform m
        ((Action.run "dtc" (t.compilation source)).perform m w₁).2 with
      | (.ok _, w₂) =>
        (((Action.run "dtc" (t.compilation source)).perform m w₁).1.map
          fun _ => ⟨source, source.treeBinary, .built⟩, w₂)
      | (.error e, w₂) => (.error e, w₂) := by
  rw [rebuild, perform_bind, perform_attempt, h]
  dsimp only
  rw [perform_bind_pure, perform_cleaned]
  rcases (remove (expanded source)).perform m _ with ⟨_ | _, _⟩ <;> rfl

/-- A compilation ends with the result of what it tried, unless the clean-up fails. -/
theorem rebuild_tries (t : Toolchain) (m : Machine) (w : World) (source : Path) :
    ∃ done verdict, t.Tried m w source done verdict ∧
      (t.rebuild source).perform m w =
        match (tidy source done).perform m (w.afterAll done) with
        | (.ok _, w₁) => (verdict, w₁)
        | (.error e, w₁) => (.error e, w₁) := by
  have hpreprocess := t.perform_preprocess source (expanded source) m w
  cases hcpp : m.which w.files t.preprocessor with
  | none =>
    rw [hcpp] at hpreprocess
    exact ⟨[], _, .noPreprocessor hcpp, perform_rebuild_error hpreprocess⟩
  | some cpp =>
    rw [hcpp] at hpreprocess
    dsimp only at hpreprocess
    rw [perform_run] at hpreprocess
    cases hr : shownRun? m w ⟨cpp, t.preprocessArgs source (expanded source)⟩ with
    | none =>
      rw [hr] at hpreprocess
      exact ⟨[], _, .preprocessorNotStarted hcpp hr, perform_rebuild_error hpreprocess⟩
    | some r =>
      have hpre : t.Preprocessed m w source r := ⟨cpp, hcpp, hr⟩
      rw [hr] at hpreprocess
      dsimp only at hpreprocess
      by_cases hs : r.effect.status = .success
      · have htidy (rest : List Run) : tidy source (r :: rest) = remove (expanded source) :=
          if_pos (by simp [hs])
        rw [if_pos hs] at hpreprocess
        rw [perform_rebuild_ok hpreprocess, perform_run]
        cases hr' : shownRun? m (w.after r) (t.compilation source) with
        | none => exact ⟨[r], _, .compilerNotStarted hpre hs hr', by rw [htidy]; rfl⟩
        | some r' =>
          by_cases hs' : r'.effect.status = .success
          · refine ⟨[r, r'], _, .built hpre hs hr' hs', ?_⟩
            simp only [htidy, hs', ↓reduceIte]
            rfl
          · refine ⟨[r, r'], _, .compilerFailed hpre hs hr' hs', ?_⟩
            simp only [htidy, hs', ↓reduceIte]
            rfl
      · rw [if_neg hs] at hpreprocess
        have htidy : tidy source [r] = discard (expanded source) := if_neg (by simp [hs])
        refine ⟨[r], _, .preprocessorFailed hpre hs, ?_⟩
        rw [htidy]
        exact perform_rebuild_error hpreprocess

theorem Tried.of_success {t : Toolchain} {source : Path} {r : Run} {done : List Run}
    {verdict : Except Failure Compiled} (h : t.Tried m w source done verdict) (hr : r ∈ done)
    (hs : r.effect.status = .success) :
    ∃ r₁ rest, done = r₁ :: rest ∧ t.Preprocessed m w source r₁ ∧ r₁.effect.status = .success ∧
      (rest = [] ∨ ∃ r₂, rest = [r₂] ∧ shownRun? m (w.after r₁) (t.compilation source) = some r₂) := by
  cases h with
  | noPreprocessor => cases hr
  | preprocessorNotStarted => cases hr
  | preprocessorFailed _ hfailed =>
    obtain rfl := List.mem_singleton.mp hr
    exact absurd hs hfailed
  | compilerNotStarted hpre hs₁ => exact ⟨_, [], rfl, hpre, hs₁, Or.inl rfl⟩
  | compilerFailed hpre hs₁ hr₂ => exact ⟨_, _, rfl, hpre, hs₁, Or.inr ⟨_, rfl, hr₂⟩⟩
  | built hpre hs₁ hr₂ => exact ⟨_, _, rfl, hpre, hs₁, Or.inr ⟨_, rfl, hr₂⟩⟩

theorem Tried.first_success {t : Toolchain} {source : Path} {r r' : Run} {rest : List Run}
    {verdict : Except Failure Compiled} (h : t.Tried m w source (r :: r' :: rest) verdict) :
    r.effect.status = .success := by
  cases h with
  | compilerFailed _ hs => exact hs
  | built _ hs => exact hs

/-- The binary is built if and only if both programs succeeded. -/
theorem Tried.verdict_ok_iff {t : Toolchain} {source : Path} {done : List Run}
    {verdict : Except Failure Compiled} (h : t.Tried m w source done verdict) :
    verdict = .ok ⟨source, source.treeBinary, .built⟩ ↔
      ∃ r r', done = [r, r'] ∧ r.effect.status = .success ∧ r'.effect.status = .success := by
  cases h with
  | noPreprocessor => simp
  | preprocessorNotStarted => simp
  | preprocessorFailed => simp
  | compilerNotStarted => simp
  | compilerFailed _ _ _ hfailed => simp [hfailed]
  | built _ hs _ hs' => simp [hs, hs']

/-- A compilation that ends well has built the binary. -/
theorem rebuild_ok {t : Toolchain} {source : Path} {c : Compiled} {w' : World}
    (h : (t.rebuild source).perform m w = (.ok c, w')) :
    c = ⟨source, source.treeBinary, .built⟩ ∧ ∃ done,
      t.Tried m w source done (.ok c) ∧
      (tidy source done).perform m (w.afterAll done) = (.ok (), w') := by
  obtain ⟨done, verdict, htried, hrebuild⟩ := t.rebuild_tries m w source
  rw [h] at hrebuild
  split at hrebuild
  next htidy =>
    obtain ⟨rfl, rfl⟩ := Prod.mk.inj hrebuild
    refine ⟨?_, done, htried, htidy⟩
    cases htried
    rfl
  next => cases hrebuild

-- A compilation is about its source and the binary that belongs to it.
theorem compile_ok {t : Toolchain} {source : Path} {c : Compiled} {w' : World}
    (h : (t.compile source).perform m w = (.ok c, w')) :
    c.source = source ∧ c.binary = source.treeBinary := by
  rw [perform_compile] at h
  split at h
  · cases h
  · cases h
    exact ⟨rfl, rfl⟩
  · rw [(rebuild_ok h).1]
    exact ⟨rfl, rfl⟩

/-! ## 3. The clean-up -/

theorem discard_cases (source : Path) (m : Machine) (w : World) :
    (∃ w₁, (discard (expanded source)).perform m w = (.ok (), w₁) ∧ w₁.runs = w.runs ∧
      w₁.files.named? m.cwd (expanded source) = none) ∨
    ((discard (expanded source)).perform m w = (.error (.file .remove (expanded source)), w) ∧
      (¬Files.Acceptable (expanded source) ∨ w.files.Obstructed m.cwd (expanded source))) := by
  have hcases := unlink_cases source.isName_expanded w.files m.cwd source.folder w.now
  rw [← Path.expanded_eq] at hcases
  rw [perform_discard]
  rcases hcases with ⟨fs', hunlink, hgone⟩ | ⟨hunlink, hgone⟩ | ⟨e, hunlink, hne, hwhy⟩
  · rw [hunlink]
    exact Or.inl ⟨_, rfl, World.runs_removed _ _, hgone⟩
  · rw [hunlink]
    exact Or.inl ⟨_, rfl, rfl, hgone⟩
  · rw [hunlink]
    refine Or.inr ⟨?_, hwhy⟩
    split
    next he => cases he
    next he => exact absurd (Except.error.inj he) hne
    next => rfl

theorem remove_of_holdsFile {source : Path} (h : w.files.HoldsFile m.cwd (expanded source)) :
    ∃ w₁, (remove (expanded source)).perform m w = (.ok (), w₁) ∧ w₁.runs = w.runs ∧
      w₁.files.named? m.cwd (expanded source) = none := by
  rw [Path.expanded_eq] at h
  obtain ⟨fs', hunlink, hgone⟩ := unlink_of_holdsFile source.isName_expanded h w.now
  rw [← Path.expanded_eq] at hunlink hgone
  rw [perform_remove, hunlink]
  exact ⟨_, rfl, World.runs_removed _ _, hgone⟩

-- Where the binary could be looked for, nothing is in the way of the expanded source.
theorem not_obstructed_of_stale {source : Path} (hgrounded : w.files.Grounded)
    (hcwd : w.files.branch m.cwd = some .into) (hname : source.EndsInName)
    (hdirectory : ∀ t, w.files.named? m.cwd (expanded source) ≠ some (.directory t))
    (hstale : isFresh? w.files m.cwd source source.treeBinary = .ok false) :
    ¬w.files.Obstructed m.cwd (expanded source) := by
  rintro (⟨t, ht⟩ | ⟨e, he, hne⟩)
  · exact hdirectory t ht
  rw [Path.expanded_eq, walkParent_join source.isName_expanded] at he
  rcases Path.treeBinary_sibling hname with hempty | ⟨name, hslash, hne', hbinary⟩
  · -- Without a text there is no folder but the current directory.
    obtain rfl : source = ⟨""⟩ := Path.ext hempty
    rw [walkInto_of_leads (by exact Leads.nil) hcwd] at he
    cases he
  · rcases walkInto_cases hgrounded hcwd source.folder with ⟨dir, hdir⟩ | ⟨e', he', hall⟩
    · rw [hdir] at he
      cases he
    · -- The binary was looked for in the same folder, and was missed for the same reason.
      rw [he'] at he
      obtain rfl := Except.error.inj he
      have hstat := stat_of_isFresh? hstale
      rw [hbinary] at hstat
      refine hne (notFound_of_stat ?_ (hall name hslash hne') hstat)
      intro htext
      have hchars := Path.chars_eq_nil htext
      rw [Path.chars_folder_join hslash] at hchars
      exact hne' (String.toList_eq_nil_iff.mp (List.append_eq_nil_iff.mp hchars).2)

/-! ## 4. The whole -/

/-- The surroundings of a compilation in which the expanded source can be made and taken away: the
preprocessor leaves it if it succeeds, and the compiler does not take it away. -/
structure Undisturbed (t : Toolchain) (m : Machine) (w : World) (source : Path) : Prop where
  grounded : w.files.Grounded
  cwd : w.files.branch m.cwd = some .into
  name : source.EndsInName
  noDirectory : ∀ time, w.files.named? m.cwd (expanded source) ≠ some (.directory time)
  expands : ∀ r, t.Preprocessed m w source r → r.effect.status = .success →
    r.effect.files.HoldsFile m.cwd (expanded source)
  keeps : ∀ r r', t.Preprocessed m w source r → r.effect.status = .success →
    shownRun? m (w.after r) (t.compilation source) = some r' →
    r'.effect.files.HoldsFile m.cwd (expanded source)

theorem Undisturbed.holdsFile {t : Toolchain} {source : Path} (h : t.Undisturbed m w source)
    {done : List Run} {verdict : Except Failure Compiled} (htried : t.Tried m w source done verdict)
    {r : Run} (hr : r ∈ done) (hs : r.effect.status = .success) :
    (w.afterAll done).files.HoldsFile m.cwd (expanded source) := by
  obtain ⟨r₁, rest, rfl, hpre, hs₁, rfl | ⟨r₂, rfl, hr₂⟩⟩ := htried.of_success hr hs
  · exact h.expands r₁ hpre hs₁
  · exact h.keeps r₁ r₂ hpre hs₁ hr₂

/-- What keeps the clean-up behind failed runs from its work. -/
def CleanUpRefused (m : Machine) (source : Path) (done : List Run) (w' : World) : Prop :=
  (∀ r ∈ done, r.effect.status ≠ .success) ∧
    ((¬Files.Acceptable (expanded source) ∧
        ∀ e, w'.files.stat m.cwd (expanded source) ≠ .ok e) ∨
      ∃ r, done = [r] ∧ r.effect.files.Obstructed m.cwd (expanded source))

/-- The clean-up is done, or it is refused and nothing was made that it had to take away. -/
theorem rebuild_ends {t : Toolchain} {source : Path} (h : t.Undisturbed m w source)
    (hstale : isFresh? w.files m.cwd source source.treeBinary = .ok false) :
    ∃ done verdict w', t.Tried m w source done verdict ∧ w'.runs = w.runs ++ done ∧
      (((t.rebuild source).perform m w = (verdict, w') ∧
          w'.files.named? m.cwd (expanded source) = none) ∨
        ((t.rebuild source).perform m w = (.error (.file .remove (expanded source)), w') ∧
          CleanUpRefused m source done w')) := by
  obtain ⟨done, verdict, htried, hrebuild⟩ := t.rebuild_tries m w source
  by_cases hany : ∃ r ∈ done, r.effect.status = .success
  · obtain ⟨r, hr, hs⟩ := hany
    have htidy : tidy source done = remove (expanded source) :=
      if_pos (List.any_eq_true.mpr ⟨r, hr, decide_eq_true hs⟩)
    obtain ⟨w₁, hremove, hruns, hgone⟩ := remove_of_holdsFile (h.holdsFile htried hr hs)
    rw [htidy, hremove] at hrebuild
    exact ⟨done, verdict, w₁, htried, hruns.trans (World.runs_afterAll w done),
      Or.inl ⟨hrebuild, hgone⟩⟩
  have htidy : tidy source done = discard (expanded source) := by
    refine if_neg fun hs => hany ?_
    obtain ⟨r, hr, hs⟩ := List.any_eq_true.mp hs
    exact ⟨r, hr, of_decide_eq_true hs⟩
  rw [htidy] at hrebuild
  rcases discard_cases source m (w.afterAll done) with
    ⟨w₁, hdiscard, hruns, hgone⟩ | ⟨hdiscard, hwhy⟩
  · rw [hdiscard] at hrebuild
    exact ⟨done, verdict, w₁, htried, hruns.trans (World.runs_afterAll w done),
      Or.inl ⟨hrebuild, hgone⟩⟩
  rw [hdiscard] at hrebuild
  refine ⟨done, verdict, w.afterAll done, htried, World.runs_afterAll w done,
    Or.inr ⟨hrebuild, fun r hr hs => hany ⟨r, hr, hs⟩, ?_⟩⟩
  rcases hwhy with hrefused | hobstructed
  · left
    rw [Path.expanded_eq] at hrefused ⊢
    exact ⟨hrefused, stat_of_not_acceptable source.isName_expanded hrefused⟩
  · right
    cases done with
    | nil =>
      -- Nothing ran, so that what is in the way would have been there before.
      exact absurd hobstructed
        (not_obstructed_of_stale h.grounded h.cwd h.name h.noDirectory hstale)
    | cons r rest =>
      cases rest with
      | nil => exact ⟨r, rfl, hobstructed⟩
      | cons r' rest => exact absurd ⟨r, List.mem_cons_self, htried.first_success⟩ hany

/-- A compilation that neither finds its binary up to date nor fails to look at it has tried the
preprocessor and the compiler in this order.  It tells the first failure, and leaves nothing under
the name of the expanded source; only if the preprocessor failed can the clean-up be refused. -/
theorem compile_reports_first_failure {t : Toolchain} {source : Path}
    (h : t.Undisturbed m w source)
    (hstale : ∀ c, ((t.compile source).perform m w).1 = .ok c → c.outcome ≠ .upToDate)
    (hstat : ∀ p, ((t.compile source).perform m w).1 ≠ .error (.file .stat p)) :
    ∃ done verdict result w', (t.compile source).perform m w = (result, w') ∧
      t.Tried m w source done verdict ∧ w'.runs = w.runs ++ done ∧
      (result = .ok ⟨source, source.treeBinary, .built⟩ ↔
        ∃ r r', done = [r, r'] ∧ r.effect.status = .success ∧ r'.effect.status = .success) ∧
      ((result = verdict ∧ w'.files.named? m.cwd (expanded source) = none) ∨
        (result = .error (.file .remove (expanded source)) ∧
          CleanUpRefused m source done w')) := by
  rw [perform_compile] at hstale hstat ⊢
  rcases hfresh : isFresh? w.files m.cwd source source.treeBinary with e | _ | _
  · rw [hfresh] at hstat
    obtain ⟨p, rfl⟩ := failure_of_isFresh? hfresh
    exact absurd rfl (hstat p)
  · obtain ⟨done, verdict, w', htried, hruns, ⟨hperform, hgone⟩ | ⟨hperform, hrefused⟩⟩ :=
      rebuild_ends h hfresh
    · exact ⟨done, verdict, verdict, w', hperform, htried, hruns, htried.verdict_ok_iff,
        Or.inl ⟨rfl, hgone⟩⟩
    · refine ⟨done, verdict, _, w', hperform, htried, hruns, ?_, Or.inr ⟨rfl, hrefused⟩⟩
      constructor
      · intro hok
        cases hok
      · rintro ⟨r, r', rfl, hs, -⟩
        exact absurd hs (hrefused.1 r List.mem_cons_self)
  · rw [hfresh] at hstale
    exact absurd rfl (hstale _ rfl)

/-! ## 5. Compilations in small

Two sources of one stem in the current directory, with programs of the simplest kind. -/

def smallMachine (programs : Programs) : Machine where
  cwd := []
  searchPath := [⟨"/bin"⟩]
  programs

def smallChain : Toolchain where
  compiler := ⟨"/bin/dtc"⟩

def smallWorld : World where
  files := ⟨[([], .directory default), (["bin"], .directory default),
    (["cpp", "bin"], .file .empty default true), (["dtc", "bin"], .file .empty default true),
    (["x.dts"], .file .empty default false), (["x.txt"], .file .empty default false)]⟩
  now := default
  journal := []

def smallSource : Path := ⟨"x.dts"⟩

/-- A program that writes an empty file where its last argument but one says. -/
def writing : Programs := fun _ start =>
  match start.command.args.reverse with
  | _ :: output :: _ =>
    match start.files.write [] ⟨output⟩ .empty start.now with
    | .ok files => some ⟨files, start.now, .success, .empty⟩
    | .error _ => some ⟨start.files, start.now, .exited 1, .empty⟩
  | _ => some ⟨start.files, start.now, .exited 1, .empty⟩

theorem which_small (programs : Programs) :
    (smallMachine programs).which smallWorld.files smallChain.preprocessor =
      some ⟨"/bin/cpp"⟩ := by
  show (smallMachine fun _ _ => none).which smallWorld.files smallChain.preprocessor = _
  decide

theorem noDirectory_small (time : Time) :
    smallWorld.files.named? [] (expanded smallSource) ≠ some (.directory time) := by
  have hnone : smallWorld.files.named? [] (expanded smallSource) = none := by decide
  rw [hnone]
  exact nofun

theorem undisturbed_writing :
    smallChain.Undisturbed (smallMachine writing) smallWorld smallSource where
  grounded := by decide
  cwd := by decide
  name := by decide
  noDirectory := noDirectory_small
  expands := by
    have hrun : ∀ r ∈ shownRun? (smallMachine writing) smallWorld
        ⟨⟨"/bin/cpp"⟩, smallChain.preprocessArgs smallSource (expanded smallSource)⟩,
        r.effect.files.HoldsFile [] (expanded smallSource) := by decide
    rintro r ⟨cpp, hcpp, hr⟩ -
    rw [which_small] at hcpp
    obtain rfl := Option.some.inj hcpp
    exact hrun r hr
  keeps := by
    have hrun : ∀ r ∈ shownRun? (smallMachine writing) smallWorld
        ⟨⟨"/bin/cpp"⟩, smallChain.preprocessArgs smallSource (expanded smallSource)⟩,
        ∀ r' ∈ shownRun? (smallMachine writing) (smallWorld.after r)
          (smallChain.compilation smallSource),
        r'.effect.files.HoldsFile [] (expanded smallSource) := by decide
    rintro r r' ⟨cpp, hcpp, hr⟩ - hr'
    rw [which_small] at hcpp
    obtain rfl := Option.some.inj hcpp
    exact hrun r hr r' hr'

theorem compile_reports_writing :
    ∃ done verdict result w',
      (smallChain.compile smallSource).perform (smallMachine writing) smallWorld = (result, w') ∧
      smallChain.Tried (smallMachine writing) smallWorld smallSource done verdict ∧
      w'.runs = smallWorld.runs ++ done ∧
      (result = .ok ⟨smallSource, smallSource.treeBinary, .built⟩ ↔
        ∃ r r', done = [r, r'] ∧ r.effect.status = .success ∧ r'.effect.status = .success) ∧
      ((result = verdict ∧ w'.files.named? [] (expanded smallSource) = none) ∨
        (result = .error (.file .remove (expanded smallSource)) ∧
          CleanUpRefused (smallMachine writing) smallSource done w')) := by
  have hbuilt : ∀ c ∈ ((smallChain.compile smallSource).perform (smallMachine writing)
      smallWorld).1.toOption, c.outcome ≠ .upToDate := by decide
  have hok : ((smallChain.compile smallSource).perform (smallMachine writing)
      smallWorld).1.isOk = true := by decide
  apply compile_reports_first_failure undisturbed_writing
  · intro c hc
    exact hbuilt c (by rw [hc]; rfl)
  · intro p hp
    rw [hp] at hok
    cases hok

/-! ## 6. Clean-ups that are refused -/

/-- A program that fails. -/
def idle : Programs := fun _ start =>
  some ⟨start.files, start.now, .exited 1, .empty⟩

/-- A program that fails and leaves a directory under the name of the expanded source. -/
def littering : Programs := fun _ start =>
  some ⟨start.files.create ["x.dts.tmp"] (.directory start.now) start.now, start.now, .exited 1,
    .empty⟩

-- Programs that fail have no output to leave.
theorem undisturbed_of_failing {t : Toolchain} {source : Path} (hgrounded : w.files.Grounded)
    (hcwd : w.files.branch m.cwd = some .into) (hname : source.EndsInName)
    (hdirectory : ∀ time, w.files.named? m.cwd (expanded source) ≠ some (.directory time))
    (hfails : ∀ before start effect, m.programs before start = some effect →
      effect.status ≠ .success) : t.Undisturbed m w source where
  grounded := hgrounded
  cwd := hcwd
  name := hname
  noDirectory := hdirectory
  expands r := by
    rintro ⟨cpp, -, hr⟩ hs
    exact absurd hs (hfails _ _ _ (started_of_shownRun? hr).effect)
  keeps r r' := by
    rintro ⟨cpp, -, hr⟩ hs
    exact absurd hs (hfails _ _ _ (started_of_shownRun? hr).effect)

theorem undisturbed_littering :
    smallChain.Undisturbed (smallMachine littering) smallWorld smallSource := by
  refine undisturbed_of_failing ?_ ?_ ?_ noDirectory_small ?_
  · decide
  · decide
  · decide
  · rintro before start effect ⟨⟩
    exact fun hs => absurd (ExitStatus.exited.inj hs) (by decide)

theorem idle_fails {before : List Run} {start : Start} {effect : Effect}
    (h : idle before start = some effect) : effect.status ≠ .success := by
  obtain rfl := Option.some.inj h
  exact fun hs => absurd (ExitStatus.exited.inj hs) (by decide)

/-- A current directory with nothing in it, and no programs. -/
def bareMachine : Machine where
  cwd := []
  searchPath := []
  programs := idle

def bareWorld : World where
  files := ⟨[([], .directory default)]⟩
  now := default
  journal := []

theorem walkInto_bare : bareWorld.files.walkInto [] ⟨""⟩ = .ok [] := by
  decide

theorem checkPath_bare {name : String} (h : IsName name) (hnul : '\x00' ∉ name.toList)
    (hsize : name.utf8ByteSize < pathLimit) :
    Files.checkPath ((⟨""⟩ : Path).join ⟨name⟩) = .ok () := by
  have hlead : Path.lead ⟨""⟩ = [] := rfl
  refine checkPath_eq_ok.mpr ⟨?_, fun he => ?_, ?_⟩
  · rwa [Path.chars_join h]
  · have hchars := Path.chars_eq_nil he
    rw [Path.chars_join h] at hchars
    exact h.toList_ne_nil hchars
  · rw [Path.text_join h, hlead, String.utf8ByteSize_append]
    have hempty : (String.ofList []).utf8ByteSize = 0 := rfl
    omega

/-- A name of so many letters, and an extension. -/
def longName (ext : List Char) : String :=
  String.ofList (List.replicate 248 'a' ++ '.' :: ext)

theorem toList_longName (ext : List Char) :
    (longName ext).toList = List.replicate 248 'a' ++ '.' :: ext :=
  String.toList_ofList

theorem utf8ByteSize_longName :
    (longName "dtb".toList).utf8ByteSize = 252 ∧ (longName "dts.tmp".toList).utf8ByteSize = 256 := by
  decide +kernel

theorem no_mem_longName {c : Char} {ext : List Char} (hc : c ≠ 'a' ∧ c ≠ '.') (h : c ∉ ext) :
    c ∉ (longName ext).toList := by
  rw [toList_longName, List.mem_append, List.mem_cons, not_or, not_or]
  exact ⟨fun ha => hc.1 (List.eq_of_mem_replicate ha), hc.2, h⟩

theorem isName_longName {ext : List Char} (h : '/' ∉ ext) : IsName (longName ext) := by
  refine Path.isName_of_length (no_mem_longName (by decide) h) ?_
  rw [longName, String.length_ofList, List.length_append, List.length_replicate]
  omega

/-- A source whose name leaves room for its binary, but not for the expanded source. -/
def longSource : Path := (⟨""⟩ : Path).join ⟨longName "dts".toList⟩

theorem endsInName_longSource : longSource.EndsInName := by
  rw [Path.EndsInName, longSource, Path.chars_join (isName_longName (by decide)), toList_longName]
  decide

theorem expanded_longSource :
    expanded longSource = (⟨""⟩ : Path).join ⟨longName "dts.tmp".toList⟩ := by
  have hname : longName "dts".toList ++ ".tmp" = longName "dts.tmp".toList := by
    have hext : '.' :: "dts".toList ++ ".tmp".toList = '.' :: "dts.tmp".toList := by decide
    apply String.toList_injective
    rw [String.toList_append, toList_longName, toList_longName, List.append_assoc, hext]
  have hexpanded : IsName (longName "dts".toList ++ ".tmp") := by
    rw [hname]
    exact isName_longName (by decide)
  rw [← hname]
  exact Path.append_join (isName_longName (by decide)) hexpanded ⟨""⟩

theorem treeBinary_longSource :
    longSource.treeBinary = (⟨""⟩ : Path).join ⟨longName "dtb".toList⟩ := by
  have hold : IsName (longName "dts".toList) := isName_longName (by decide)
  have hnew : IsName (longName "dtb".toList) := isName_longName (by decide)
  unfold longSource Path.treeBinary
  unfold longName at hold hnew ⊢
  exact Path.withExtension_join hold hnew (by decide) (by decide) ⟨""⟩

theorem stale_longSource :
    isFresh? bareWorld.files [] longSource longSource.treeBinary = .ok false := by
  have hname : IsName (longName "dtb".toList) := isName_longName (by decide)
  have hsize : (longName "dtb".toList).utf8ByteSize ≤ nameLimit := by
    rw [utf8ByteSize_longName.1]
    decide
  have hcheck := checkPath_bare hname (no_mem_longName (by decide) (by decide))
    (Nat.lt_of_le_of_lt hsize (by decide))
  rw [isFresh?, treeBinary_longSource, stat_eq,
    walk_join_of_none ⟨hname, hsize⟩ hcheck walkInto_bare rfl]

theorem undisturbed_longSource : smallChain.Undisturbed bareMachine bareWorld longSource := by
  refine undisturbed_of_failing ?_ ?_ endsInName_longSource ?_ @idle_fails
  · decide
  · decide
  · intro time htime
    rw [expanded_longSource, named?_join_eq_some (isName_longName (by decide))] at htime
    obtain ⟨-, dir, -, hfind⟩ := htime
    cases hfind

theorem perform_longSource :
    (smallChain.compile longSource).perform bareMachine bareWorld =
      (.error (.file .remove (expanded longSource)), bareWorld) := by
  have hname : IsName (longName "dts.tmp".toList) := isName_longName (by decide)
  have hlong : nameLimit < (longName "dts.tmp".toList).utf8ByteSize := by
    rw [utf8ByteSize_longName.2]
    decide
  have hlimit : (longName "dts.tmp".toList).utf8ByteSize < pathLimit := by
    rw [utf8ByteSize_longName.2]
    decide
  have hcheck := checkPath_bare hname (no_mem_longName (by decide) (by decide)) hlimit
  have hunlink : bareWorld.files.unlink [] (expanded longSource) bareWorld.now =
      .error .nameTooLong := by
    rw [expanded_longSource]
    exact unlink_of_long hname hlong hcheck walkInto_bare
  have hpreprocess : (smallChain.preprocess longSource (expanded longSource)).perform bareMachine
      bareWorld = (.error (.noPreprocessor ⟨"cpp"⟩), bareWorld) :=
    perform_preprocess _ _ _ _ _
  have hcwd : bareMachine.cwd = [] := rfl
  rw [perform_compile, hcwd, stale_longSource]
  dsimp only
  rw [perform_rebuild_error hpreprocess, perform_discard, hcwd, hunlink]

/-- Neither exception can be left out: a failure is hidden by a name that is too long for the
expanded source, and by a preprocessor that leaves a directory in its place. -/
theorem clean_up_hides_failure :
    (¬∀ (t : Toolchain) (m : Machine) (w : World) (source : Path), t.Undisturbed m w source →
      (∀ c, ((t.compile source).perform m w).1 = .ok c → c.outcome ≠ .upToDate) →
      (∀ p, ((t.compile source).perform m w).1 ≠ .error (.file .stat p)) →
      ∃ done verdict w', (t.compile source).perform m w = (verdict, w') ∧
        t.Tried m w source done verdict ∧ w'.files.named? m.cwd (expanded source) = none) ∧
    ¬∀ (t : Toolchain) (m : Machine) (w : World) (source : Path), t.Undisturbed m w source →
      Files.Acceptable (expanded source) →
      (∀ c, ((t.compile source).perform m w).1 = .ok c → c.outcome ≠ .upToDate) →
      (∀ p, ((t.compile source).perform m w).1 ≠ .error (.file .stat p)) →
      ∃ done verdict w', (t.compile source).perform m w = (verdict, w') ∧
        t.Tried m w source done verdict ∧ w'.files.named? m.cwd (expanded source) = none := by
  constructor
  · intro h
    obtain ⟨done, verdict, w', hperform, htried, -⟩ := h _ _ _ _ undisturbed_longSource
      (by rw [perform_longSource]; exact nofun) (by rw [perform_longSource]; exact nofun)
    rw [perform_longSource] at hperform
    obtain ⟨rfl, -⟩ := Prod.mk.inj hperform
    cases htried
  · have hlittered : ((smallChain.compile smallSource).perform (smallMachine littering)
        smallWorld).1 = .error (.file .remove (expanded smallSource)) := by
      have hfailure : (match ((smallChain.compile smallSource).perform (smallMachine littering)
          smallWorld).1 with
        | .error e => some e
        | .ok _ => none) = some (.file .remove (expanded smallSource)) := by decide
      split at hfailure
      next e he => rw [he, Option.some.inj hfailure]
      next => cases hfailure
    intro h
    obtain ⟨done, verdict, w', hperform, htried, -⟩ := h _ _ _ _ undisturbed_littering
      (by decide) (by rw [hlittered]; exact nofun) (by rw [hlittered]; exact nofun)
    rw [hperform] at hlittered
    cases hlittered
    cases htried

end Toolchain

end VirtBoard.DeviceTree
