import VirtBoard.Proofs.DeviceTree.Compilation

/-!
# What is taken for up to date

A compilation is spared exactly when the source and its binary are there and the binary is not
earlier, and then nothing at all is done.  Sources in a list are decided on one after the other, each
in the world that the ones before have left.
-/

namespace VirtBoard.DeviceTree

open VirtBoard.Action FileSystem

variable {t : Toolchain} {m : Machine} {w : World} {source : Path}

/-! ## 1. One source -/

/-- Source and binary are both found, through links, and the binary is not earlier: by its seconds,
or within the same second by its nanoseconds. -/
def UpToDate (fs : Files) (cwd : Place) (source : Path) : Prop :=
  ∃ s b, fs.stat cwd source = .ok s ∧ fs.stat cwd source.treeBinary = .ok b ∧
    (s.modified.seconds < b.modified.seconds ∨
      (s.modified.seconds = b.modified.seconds ∧
        s.modified.nanoseconds ≤ b.modified.nanoseconds))

theorem isFresh?_eq_true {fs : Files} {cwd : Place} :
    isFresh? fs cwd source source.treeBinary = .ok true ↔ UpToDate fs cwd source := by
  unfold isFresh? UpToDate
  rcases fs.stat cwd source.treeBinary with e | b
  · cases e <;> simp
  · rcases fs.stat cwd source with e | s
    · simp
    · simp only [Except.ok.injEq, decide_eq_true_eq, exists_and_left, exists_eq_left']
      exact Iff.rfl

theorem isFresh?_of_missing {fs : Files} {cwd : Place} {binary : Path}
    (h : fs.stat cwd binary = .error .notFound) : isFresh? fs cwd source binary = .ok false := by
  rw [isFresh?, h]

theorem isFresh?_of_unknown_binary {fs : Files} {cwd : Place} {binary : Path} {e : OsError}
    (h : fs.stat cwd binary = .error e) (he : e ≠ .notFound) :
    isFresh? fs cwd source binary = .error (.file .stat binary) := by
  rw [isFresh?, h]
  cases e <;> first | rfl | exact absurd rfl he

theorem isFresh?_of_unknown_source {fs : Files} {cwd : Place} {binary : Path} {b : Entry}
    {e : OsError} (hbinary : fs.stat cwd binary = .ok b) (hsource : fs.stat cwd source = .error e) :
    isFresh? fs cwd source binary = .error (.file .stat source) := by
  rw [isFresh?, hbinary, hsource]

/-- The decision about one source, with what is returned and left behind. -/
structure Decides (m : Machine) (w : World) (source : Path) (result : Except Failure Compiled)
    (w' : World) : Prop where
  upToDate_iff : (∃ c, result = .ok c ∧ c.outcome = .upToDate) ↔ UpToDate w.files m.cwd source
  untouched : (∃ c, result = .ok c ∧ c.outcome = .upToDate) → w' = w
  missing : w.files.stat m.cwd source.treeBinary = .error .notFound →
    ∀ c, result = .ok c → c.outcome = .built
  unknownBinary : ∀ e, w.files.stat m.cwd source.treeBinary = .error e → e ≠ .notFound →
    result = .error (.file .stat source.treeBinary) ∧ w' = w
  unknownSource : ∀ b e, w.files.stat m.cwd source.treeBinary = .ok b →
    w.files.stat m.cwd source = .error e → result = .error (.file .stat source) ∧ w' = w

theorem rebuild_not_upToDate {c : Compiled}
    (h : ((t.rebuild source).perform m w).1 = .ok c) : c.outcome = .built := by
  rw [(Toolchain.rebuild_ok (Prod.ext h rfl)).1]

theorem compile_upToDate_iff :
    (∃ c, ((t.compile source).perform m w).1 = .ok c ∧ c.outcome = .upToDate) ↔
      isFresh? w.files m.cwd source source.treeBinary = .ok true := by
  rw [Toolchain.perform_compile]
  rcases isFresh? w.files m.cwd source source.treeBinary with e | _ | _
  · simp
  · refine iff_of_false ?_ (by simp)
    rintro ⟨c, hc, hspared⟩
    rw [rebuild_not_upToDate hc] at hspared
    cases hspared
  · exact iff_of_true ⟨_, rfl, rfl⟩ rfl

theorem compile_decides (t : Toolchain) (m : Machine) (w : World) (source : Path) :
    Decides m w source ((t.compile source).perform m w).1
      ((t.compile source).perform m w).2 where
  upToDate_iff := compile_upToDate_iff.trans isFresh?_eq_true
  untouched h := by rw [Toolchain.perform_compile, compile_upToDate_iff.mp h]
  missing h c hc := by
    rw [Toolchain.perform_compile, isFresh?_of_missing h] at hc
    exact rebuild_not_upToDate hc
  unknownBinary e h he := by
    rw [Toolchain.perform_compile, isFresh?_of_unknown_binary h he]
    exact ⟨rfl, rfl⟩
  unknownSource b e hb he := by
    rw [Toolchain.perform_compile, isFresh?_of_unknown_source hb he]
    exact ⟨rfl, rfl⟩

/-! ## 2. Sources in a list -/

/-- Sources that are compiled one after the other, each in the world that the ones before left. -/
inductive InTurn (t : Toolchain) (m : Machine) :
    World → List Path → List Compiled → World → Prop where
  | done {w : World} : InTurn t m w [] [] w
  | next {w w₁ w₂ : World} {source : Path} {c : Compiled} {sources : List Path}
      {cs : List Compiled} : (t.compile source).perform m w = (.ok c, w₁) →
      Decides m w source (.ok c) w₁ → InTurn t m w₁ sources cs w₂ →
      InTurn t m w (source :: sources) (c :: cs) w₂

theorem InTurn.sources {sources : List Path} {cs : List Compiled} {w' : World}
    (h : InTurn t m w sources cs w') : cs.map (·.source) = sources := by
  induction h with
  | done => rfl
  | next hc _ _ ih => rw [List.map_cons, (Toolchain.compile_ok hc).1, ih]

theorem compileAll_nil (t : Toolchain) (m : Machine) (w : World) :
    (t.compileAll []).perform m w = (.ok [], w) :=
  rfl

theorem compileAll_cons (t : Toolchain) (source : Path) (sources : List Path) (m : Machine)
    (w : World) :
    (t.compileAll (source :: sources)).perform m w =
      match (t.compile source).perform m w with
      | (.ok c, w₁) =>
        match (t.compileAll sources).perform m w₁ with
        | (.ok cs, w₂) => (.ok (c :: cs), w₂)
        | (.error e, w₂) => (.error e, w₂)
      | (.error e, w₁) => (.error e, w₁) := by
  unfold Toolchain.compileAll
  rw [List.mapM_cons, perform_bind]
  rcases (t.compile source).perform m w with ⟨e | c, w₁⟩
  · rfl
  · dsimp only
    rw [perform_bind]
    rcases (sources.mapM t.compile).perform m w₁ with ⟨_ | _, _⟩ <;> rfl

/-- All sources are compiled in turn, or those before the first one that fails. -/
theorem compileAll_inTurn (t : Toolchain) (m : Machine) (w : World) (sources : List Path) :
    (∃ cs w', (t.compileAll sources).perform m w = (.ok cs, w') ∧ InTurn t m w sources cs w') ∨
    ∃ before source after cs w₁ e w', sources = before ++ source :: after ∧
      InTurn t m w before cs w₁ ∧ (t.compile source).perform m w₁ = (.error e, w') ∧
      Decides m w₁ source (.error e) w' ∧
      (t.compileAll sources).perform m w = (.error e, w') := by
  induction sources generalizing w with
  | nil => exact Or.inl ⟨[], w, compileAll_nil t m w, .done⟩
  | cons source sources ih =>
    have hdecides := compile_decides t m w source
    rw [compileAll_cons]
    rcases hc : (t.compile source).perform m w with ⟨e | c, w₁⟩
    · rw [hc] at hdecides
      exact Or.inr ⟨[], source, sources, [], w, e, w₁, rfl, .done, hc, hdecides, rfl⟩
    · rw [hc] at hdecides
      rcases @ih w₁ with ⟨cs, w₂, hall, hturn⟩ | ⟨before, failing, after, cs, w₂, e, w₃, rfl, hturn,
        hfails, hfailing, hall⟩
      · exact Or.inl ⟨c :: cs, w₂, by simp only [hall], .next hc hdecides hturn⟩
      · exact Or.inr ⟨source :: before, failing, after, c :: cs, w₂, e, w₃, rfl,
          .next hc hdecides hturn, hfails, hfailing, by simp only [hall]⟩

/-- Every source is decided on exactly.  In a list there is one result for each, in order, or the
first failure is that of the whole, and the sources behind it are left alone. -/
theorem cache_decision_exact (t : Toolchain) (m : Machine) :
    (∀ w source, Decides m w source ((t.compile source).perform m w).1
      ((t.compile source).perform m w).2) ∧
    ∀ w sources,
      (∃ cs w', (t.compileAll sources).perform m w = (.ok cs, w') ∧
        InTurn t m w sources cs w' ∧ cs.map (·.source) = sources) ∨
      ∃ before source after cs w₁ e w', sources = before ++ source :: after ∧
        InTurn t m w before cs w₁ ∧ cs.map (·.source) = before ∧
        (t.compile source).perform m w₁ = (.error e, w') ∧
        Decides m w₁ source (.error e) w' ∧
        (t.compileAll sources).perform m w = (.error e, w') := by
  refine ⟨compile_decides t m, fun w sources => ?_⟩
  rcases compileAll_inTurn t m w sources with ⟨cs, w', hall, hturn⟩ |
    ⟨before, source, after, cs, w₁, e, w', hsources, hturn, hrest⟩
  · exact Or.inl ⟨cs, w', hall, hturn, hturn.sources⟩
  · exact Or.inr ⟨before, source, after, cs, w₁, e, w', hsources, hturn, hturn.sources, hrest⟩

end VirtBoard.DeviceTree
