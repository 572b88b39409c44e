import VirtBoard.Proofs.Action.Accounts
import VirtBoard.Proofs.FileSystem.Touching
import VirtBoard.Proofs.Launch.Order
import VirtBoard.Proofs.Launch.Runs
import VirtBoard.Proofs.Launch.Workplace

/-!
# The footprint of a launch

A launch itself, as opposed to the programs that it starts, does nothing to the files but for its
temporaries in the working directory, and without overlays nothing at all.
-/

namespace VirtBoard.Launch

open VirtBoard.Action DeviceTree FileSystem Qemu

variable {m : Machine}

/-! ## 1. The operations of the parts -/

theorem accounts_isFresh (source binary : Path) : Accounts m [] (isFresh source binary) :=
  accounts_of_still fun w => by rw [perform_isFresh]

theorem accounts_merge (sources : List Path) (output : Path) :
    Accounts m [.write output] (merge sources output) :=
  (accounts_mapM (fun _ => accounts_ask _ _) sources).bind fun _ => accounts_writeText _ _

theorem accounts_compile (t : Toolchain) (source : Path) :
    Accounts m [.unlink (Toolchain.expanded source)] (t.compile source) := by
  unfold Toolchain.compile
  refine (accounts_isFresh _ _).bind fun fresh => ?_
  cases fresh with
  | true => exact (accounts_pure _).mono (List.nil_sublist _)
  | false =>
    have hpreprocess : Accounts m [] (t.preprocess source (Toolchain.expanded source)) :=
      (accounts_which _ _).bind fun _ => accounts_run _ _
    refine (accounts_attempt hpreprocess).bind fun expanded => ?_
    cases expanded with
    | error e => exact (accounts_discard _).bind fun _ => accounts_throw_bind e _
    | ok =>
      exact (accounts_attempt (accounts_run _ _)).bind fun _ => (accounts_remove _).bind fun _ =>
        (accounts_ofExcept _).bind fun _ => accounts_pure _

theorem accounts_bundled (root : Path) : Accounts m [] (Toolchain.bundled root) :=
  (accounts_which _ _).bind fun _ => (accounts_run _ _).bind fun _ => accounts_pure _

theorem accounts_decompiler (t : TreeTools) : Accounts m [] t.decompiler := by
  unfold TreeTools.decompiler
  split
  · exact accounts_pure _
  · exact (accounts_which _ _).bind fun _ => accounts_pure _

theorem accounts_compileChain (t : TreeTools) : Accounts m [] t.compileChain := by
  unfold TreeTools.compileChain
  cases t.compiler with
  | some compiler => exact (accounts_pure _).bind fun _ => accounts_pure _
  | none => exact (accounts_bundled _).bind fun _ => accounts_pure _

theorem accounts_warnings (warnings : List Warning) :
    Accounts m [] (forIn warnings PUnit.unit fun warning _ => do
      Action.warn warning
      pure (ForInStep.yield PUnit.unit)) := by
  induction warnings with
  | nil => exact accounts_pure _
  | cons warning warnings ih =>
    rw [List.forIn_cons]
    refine ((accounts_warn _).bind fun _ => accounts_pure _).bind fun next => ?_
    cases next with
    | done => exact accounts_pure _
    | yield => exact ih

namespace Pipeline

variable (p : Pipeline)

theorem accounts_launch (o : Board.Options) : Accounts m [] (p.launch o) := by
  unfold launch
  split
  · exact accounts_throw _
  · refine (accounts_warnings _).bind fun _ => (accounts_start _ _).bind fun effect => ?_
    cases effect with
    | none => exact accounts_throw _
    | some effect => exact accounts_pure _

theorem accounts_direct : Accounts m [] p.direct := by
  unfold direct
  refine (accounts_launch p p.options).bind fun status => ?_
  cases p.options.dumpTree with
  | none => exact accounts_pure _
  | some dump =>
    dsimp only
    split
    · exact (accounts_decompiler _).bind fun _ => (accounts_run _ _).bind fun _ => accounts_pure _
    · exact accounts_pure _

theorem accounts_dump : Accounts m [.unlink (p.temporary .dumpBinary)] p.dump := by
  unfold dump
  refine (accounts_launch p _).bind fun status => ?_
  dsimp only
  split
  · exact (accounts_throw_bind _ _).mono (List.nil_sublist _)
  · exact (accounts_attempt ((accounts_decompiler _).bind fun _ => accounts_run _ _)).bind
      fun _ => (accounts_discard _).bind fun _ => (accounts_ofExcept _).bind fun _ =>
        accounts_pure _

theorem accounts_mergeOverlays :
    Accounts m [.write (p.temporary .mergedSource), .unlink (p.temporary .dumpSource),
      .unlink (p.temporary .mergedSource)] p.mergeOverlays := by
  unfold mergeOverlays
  refine (accounts_attempt (accounts_merge _ _)).bind fun merged =>
    (accounts_discard _).bind fun _ => ?_
  cases merged with
  | error e => exact (accounts_discard _).bind fun _ => accounts_ofExcept _
  | ok => exact (accounts_ofExcept _).mono (List.nil_sublist _)

theorem accounts_compileMerged :
    Accounts m [.unlink (p.temporary .mergedBinary), .unlink (p.temporary .expandedSource),
      .unlink (p.temporary .mergedSource)] p.compileMerged := by
  have hrest : Accounts m [.unlink (p.temporary .expandedSource),
      .unlink (p.temporary .mergedSource)] p.recompile := by
    rw [← expanded_mergedSource]
    exact (accounts_compileChain _).bind fun _ => (accounts_attempt (accounts_compile _ _)).bind
      fun _ => (accounts_remove _).bind fun _ => accounts_ofExcept _
  rw [compileMerged_eq]
  refine (accounts_ask _ _).bind fun there => ?_
  cases there with
  | true => exact (accounts_remove _).bind fun _ => hrest
  | false => exact hrest.mono (List.sublist_cons_self _ _)

theorem accounts_relaunch (tree : Path) : Accounts m [.unlink tree] (p.relaunch tree) := by
  refine (accounts_launch p _).bind fun status => ?_
  dsimp only
  split
  · exact (accounts_remove _).bind fun _ => accounts_pure _
  · exact ((accounts_warn _).bind fun _ => accounts_pure _).mono (List.nil_sublist _)

/-- What a launch may do to the files itself, in order. -/
def operations : List FileOperation :=
  if p.options.overlays = [] then []
  else
    [.unlink (p.temporary .dumpBinary), .write (p.temporary .mergedSource),
      .unlink (p.temporary .dumpSource), .unlink (p.temporary .mergedSource),
      .unlink (p.temporary .mergedBinary), .unlink (p.temporary .expandedSource),
      .unlink (p.temporary .mergedSource), .unlink (p.temporary .mergedBinary)]

theorem accounts_run : Accounts m p.operations p.run := by
  unfold operations
  split
  next h =>
    rw [run_eq_direct h]
    exact accounts_direct p
  next h =>
    rw [run_eq h]
    refine (accounts_dump p).bind fun _ => ?_
    rw [mergeAndRelaunch_eq]
    refine (accounts_mergeOverlays p).bind fun _ => ?_
    -- The name that goes last is that of the binary that the compilation gave.
    refine (accounts_compileMerged p).bind_of_yields (compileMerged_binary p) fun compiled hc => ?_
    rw [hc]
    exact accounts_relaunch p _

/-! ## 2. What the operations change -/

/-- What an operation of a launch does to the files. -/
inductive Leaves (m : Machine) (w w' : World) : FileOperation → Prop where
  /-- The merged source is written where its name leads, be it through a link. -/
  | mergedSource {d : Destination} {text : String} {x : Bool} :
      w.files.walk m.cwd (p.temporary .mergedSource) = .ok d → w.files.branch d.place = none →
      w'.files.find? d.place = some (.file text.toUTF8 w.now x) →
      OnlyAt d.place w.now w.files w'.files →
      Leaves m w w' (.write (p.temporary .mergedSource))
  /-- A temporary name is taken away, even from a link. -/
  | gone {t : Temporary} {dir : Place} {e : Entry} :
      w.files.walkInto m.cwd p.work = .ok dir → w.files.find? (t.place dir) = some e →
      e.branch ≠ some .into → w'.files.find? (t.place dir) = none →
      OnlyAt (t.place dir) w.now w.files w'.files →
      Leaves m w w' (.unlink (p.temporary t))

/-- No temporary name is at the place, nor does a link lead there from the merged source's name. -/
structure Elsewhere (m : Machine) (fs : Files) (k : Place) : Prop where
  unnamed : ∀ (t : Temporary) dir, fs.walkInto m.cwd p.work = .ok dir → k ≠ t.place dir
  untargeted : ∀ target d,
    fs.named? m.cwd (p.temporary .mergedSource) = some (.link target) →
    fs.walk m.cwd (p.temporary .mergedSource) = .ok d → k ≠ d.place

variable {p} {w w' : World} {op : FileOperation}

theorem mem_operations (h : op ∈ p.operations) :
    op = .write (p.temporary .mergedSource) ∨ ∃ t, op = .unlink (p.temporary t) := by
  unfold operations at h
  split at h
  · cases h
  · simp only [List.mem_cons, List.not_mem_nil, or_false] at h
    rcases h with rfl | rfl | rfl | rfl | rfl | rfl | rfl | rfl
    · exact Or.inr ⟨_, rfl⟩
    · exact Or.inl rfl
    all_goals exact Or.inr ⟨_, rfl⟩

theorem leaves_of_happens {e : Event} (h : Happens m w e w') (hown : e.own = some op)
    (hop : op ∈ p.operations) : p.Leaves m w w' op := by
  cases h with
  | ran => cases hown
  | warned => cases hown
  | printed => cases hown
  | wrote hwrite =>
    obtain rfl := Option.some.inj hown
    rcases mem_operations hop with he | ⟨t, he⟩
    · obtain rfl := FileOperation.write.inj he
      obtain ⟨d, x, hwalk, hbranch, hfind, honly⟩ := write_eq_ok hwrite
      exact .mergedSource hwalk hbranch hfind honly
    · cases he
  | removed hunlink =>
    obtain rfl := Option.some.inj hown
    rcases mem_operations hop with he | ⟨t, he⟩
    · cases he
    · obtain rfl := FileOperation.unlink.inj he
      obtain ⟨-, -, dir, e, hdir, hfind, hbranch, rfl⟩ := unlink_eq_ok t.fileName.1 hunlink
      have hgone : (w.files.delete (t.place dir) w.now).find? (t.place dir) = none :=
        (lacks_delete w.files (t.place dir) w.now).1
      exact .gone hdir hfind hbranch hgone (onlyAt_delete w.files _ w.now)

/-- What is elsewhere is neither changed nor taken away, but for the time of a directory. -/
theorem Leaves.elsewhere (h : p.Leaves m w w' op) (hgrounded : w.files.Grounded)
    (hcwd : w.files.branch m.cwd = some .into) {k : Place} {e : Entry}
    (hk : p.Elsewhere m w.files k) (he : w.files.find? k = some e) :
    w'.files.find? k = some e ∨
      (e.branch = some .into ∧ w'.files.find? k = some (.directory w.now)) := by
  cases h with
  | gone hdir _ _ _ honly => exact honly.find?_eq (branch_of_walkInto hdir) he (hk.unnamed _ _ hdir)
  | @mergedSource d _ _ hwalk _ _ honly =>
    refine honly.find?_eq (parent_of_walk hgrounded hcwd hwalk) he ?_
    -- The text is put elsewhere than under the name only if a link stands there.
    by_cases hlink : ∃ target, w.files.named? m.cwd (p.temporary .mergedSource) =
        some (.link target)
    · obtain ⟨target, htarget⟩ := hlink
      exact hk.untargeted target d htarget hwalk
    · obtain ⟨-, dir, hdir, hplace⟩ := place_of_walk hgrounded hcwd
        Temporary.mergedSource.fileName.1 (fun target ht => hlink ⟨target, ht⟩) hwalk
      rw [hplace]
      exact hk.unnamed .mergedSource dir hdir

/-! ## 3. The footprint of a run -/

/-- One event of a launch.  What the launch does itself is done to its own temporaries, and leaves
all else alone. -/
structure Step (p : Pipeline) (m : Machine) (w : World) (e : Event) (w' : World) : Prop where
  happens : Happens m w e w'
  own : ∀ op ∈ e.own, p.Leaves m w w' op
  others : ∀ op ∈ e.own, w.files.Grounded → w.files.branch m.cwd = some .into →
    ∀ k entry, p.Elsewhere m w.files k → w.files.find? k = some entry →
      w'.files.find? k = some entry ∨
        (entry.branch = some .into ∧ w'.files.find? k = some (.directory w.now))

/-- A launch changes files only by the programs that it starts and by operations on its own
temporaries, of which there are none without overlays. -/
theorem run_footprint (p : Pipeline) (m : Machine) (w : World) :
    ∃ es, Replay (p.Step m) w es (p.run.perform m w).2 ∧
      (es.filterMap Event.own).Sublist p.operations := by
  obtain ⟨es, hes, hown⟩ := p.accounts_run (m := m) w
  refine ⟨es, hes.imp fun w₁ e w₂ he hhappens => ?_, hown⟩
  have hleaves : ∀ op ∈ e.own, p.Leaves m w₁ w₂ op := fun op hop =>
    leaves_of_happens hhappens hop (hown.subset (List.mem_filterMap.mpr ⟨e, he, hop⟩))
  exact ⟨hhappens, hleaves, fun op hop hgrounded hcwd k entry hk hentry =>
    (hleaves op hop).elsewhere hgrounded hcwd hk hentry⟩

end Pipeline

end VirtBoard.Launch
