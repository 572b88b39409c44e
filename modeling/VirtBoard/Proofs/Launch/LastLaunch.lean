import VirtBoard.Proofs.Launch.OverlayLaunches

/-!
# The last launch

The last launch of the emulator is the only one without overlays and the one with the merged tree
otherwise.  Its status is the result of all, whatever that status is, as long as what is left to do
after a success succeeds as well.  If the launch is not made then all of it fails.
-/

namespace VirtBoard.Launch.Pipeline

open VirtBoard.Action Board DeviceTree FileSystem Qemu

variable {p : Pipeline} {m : Machine} {w : World} {c : Command}

/-! ## 1. The last launch -/

/-- The options of the last launch. -/
def lastOptions (p : Pipeline) : Options :=
  if p.options.overlays = [] then p.options else p.relaunchOptions (p.temporary .mergedBinary)

/-- What is left to do after the last launch, if that has succeeded, succeeds as well: a tree that
was to be dumped is decompiled, and with overlays the merged tree is removed. -/
def Finishes (p : Pipeline) (m : Machine) (r : Run) (after : List Run) : Prop :=
  if p.options.overlays = [] then p.Decompiled after
  else ∃ files, r.effect.files.unlink m.cwd (p.temporary .mergedBinary) r.effect.now = .ok files

theorem command_ne_relaunch {fs : Files} {j : Job} {c' : Command} (hj : j ≠ .relaunch)
    (h' : p.command? m fs j = some c')
    (h : p.emulator (p.relaunchOptions (p.temporary .mergedBinary)) = some c) : c' ≠ c := by
  have hrelaunch : p.command? m fs .relaunch = some c := h
  rintro rfl
  exact hj ((ofCommand_eq h').symm.trans (ofCommand_eq hrelaunch))

/-- The second launch fails before the emulator runs, or it ends with the status of the run, unless
that is a success and the tree cannot be removed. -/
theorem relaunch_cases (p : Pipeline) (tree : Path) (m : Machine) (w : World) :
    (∃ e w', w'.runs = w.runs ∧ (p.relaunch tree).perform m w = (.error e, w')) ∨
    ∃ c r result w', p.emulator (p.relaunchOptions tree) = some c ∧ r.start.command = c ∧
      w'.runs = w.runs ++ [r] ∧
      Concludes (∃ files, r.effect.files.unlink m.cwd tree r.effect.now = .ok files) r result ∧
      (p.relaunch tree).perform m w = (result, w') := by
  unfold relaunch
  rw [perform_bind]
  rcases perform_launch p (p.relaunchOptions tree) m w with ⟨e, -, h⟩ | ⟨c, w₁, hc, -, hruns, h⟩
  · rw [h]
    exact Or.inl ⟨_, w, rfl, rfl⟩
  rw [h]
  cases hr : shownRun? m w c with
  | none => exact Or.inl ⟨_, w₁, hruns, rfl⟩
  | some r =>
    have hruns' : (w₁.after r).runs = w.runs ++ [r] := by rw [World.runs_after, hruns]
    have hcommand := (started_of_shownRun? hr).command
    dsimp only
    -- Only after a success is the tree removed, and only then can the removal fail.
    by_cases hs : r.effect.status = .success
    · rw [if_pos hs, perform_bind, perform_remove]
      dsimp only [World.files_after, World.now_after]
      cases hunlink : r.effect.files.unlink m.cwd tree r.effect.now with
      | error e =>
        exact Or.inr ⟨c, r, _, _, hc, hcommand, hruns', Or.inr ⟨hs, by simp [hunlink], _, rfl⟩, rfl⟩
      | ok files =>
        refine Or.inr ⟨c, r, _, _, hc, hcommand, ?_, Or.inl ⟨rfl, fun _ => ⟨files, hunlink⟩⟩, rfl⟩
        exact (World.runs_removed _ _).trans hruns'
    · rw [if_neg hs]
      exact Or.inr ⟨c, r, _, _, hc, hcommand, (World.runs_warned _ _).trans hruns',
        Or.inl ⟨rfl, fun h => absurd h hs⟩, rfl⟩

/-! ## 2. How a launch ends -/

/-- The only run of a command among some runs, and what runs before and after it. -/
structure OnlyRun (c : Command) (rs before : List Run) (r : Run) (after : List Run) : Prop where
  runs : rs = before ++ r :: after
  command : r.start.command = c
  others : ∀ r' ∈ before ++ after, r'.start.command ≠ c

/-- A launch fails without the run of a command, or it ends in the way of that run. -/
def EndsWith (p : Pipeline) (m : Machine) (c : Command) (rs : List Run)
    (result : Except Failure ExitStatus) : Prop :=
  ((∀ r ∈ rs, r.start.command ≠ c) ∧ ∃ e, result = .error e) ∨
    ∃ before r after, OnlyRun c rs before r after ∧ Concludes (p.Finishes m r after) r result

theorem decompiles_ne_emulator {o : Options} {r : Run} {after : List Run}
    (h : p.Decompiles r after) (hc : p.emulator o = some c) : ∀ r' ∈ after, r'.start.command ≠ c := by
  rcases h with rfl | ⟨dump, dtc, r', -, -, rfl, hcommand⟩
  · exact fun _ hr' => absurd hr' List.not_mem_nil
  · intro r'' hr'' hsame
    obtain rfl := List.mem_singleton.mp hr''
    have hhead := head_emulator hc
    rw [← hsame, hcommand] at hhead
    exact absurd hhead (by simp [Toolchain.decompileArgs])

/-- Without overlays the emulator runs at most once, and behind it at most the decompiler. -/
theorem direct_ends (hoverlays : p.options.overlays = []) (hc : p.emulator p.lastOptions = some c)
    (m : Machine) (w : World) :
    ∃ rs result w', p.run.perform m w = (result, w') ∧ w'.runs = w.runs ++ rs ∧
      p.EndsWith m c rs result ∧
      (rs = [] ∨ ∃ r after, rs = r :: after ∧ r.start.command = c ∧ p.Decompiles r after) := by
  rw [lastOptions, if_pos hoverlays] at hc
  rw [run_eq_direct hoverlays]
  rcases direct_cases p m w with
    ⟨e, w', hruns, h⟩ | ⟨c', r, after, result, w', hc', hr, hruns, hdecompiles, hresult, h⟩
  · exact ⟨[], _, w', h, by rw [hruns, List.append_nil], Or.inl ⟨by simp, e, rfl⟩, Or.inl rfl⟩
  · obtain rfl := Option.some.inj (hc'.symm.trans hc)
    have hcommand := (started_of_shownRun? hr).command
    refine ⟨r :: after, result, w', h, hruns, Or.inr ⟨[], r, after, ?_, ?_⟩,
      Or.inr ⟨r, after, rfl, hcommand, hdecompiles⟩⟩
    · exact ⟨rfl, hcommand, decompiles_ne_emulator hdecompiles hc⟩
    · rwa [Finishes, if_pos hoverlays]

/-- With overlays the second launch comes last. -/
theorem relaunch_ends (hoverlays : p.options.overlays ≠ []) (hc : p.emulator p.lastOptions = some c)
    (m : Machine) (w : World) :
    ∃ rs result w', p.run.perform m w = (result, w') ∧ w'.runs = w.runs ++ rs ∧
      p.EndsWith m c rs result := by
  rw [lastOptions, if_neg hoverlays] at hc
  rw [run_eq_relaunch hoverlays, perform_bind]
  obtain ⟨done, hdone, hfollows, -⟩ := plays_buildTree (m := m) (w := w) p
  -- What has run so far is the launch that dumps the tree and the tools.
  have hothers : ∀ r ∈ done, r.start.command ≠ c := by
    intro r hr
    obtain ⟨j, hj, hdoes⟩ := hfollows.fits_of_mem r hr
    refine command_ne_relaunch ?_ hdoes hc
    rintro rfl
    exact relaunch_notMem p hj
  rcases hout : p.buildTree.perform m w with ⟨e | compiled, w₁⟩
  · rw [hout] at hdone
    exact ⟨done, _, w₁, rfl, hdone, Or.inl ⟨hothers, e, rfl⟩⟩
  rw [hout] at hdone
  dsimp only at hdone ⊢
  have hbinary : compiled.binary = p.temporary .mergedBinary :=
    buildTree_binary p w compiled (by rw [hout])
  rw [hbinary]
  rcases relaunch_cases p (p.temporary .mergedBinary) m w₁ with
    ⟨e, w', hruns, h⟩ | ⟨c', r, result, w', hc', hcommand, hruns, hresult, h⟩
  · rw [h]
    exact ⟨done, _, w', rfl, hruns.trans hdone, Or.inl ⟨hothers, e, rfl⟩⟩
  · rw [h]
    obtain rfl := Option.some.inj (hc'.symm.trans hc)
    refine ⟨done ++ [r], result, w', rfl, ?_, Or.inr ⟨done, r, [], ⟨rfl, hcommand, ?_⟩, ?_⟩⟩
    · rw [hruns, hdone, List.append_assoc]
    · rwa [List.append_nil]
    · rwa [Finishes, if_neg hoverlays]

end VirtBoard.Launch.Pipeline
