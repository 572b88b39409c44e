import VirtBoard.Proofs.CommandLine.Preparation
import VirtBoard.Proofs.Launch.Footprint
import VirtBoard.Proofs.Launch.Provisioning

/-!
# The order of the launcher's effects

A run of the launcher starts programs in three parts: the emulator is asked for its release, missing
images are made, and the board is launched.  Each part needs the whole success of the one before it,
and a run that ends before the second part has not changed any file itself.
-/

namespace VirtBoard.CommandLine.Launcher

open VirtBoard.Action Board FileSystem Launch Qemu

variable {m : Machine} {w : World}

/-! ## 1. How the second part ends -/

/-- The root of the system's sources, as it is found. -/
def sourceRoot (s : Settings) (m : Machine) : Path :=
  s.root.getD ((m.cwd.path.join ⟨".."⟩).join ⟨".."⟩)

theorem perform_sourceRoot (s : Settings) :
    (DeviceTree.sourceRoot s.root).perform m w = (.ok (sourceRoot s m), w) := by
  unfold sourceRoot DeviceTree.sourceRoot
  cases s.root <;> rfl

/-- The launch of the board. -/
def pipeline (s : Settings) (m : Machine) (x : Plan) : Pipeline :=
  ⟨x.options, x.selection, x.environment, m.cwd.path,
    ⟨sourceRoot s m, s.compiler, s.preprocessor⟩⟩

/-- The images may not be provided, or all of them are and the board is launched. -/
theorem boot_cases (s : Settings) (x : Plan) (m : Machine) (w : World) :
    (∃ e, m.which w.files s.qemuImg = none ∧ (boot s x).perform m w = (.error e, w)) ∨
    ∃ tool, m.which w.files s.qemuImg = some tool ∧
      ((∃ e rs w', w'.runs = w.runs ++ rs ∧
          (∀ r ∈ rs, Supplies m m.cwd.path tool x.invocation.disks r) ∧
          (boot s x).perform m w = (.error e, w')) ∨
        ∃ rs w₂, Provision m m.cwd.path tool w x.invocation.disks rs w₂ ∧
          (boot s x).perform m w = (((pipeline s m x).run.perform m w₂).1.map exitCode,
            ((pipeline s m x).run.perform m w₂).2)) := by
  unfold boot
  simp only [perform_bind, perform_machine, perform_which]
  cases htool : m.which w.files s.qemuImg with
  | none => exact Or.inl ⟨_, rfl, rfl⟩
  | some tool =>
    refine Or.inr ⟨tool, rfl, ?_⟩
    dsimp only
    rcases ensureImages_cases m.cwd.path tool x.invocation.disks m w with
      ⟨made, rs, w₂, hall, h⟩ | ⟨e, rs, w', hruns, hsupplies, h⟩
    · rw [h]
      refine Or.inr ⟨rs, w₂, hall, ?_⟩
      dsimp only
      rw [perform_sourceRoot]
      exact (perform_bind _ _ m w₂).symm.trans (perform_bind_pure (pipeline s m x).run exitCode)
    · rw [h]
      exact Or.inl ⟨e, rs, w', hruns, hsupplies, rfl⟩

/-! ## 2. The parts of a run -/

/-- The programs that a run of the launcher starts, part by part, and the plan behind the last two
parts. -/
structure Course where
  query : Option Run := none
  plan : Option Plan := none
  images : List Run := []
  launches : List Run := []

/-- The files once the emulator was asked. -/
def Course.asked (c : Course) (w : World) : Files :=
  (c.query.map (·.effect.files)).getD w.files

/-- The effects that a run of the launcher may have, and their order. -/
structure Permitted (s : Settings) (o : Options) (sel : Selection) (m : Machine) (w w' : World)
    (c : Course) : Prop where
  /-- Nothing runs but the three parts, one after the other. -/
  runs : w'.runs = w.runs ++ c.query.toList ++ c.images ++ c.launches
  /-- First the emulator is asked, with the files still as they were. -/
  query : ∀ r, c.query = some r → ∃ qemu, Asks s m w qemu r
  /-- Without a usable answer, and in a dry run, this is all. -/
  stops : (∀ r, c.query = some r → ¬Usable sel r) ∨ s.dryRun = true →
    c.images = [] ∧ c.launches = [] ∧ w'.files = c.asked w
  /-- The plan is that for the answer. -/
  plan : ∀ x, c.plan = some x → ∃ qemu r, c.query = some r ∧ Asks s m w qemu r ∧
    Settles s m o sel qemu r x
  /-- Then images of the plan are made that were missing when they were reached. -/
  images : ∀ r ∈ c.images, ∃ x tool, c.plan = some x ∧ m.which (c.asked w) s.qemuImg = some tool ∧
    Supplies m m.cwd.path tool x.invocation.disks r
  /-- The board is launched only once every image was there when it was reached or was made by a run
  that succeeded. -/
  launches : c.launches ≠ [] → ∃ x tool w₁ w₂, c.plan = some x ∧
    m.which (c.asked w) s.qemuImg = some tool ∧
    w₁.files = c.asked w ∧ w₁.runs = w.runs ++ c.query.toList ∧
    Provision m m.cwd.path tool w₁ x.invocation.disks c.images w₂ ∧
    ((pipeline s m x).run.perform m w₂).2 = w'
  /-- Without the image tool it is not launched. -/
  toolless : m.which (c.asked w) s.qemuImg = none → c.launches = []
  /-- After a run of the image tool that failed it is not launched. -/
  failed : ∀ r ∈ c.images, r.effect.status ≠ .success → c.launches = []

section

variable {s : Settings} {o : Options} {sel : Selection} {w' : World}

/-- A run that ends before any image is looked for. -/
theorem permitted_of_early {q : Option Run} (hquery : ∀ r, q = some r → ∃ qemu, Asks s m w qemu r)
    (hruns : w'.runs = w.runs ++ q.toList) (hfiles : w'.files = (Course.mk q none [] []).asked w) :
    Permitted s o sel m w w' { query := q } where
  runs := by simpa using hruns
  query := hquery
  stops _ := ⟨rfl, rfl, hfiles⟩
  plan _ hx := by cases hx
  images _ hr := absurd hr List.not_mem_nil
  launches h := absurd rfl h
  toolless _ := rfl
  failed _ hr := absurd hr List.not_mem_nil

variable {qemu : Path} {r : Run} {x : Plan} {w₁ : World}

theorem query_of_asks (h : Asks s m w qemu r) :
    ∀ r', some r = some r' → ∃ qemu, Asks s m w qemu r' := by
  rintro _ ⟨⟩
  exact ⟨qemu, h⟩

/-- What the launcher does with a plan. -/
theorem permitted_of_booted (hasks : Asks s m w qemu r) (hx : Settles s m o sel qemu r x)
    (hdry : s.dryRun = false) (hfiles : w₁.files = r.effect.files)
    (hruns : w₁.runs = w.runs ++ [r]) :
    ∃ c, Permitted s o sel m w ((boot s x).perform m w₁).2 c := by
  -- The plan shows that the answer was usable, so there is no reason to stop.
  have hgoes : ¬((∀ r', some r = some r' → ¬Usable sel r') ∨ s.dryRun = true) := by
    rintro (hno | hyes)
    · exact hno r rfl hx.usable
    · rw [hdry] at hyes
      cases hyes
  have hplan : ∀ x', some x = some x' → ∃ qemu r', some r = some r' ∧ Asks s m w qemu r' ∧
      Settles s m o sel qemu r' x' := by
    rintro _ ⟨⟩
    exact ⟨qemu, r, rfl, hasks, hx⟩
  rcases boot_cases s x m w₁ with ⟨e, -, h⟩ | ⟨tool, htool, h⟩
  · rw [h]
    exact ⟨_, permitted_of_early (query_of_asks hasks) hruns hfiles⟩
  rw [hfiles] at htool
  rcases h with ⟨e, rs, w', hrs, hsupplies, h⟩ | ⟨rs, w₂, hall, h⟩
  · -- Not all images could be provided.
    rw [h]
    refine ⟨⟨some r, some x, rs, []⟩, {
      runs := by rw [hrs, hruns]; simp
      query := query_of_asks hasks
      stops := fun hstop => absurd hstop hgoes
      plan := hplan
      images := fun r' hr' => ⟨x, tool, rfl, htool, hsupplies r' hr'⟩
      launches := fun hne => absurd rfl hne
      toolless := fun _ => rfl
      failed := fun _ _ _ => rfl }⟩
  · rw [h]
    obtain ⟨launches, hlaunches⟩ := ((pipeline s m x).accounts_run (m := m)).runs w₂
    refine ⟨⟨some r, some x, rs, launches⟩, {
      runs := by rw [← hlaunches, hall.runs, hruns]; simp
      query := query_of_asks hasks
      stops := fun hstop => absurd hstop hgoes
      plan := hplan
      images := fun r' hr' => ⟨x, tool, rfl, htool, (hall.supplies r' hr').1⟩
      launches := fun _ => ⟨x, tool, w₁, w₂, rfl, htool, hfiles, hruns, hall, rfl⟩
      toolless := fun hnone => absurd (htool.symm.trans hnone) (by simp)
      failed := fun r' hr' hne => absurd (hall.supplies r' hr').2 hne }⟩

end

/-! ## 3. Every run -/

/-- Whatever the arguments, the files and the other programs, the launcher does what it does in one
order.  Flags that are not in order are refused with exit code 1 before anything is done. -/
theorem effects_in_order {envRoot : Option String} {args : List String} {code : Nat} {w' : World}
    (h : outcome? envRoot args m w = some (code, w')) :
    (read envRoot args = .help ∧ code = 0 ∧ w' = w) ∨
    ∃ s, read envRoot args = .run s ∧
      ((∀ o sel, Options.parse s.flags = .ok o → Selection.resolve o ≠ .ok sel) →
        code = 1 ∧ w' = w) ∧
      ∀ o sel, Options.parse s.flags = .ok o → Selection.resolve o = .ok sel →
        ∃ c, Permitted s o sel m w w' c := by
  unfold outcome? at h
  split at h
  next => cases h
  next hread =>
    obtain ⟨rfl, rfl⟩ := Prod.mk.inj (Option.some.inj h)
    exact Or.inl ⟨hread, rfl, rfl⟩
  next s hread =>
    obtain ⟨rfl, rfl⟩ := Prod.mk.inj (Option.some.inj h)
    refine Or.inr ⟨s, hread, fun hrefused => ?_, fun o sel hparse hresolve => ?_⟩
    · obtain ⟨e, he⟩ := perform_prepare_refused (m := m) (w := w) hrefused
      rw [run_eq, perform_bind, he]
      exact ⟨rfl, rfl⟩
    · rw [run_eq, perform_bind, prepare_eq hparse hresolve]
      rcases inquire_cases s o sel m w with
        ⟨e, he⟩ | ⟨qemu, r, hasks, ⟨e, -, he⟩ | ⟨x, w₁, hx, hfiles, hruns, -, hx₁⟩⟩
      · rw [he]
        have hnone : ∀ r, none = some r → ∃ qemu, Asks s m w qemu r := fun _ hr => by cases hr
        exact ⟨_, permitted_of_early hnone (List.append_nil _).symm rfl⟩
      · rw [he]
        exact ⟨_, permitted_of_early (query_of_asks hasks) (World.runs_after w r) rfl⟩
      · rw [hx₁]
        dsimp only
        cases hdry : s.dryRun with
        | true =>
          exact ⟨_, permitted_of_early (query_of_asks hasks)
            ((World.runs_printed w₁ _).trans hruns) hfiles⟩
        | false => exact permitted_of_booted hasks hx hdry hfiles hruns

/-- The third image would be in a directory that does not exist. -/
def misplaced : Settings := { flags := ["-flash", "/nowhere/flash"] }

theorem misplaced_image_stops_the_launch :
    ∃ w' c, outcome? none misplaced.flags boardMachine boardWorld = some (1, w') ∧
      w'.runs.map (fun r => (r.start.command.args.head?, r.effect.status)) =
        [(some "--version", .success), (some "create", .success), (some "create", .success),
          (some "create", .exited 1)] ∧
      Permitted misplaced { flash := "/nowhere/flash" } ⟨.version 2, .el1, .smmu, .hda⟩
        boardMachine boardWorld w' c := by
  have hread : read none misplaced.flags = .run misplaced := by rfl
  have hended : resultCode ((run misplaced).perform boardMachine boardWorld).1 = 1 ∧
      ((run misplaced).perform boardMachine boardWorld).2.runs.map
        (fun r => (r.start.command.args.head?, r.effect.status)) =
          [(some "--version", .success), (some "create", .success), (some "create", .success),
            (some "create", .exited 1)] := by
    decide +kernel
  have houtcome : outcome? none misplaced.flags boardMachine boardWorld =
      some (1, ((run misplaced).perform boardMachine boardWorld).2) := by
    rw [outcome?, hread, ← hended.1]
  have hparse : Options.parse misplaced.flags = .ok { flash := "/nowhere/flash" } := by
    decide +kernel
  rcases effects_in_order houtcome with ⟨hhelp, -⟩ | ⟨s, hs, -, hall⟩
  · cases hhelp.symm.trans hread
  · obtain rfl := Request.run.inj (hs.symm.trans hread)
    obtain ⟨c, hc⟩ := hall _ _ hparse rfl
    exact ⟨_, c, houtcome, hended.2, hc⟩

end VirtBoard.CommandLine.Launcher
