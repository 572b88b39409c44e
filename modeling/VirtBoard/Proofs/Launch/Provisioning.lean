import Mathlib.Data.List.Forall2
import VirtBoard.Launch.Images
import VirtBoard.Proofs.Action.Steps
import VirtBoard.Proofs.FileSystem.Existence

/-!
# Provisioning of disk images

Images are gone through in order.  One that is there when it is reached is passed over, and any
other is made by one run of the image tool, which has to succeed.  If the tool makes what it is
asked for and takes away none of the images, then all of them are there in the end.
-/

namespace VirtBoard.Launch

open VirtBoard.Action FileSystem
open Qemu (DiskImage)

variable {m : Machine}

/-! ## 1. One image -/

/-- A run of the image tool for an image that is missing in a world. -/
structure Makes (m : Machine) (tool image : Path) (w : World) (r : Run) : Prop where
  missing : w.files.exists? m.cwd image = .ok false
  started : shownRun? m w ⟨tool, createArgs image⟩ = some r

theorem perform_ensureImage (dir tool : Path) (d : DiskImage) (w : World) :
    (ensureImage dir tool d).perform m w =
      match w.files.exists? m.cwd (dir.join d.fileName) with
      | .error _ => (.error (.file .check (dir.join d.fileName)), w)
      | .ok true => (.ok none, w)
      | .ok false =>
        match shownRun? m w ⟨tool, createArgs (dir.join d.fileName)⟩ with
        | none => (.error (.notRun tool.text), w)
        | some r =>
          if r.effect.status = .success then (.ok (some (dir.join d.fileName)), w.after r)
          else (.error (.failed "qemu-img" r.effect.status), w.after r) := by
  unfold ensureImage
  rw [perform_bind, perform_ask]
  rcases w.files.exists? m.cwd (dir.join d.fileName) with e | (_ | _)
  · rfl
  · dsimp only
    rw [if_neg (by decide), perform_bind, perform_start]
    cases shownRun? m w ⟨tool, createArgs (dir.join d.fileName)⟩ with
    | none => rfl
    | some r => by_cases hs : r.effect.status = .success <;> simp [hs] <;> rfl
  · rfl

/-- How an image can be the last one: it cannot be told whether it is there, or the image tool does
not start for it or does not succeed. -/
inductive Stops (m : Machine) (tool image : Path) (w : World) :
    Failure → List Run → World → Prop where
  | unknown {e} : w.files.exists? m.cwd image = .error e →
      Stops m tool image w (.file .check image) [] w
  | notStarted : w.files.exists? m.cwd image = .ok false →
      shownRun? m w ⟨tool, createArgs image⟩ = none → Stops m tool image w (.notRun tool.text) [] w
  | failed {r} : Makes m tool image w r → r.effect.status ≠ .success →
      Stops m tool image w (.failed "qemu-img" r.effect.status) [r] (w.after r)

/-- An image is there, it is made, or the provisioning ends with it. -/
theorem ensureImage_cases (dir tool : Path) (d : DiskImage) (m : Machine) (w : World) :
    (w.files.exists? m.cwd (dir.join d.fileName) = .ok true ∧
      (ensureImage dir tool d).perform m w = (.ok none, w)) ∨
    (∃ r, Makes m tool (dir.join d.fileName) w r ∧ r.effect.status = .success ∧
      (ensureImage dir tool d).perform m w = (.ok (some (dir.join d.fileName)), w.after r)) ∨
    ∃ e rs w', Stops m tool (dir.join d.fileName) w e rs w' ∧
      (ensureImage dir tool d).perform m w = (.error e, w') := by
  rw [perform_ensureImage]
  rcases hexists : w.files.exists? m.cwd (dir.join d.fileName) with e | (_ | _)
  · exact Or.inr (Or.inr ⟨_, [], w, .unknown hexists, rfl⟩)
  · dsimp only
    cases hrun : shownRun? m w ⟨tool, createArgs (dir.join d.fileName)⟩ with
    | none => exact Or.inr (Or.inr ⟨_, [], w, .notStarted hexists hrun, rfl⟩)
    | some r =>
      by_cases hs : r.effect.status = .success
      · exact Or.inr (Or.inl ⟨r, ⟨hexists, hrun⟩, hs, if_pos hs⟩)
      · exact Or.inr (Or.inr ⟨_, _, _, .failed ⟨hexists, hrun⟩ hs, if_neg hs⟩)
  · exact Or.inl ⟨rfl, rfl⟩

/-! ## 2. All images -/

/-- What it takes that all images are provided, from one world to another: the runs of the tool, in
the order of the images. -/
inductive Provision (m : Machine) (dir tool : Path) :
    World → List DiskImage → List Run → World → Prop where
  | done {w} : Provision m dir tool w [] [] w
  /-- The image is there when it is reached. -/
  | found {w d ds rs w'} : w.files.exists? m.cwd (dir.join d.fileName) = .ok true →
      Provision m dir tool w ds rs w' → Provision m dir tool w (d :: ds) rs w'
  /-- The image is missing when it is reached, and a run for it succeeds. -/
  | made {w d ds r rs w'} : Makes m tool (dir.join d.fileName) w r → r.effect.status = .success →
      Provision m dir tool (w.after r) ds rs w' → Provision m dir tool w (d :: ds) (r :: rs) w'

section

variable {dir tool : Path} {w w' : World} {d : DiskImage} {ds : List DiskImage} {rs : List Run}

-- Nothing changes the world but the runs.
theorem Provision.world (h : Provision m dir tool w ds rs w') : w' = w.afterAll rs := by
  induction h with
  | done => rfl
  | found _ _ ih => exact ih
  | made _ _ _ ih => exact ih

theorem Provision.runs (h : Provision m dir tool w ds rs w') : w'.runs = w.runs ++ rs := by
  rw [h.world, World.runs_afterAll]

theorem Stops.world {image : Path} {e : Failure} (h : Stops m tool image w e rs w') :
    w' = w.afterAll rs := by
  cases h <;> rfl

/-- A run of the image tool for an image that was missing when the run started. -/
structure CalledFor (m : Machine) (tool image : Path) (r : Run) : Prop where
  command : r.start.command = ⟨tool, createArgs image⟩
  missing : r.start.files.exists? m.cwd image = .ok false

theorem Makes.calledFor {image : Path} {r : Run} (h : Makes m tool image w r) :
    CalledFor m tool image r where
  command := (started_of_shownRun? h.started).command
  missing := by rw [(started_of_shownRun? h.started).files]; exact h.missing

/-- A run of the image tool for one of some disks, whose image was missing when the run started. -/
def Supplies (m : Machine) (dir tool : Path) (ds : List DiskImage) (r : Run) : Prop :=
  ∃ d ∈ ds, r.start.command = ⟨tool, createArgs (dir.join d.fileName)⟩ ∧
    r.start.files.exists? m.cwd (dir.join d.fileName) = .ok false

theorem Makes.supplies {r : Run} (h : Makes m tool (dir.join d.fileName) w r) (hd : d ∈ ds) :
    Supplies m dir tool ds r :=
  ⟨d, hd, h.calledFor.command, h.calledFor.missing⟩

theorem Supplies.mono {es : List DiskImage} {r : Run} (h : Supplies m dir tool ds r)
    (hsub : ∀ d ∈ ds, d ∈ es) : Supplies m dir tool es r := by
  obtain ⟨d, hd, hcommand⟩ := h
  exact ⟨d, hsub d hd, hcommand⟩

theorem Provision.supplies (h : Provision m dir tool w ds rs w') :
    ∀ r ∈ rs, Supplies m dir tool ds r ∧ r.effect.status = .success := by
  induction h with
  | done => exact fun _ hr => absurd hr List.not_mem_nil
  | found _ _ ih =>
    exact fun r hr => ⟨(ih r hr).1.mono fun _ => List.mem_cons_of_mem _, (ih r hr).2⟩
  | made hmakes hs _ ih =>
    intro r hr
    rcases List.mem_cons.mp hr with rfl | hr
    · exact ⟨hmakes.supplies List.mem_cons_self, hs⟩
    · exact ⟨(ih r hr).1.mono fun _ => List.mem_cons_of_mem _, (ih r hr).2⟩

theorem Stops.supplies {e : Failure} (h : Stops m tool (dir.join d.fileName) w e rs w')
    (hd : d ∈ ds) : ∀ r ∈ rs, Supplies m dir tool ds r := by
  cases h with
  | unknown _ => exact fun _ hr => absurd hr List.not_mem_nil
  | notStarted _ _ => exact fun _ hr => absurd hr List.not_mem_nil
  | failed hmakes _ =>
    intro r hr
    rw [List.mem_singleton.mp hr]
    exact hmakes.supplies hd

end

/-- All images are provided, or all up to one for which the provisioning ends.  The images that were
made are those that the tool was called for. -/
theorem mapM_ensureImage_cases (dir tool : Path) (ds : List DiskImage) (m : Machine) (w : World) :
    (∃ made rs w', Provision m dir tool w ds rs w' ∧
      List.Forall₂ (CalledFor m tool) (made.filterMap id) rs ∧
      (ds.mapM (ensureImage dir tool)).perform m w = (.ok made, w')) ∨
    ∃ e pre d post before last w₁ w', ds = pre ++ d :: post ∧
      Provision m dir tool w pre before w₁ ∧ Stops m tool (dir.join d.fileName) w₁ e last w' ∧
      (ds.mapM (ensureImage dir tool)).perform m w = (.error e, w') := by
  induction ds generalizing w with
  | nil => exact Or.inl ⟨[], [], w, .done, .nil, rfl⟩
  | cons d ds ih =>
    simp only [List.mapM_cons, perform_bind]
    rcases ensureImage_cases dir tool d m w with
      ⟨hfound, h⟩ | ⟨r, hmakes, hs, h⟩ | ⟨e, rs, w', hstops, h⟩
    · rw [h]
      rcases ih w with ⟨made, rs, w', hall, hmade, h'⟩ |
        ⟨e, pre, d', post, before, last, w₁, w', rfl, hpre, hstops, h'⟩
      · exact Or.inl ⟨none :: made, rs, w', .found hfound hall, hmade, by simp only [h']; rfl⟩
      · exact Or.inr ⟨e, d :: pre, d', post, before, last, w₁, w', rfl, .found hfound hpre, hstops,
          by simp only [h']⟩
    · rw [h]
      rcases ih (w.after r) with ⟨made, rs, w', hall, hmade, h'⟩ |
        ⟨e, pre, d', post, before, last, w₁, w', rfl, hpre, hstops, h'⟩
      · exact Or.inl ⟨some (dir.join d.fileName) :: made, r :: rs, w', .made hmakes hs hall,
          .cons hmakes.calledFor hmade, by simp only [h']; rfl⟩
      · exact Or.inr ⟨e, d :: pre, d', post, r :: before, last, w₁, w', rfl, .made hmakes hs hpre,
          hstops, by simp only [h']⟩
    · rw [h]
      exact Or.inr ⟨e, [], d, ds, [], rs, w, w', rfl, .done, hstops, rfl⟩

/-- What is returned are the images that were made, in order. -/
theorem ensureImages_ends (dir tool : Path) (ds : List DiskImage) (m : Machine) (w : World) :
    (∃ made rs w', Provision m dir tool w ds rs w' ∧ List.Forall₂ (CalledFor m tool) made rs ∧
      (ensureImages dir tool ds).perform m w = (.ok made, w')) ∨
    ∃ e pre d post before last w₁ w', ds = pre ++ d :: post ∧
      Provision m dir tool w pre before w₁ ∧ Stops m tool (dir.join d.fileName) w₁ e last w' ∧
      (ensureImages dir tool ds).perform m w = (.error e, w') := by
  unfold ensureImages
  simp only [perform_bind]
  rcases mapM_ensureImage_cases dir tool ds m w with ⟨made, rs, w', hall, hmade, h⟩ |
    ⟨e, pre, d, post, before, last, w₁, w', hds, hpre, hstops, h⟩
  · exact Or.inl ⟨_, rs, w', hall, hmade, by simp only [h]; rfl⟩
  · exact Or.inr ⟨e, pre, d, post, before, last, w₁, w', hds, hpre, hstops, by simp only [h]⟩

/-- The runs of a provisioning that may have ended early. -/
theorem ensureImages_cases (dir tool : Path) (ds : List DiskImage) (m : Machine) (w : World) :
    (∃ made rs w', Provision m dir tool w ds rs w' ∧
      (ensureImages dir tool ds).perform m w = (.ok made, w')) ∨
    ∃ e rs w', w'.runs = w.runs ++ rs ∧ (∀ r ∈ rs, Supplies m dir tool ds r) ∧
      (ensureImages dir tool ds).perform m w = (.error e, w') := by
  rcases ensureImages_ends dir tool ds m w with ⟨made, rs, w', hall, -, h⟩ |
    ⟨e, pre, d, post, before, last, w₁, w', rfl, hpre, hstops, h⟩
  · exact Or.inl ⟨made, rs, w', hall, h⟩
  · refine Or.inr ⟨e, before ++ last, w', ?_, fun r hr => ?_, h⟩
    · rw [hstops.world, World.runs_afterAll, hpre.runs, List.append_assoc]
    · rcases List.mem_append.mp hr with hr | hr
      · exact (hpre.supplies r hr).1.mono fun _ => List.mem_append_left _
      · exact hstops.supplies (List.mem_append_right _ List.mem_cons_self) r hr

/-! ## 3. Images in the end -/

/-- The image tool makes each of some images that it says it has made, and takes away none of
them. -/
structure Tooled (m : Machine) (tool : Path) (images : List Path) : Prop where
  creates : ∀ before start effect, ∀ image ∈ images, start.command = ⟨tool, createArgs image⟩ →
    m.programs before start = some effect → effect.status = .success →
    effect.files.exists? m.cwd image = .ok true
  keeps : ∀ before start effect, ∀ image ∈ images, start.command = ⟨tool, createArgs image⟩ →
    m.programs before start = some effect → ∀ other ∈ images,
    start.files.exists? m.cwd other = .ok true → effect.files.exists? m.cwd other = .ok true

section

variable {dir tool : Path} {w w' : World} {ds : List DiskImage} {rs : List Run}

/-- An image that is there stays there while others are provided. -/
theorem Provision.keeps {images : List Path} (htool : Tooled m tool images)
    (h : Provision m dir tool w ds rs w') (hds : ∀ d ∈ ds, dir.join d.fileName ∈ images)
    {image : Path} (himage : image ∈ images) (hexists : w.files.exists? m.cwd image = .ok true) :
    w'.files.exists? m.cwd image = .ok true := by
  induction h with
  | done => exact hexists
  | found _ _ ih => exact ih (fun d hd => hds d (List.mem_cons_of_mem _ hd)) hexists
  | made hmakes _ _ ih =>
    have hstarted := started_of_shownRun? hmakes.started
    refine ih (fun d hd => hds d (List.mem_cons_of_mem _ hd)) ?_
    refine htool.keeps _ _ _ _ (hds _ List.mem_cons_self) hstarted.command hstarted.effect image
      himage ?_
    rw [hstarted.files]
    exact hexists

theorem Provision.exists {images : List Path} (htool : Tooled m tool images)
    (h : Provision m dir tool w ds rs w') (hds : ∀ d ∈ ds, dir.join d.fileName ∈ images) :
    ∀ d ∈ ds, w'.files.exists? m.cwd (dir.join d.fileName) = .ok true := by
  induction h with
  | done => exact fun _ hd => absurd hd List.not_mem_nil
  | found hfound hrest ih =>
    have hrestIn := fun d hd => hds d (List.mem_cons_of_mem _ hd)
    intro d hd
    rcases List.mem_cons.mp hd with rfl | hd
    · exact hrest.keeps htool hrestIn (hds _ List.mem_cons_self) hfound
    · exact ih hrestIn d hd
  | made hmakes hs hrest ih =>
    have hrestIn := fun d hd => hds d (List.mem_cons_of_mem _ hd)
    have hstarted := started_of_shownRun? hmakes.started
    intro d hd
    rcases List.mem_cons.mp hd with rfl | hd
    · refine hrest.keeps htool hrestIn (hds _ List.mem_cons_self) ?_
      exact htool.creates _ _ _ _ (hds _ List.mem_cons_self) hstarted.command hstarted.effect hs
    · exact ih hrestIn d hd

/-- After a provisioning that has ended well, every image is there. -/
theorem ensureImages_exists {made : List Path}
    (htool : Tooled m tool (ds.map fun d => dir.join d.fileName))
    (h : (ensureImages dir tool ds).perform m w = (.ok made, w')) :
    ∀ d ∈ ds, w'.files.exists? m.cwd (dir.join d.fileName) = .ok true := by
  rcases ensureImages_cases dir tool ds m w with
    ⟨made', rs, w'', hall, h'⟩ | ⟨e, rs, w'', -, -, h'⟩
  · obtain ⟨-, rfl⟩ := Prod.mk.inj (h'.symm.trans h)
    exact hall.exists htool fun d hd => List.mem_map_of_mem hd
  · cases h'.symm.trans h

end

/-! ## 4. A board with plain programs

A machine with an emulator of release 8.2.0 and an image tool, and a directory for the board. -/

/-- The image tool writes an empty file and looks whether it is there. -/
def createImage (start : Start) (image : Path) : Effect :=
  match start.files.write ["board"] image .empty start.now with
  | .error _ => ⟨start.files, start.now, .exited 1, .empty⟩
  | .ok files =>
    match files.exists? ["board"] image with
    | .ok true => ⟨files, start.now, .success, .empty⟩
    | _ => ⟨files, start.now, .exited 1, .empty⟩

def boardMachine : Machine where
  cwd := ["board"]
  searchPath := [⟨"/bin"⟩]
  programs _ start :=
    match start.command.args with
    | ["--version"] =>
      some ⟨start.files, start.now, .success, "QEMU emulator version 8.2.0\n".toUTF8⟩
    | ["create", _, _, image, _] => some (createImage start ⟨image⟩)
    | _ => some ⟨start.files, start.now, .success, .empty⟩

/-- The programs, the board's directory and another one for images. -/
def boardWorld : World where
  files := ⟨[([], .directory default), (["board"], .directory default),
    (["images"], .directory default), (["bin"], .directory default),
    (["qemu-system-aarch64", "bin"], .file .empty default true),
    (["qemu-img", "bin"], .file .empty default true)]⟩
  now := default
  journal := []

theorem createImage_keeps (start : Start) (image : Path) :
    Keeps start.files (createImage start image).files := by
  unfold createImage
  split
  next => exact .refl _
  next hwrite => split <;> exact keeps_write hwrite

theorem createImage_creates {start : Start} {image : Path}
    (h : (createImage start image).status = .success) :
    (createImage start image).files.exists? ["board"] image = .ok true := by
  unfold createImage at h ⊢
  split at h
  next => cases h
  next =>
    split at h
    next hexists => exact hexists
    next => cases h

theorem boardMachine_tooled (tool : Path) (images : List Path) :
    Tooled boardMachine tool images where
  creates := by
    intro before start effect image _ hcommand heffect hs
    simp only [boardMachine, hcommand, createArgs, Option.some.injEq] at heffect
    rw [← heffect] at hs ⊢
    exact createImage_creates hs
  keeps := by
    intro before start effect image _ hcommand heffect other _ hexists
    simp only [boardMachine, hcommand, createArgs, Option.some.injEq] at heffect
    rw [← heffect]
    exact (createImage_keeps start image).exists hexists

end VirtBoard.Launch
