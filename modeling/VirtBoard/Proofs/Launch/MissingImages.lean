import VirtBoard.Proofs.Launch.Provisioning

/-!
# Missing images are made once

The check of an image and the making of another one take turns, so an image that was missing may be
there when its disk's turn comes, because another disk has the same image under this or another
name.  Whatever the tool does, it is called for nothing that is there and for nothing behind the
first failure.  If it makes what it is asked for and takes nothing away, then no image is made twice.
-/

namespace VirtBoard.Launch

open VirtBoard.Action FileSystem
open Qemu (DiskImage)

variable {m : Machine} {dir tool : Path} {w w' : World} {ds : List DiskImage} {rs : List Run}

/-! ## 1. What the tool is called for -/

theorem Provision.calledFor (h : Provision m dir tool w ds rs w') :
    ∃ images, List.Forall₂ (CalledFor m tool) images rs := by
  induction h with
  | done => exact ⟨[], .nil⟩
  | found _ _ ih => exact ih
  | made hmakes _ _ ih =>
    obtain ⟨images, himages⟩ := ih
    exact ⟨_ :: images, .cons hmakes.calledFor himages⟩

theorem Stops.calledFor {image : Path} {e : Failure} (h : Stops m tool image w e rs w') :
    ∃ images, List.Forall₂ (CalledFor m tool) images rs ∧ images.Nodup ∧
      ∀ image ∈ images, w.files.exists? m.cwd image = .ok false := by
  cases h with
  | unknown _ => exact ⟨[], .nil, List.nodup_nil, by simp⟩
  | notStarted _ _ => exact ⟨[], .nil, List.nodup_nil, by simp⟩
  | failed hmakes _ =>
    exact ⟨[image], .cons hmakes.calledFor .nil, List.pairwise_singleton _ image,
      by simpa using hmakes.missing⟩

/-! ## 2. A tool that makes what it is asked for -/

/-- The runs of the image tool that succeed make what they are asked for and take nothing away. -/
def Creating (m : Machine) (tool : Path) (rs : List Run) : Prop :=
  ∀ r ∈ rs, ∀ image, r.start.command = ⟨tool, createArgs image⟩ → r.effect.status = .success →
    r.effect.files.exists? m.cwd image = .ok true ∧ Keeps r.start.files r.effect.files

-- From the last run to the first, with the images behind them that are still missing.
theorem Provision.fresh (h : Provision m dir tool w ds rs w') (hcreating : Creating m tool rs)
    {passed later : List Path} (hpassed : List.Forall₂ (CalledFor m tool) passed rs)
    (hlater : later.Nodup) (hmissing : ∀ image ∈ later, w'.files.exists? m.cwd image = .ok false) :
    (passed ++ later).Nodup ∧
      ∀ image ∈ passed ++ later, w.files.exists? m.cwd image = .ok false := by
  induction h generalizing passed with
  | done =>
    cases hpassed
    exact ⟨hlater, hmissing⟩
  | found _ _ ih => exact ih hcreating hpassed hmissing
  | made hmakes hs _ ih =>
    -- The image is there after its run, so none of those that are missing then is this one.
    obtain _ | ⟨hcalled, hpassed⟩ := hpassed
    obtain ⟨hnodup, hrest⟩ :=
      ih (fun r hr => hcreating r (List.mem_cons_of_mem _ hr)) hpassed hmissing
    obtain ⟨hthere, hkeeps⟩ := hcreating _ List.mem_cons_self _ hcalled.command hs
    have hmissed := hcalled.missing
    rw [(started_of_shownRun? hmakes.started).files] at hkeeps hmissed
    refine ⟨List.nodup_cons.mpr ⟨fun hmem => ?_, hnodup⟩, List.forall_mem_cons.mpr ⟨hmissed, ?_⟩⟩
    · cases hthere.symm.trans (hrest _ hmem)
    · exact fun image hmem => hkeeps.missing (hrest image hmem)

theorem Provision.creating_keeps (h : Provision m dir tool w ds rs w')
    (hcreating : Creating m tool rs) : Keeps w.files w'.files := by
  induction h with
  | done => exact .refl _
  | found _ _ ih => exact ih hcreating
  | made hmakes hs _ ih =>
    have hstarted := started_of_shownRun? hmakes.started
    have hkeeps := (hcreating _ List.mem_cons_self _ hstarted.command hs).2
    rw [hstarted.files] at hkeeps
    exact hkeeps.trans (ih fun r hr => hcreating r (List.mem_cons_of_mem _ hr))

theorem Provision.all_exist (h : Provision m dir tool w ds rs w') (hcreating : Creating m tool rs) :
    ∀ d ∈ ds, w'.files.exists? m.cwd (dir.join d.fileName) = .ok true := by
  induction h with
  | done => exact fun _ hd => absurd hd List.not_mem_nil
  | found hfound hrest ih =>
    exact List.forall_mem_cons.mpr ⟨(hrest.creating_keeps hcreating).exists hfound, ih hcreating⟩
  | made hmakes hs hrest ih =>
    have hcreating' := fun r hr => hcreating r (List.mem_cons_of_mem _ hr)
    have hcommand := (started_of_shownRun? hmakes.started).command
    have hthere := (hcreating _ List.mem_cons_self _ hcommand hs).1
    exact List.forall_mem_cons.mpr
      ⟨(hrest.creating_keeps hcreating').exists hthere, ih hcreating'⟩

/-! ## 3. Every provisioning -/

/-- What a provisioning does is to call the image tool, in the order of the disks and for images that
were missing when their turn came.  It returns those images, or it stops at the first check or call
that fails.  With a tool that makes what it is asked for and takes nothing away, no image is asked
for twice and none that was there at the start, and in the end all images are there. -/
theorem missing_images_are_made_once (m : Machine) (dir tool : Path) (ds : List DiskImage)
    (w : World) :
    ∃ result w' passed rs, (ensureImages dir tool ds).perform m w = (result, w') ∧
      w' = w.afterAll rs ∧ List.Forall₂ (CalledFor m tool) passed rs ∧
      (∀ made, result = .ok made → made = passed ∧ Provision m dir tool w ds rs w') ∧
      (∀ e, result = .error e → ∃ pre d post before last w₁, ds = pre ++ d :: post ∧
        rs = before ++ last ∧ Provision m dir tool w pre before w₁ ∧
        Stops m tool (dir.join d.fileName) w₁ e last w') ∧
      (Creating m tool rs → passed.Nodup ∧
        (∀ image ∈ passed, w.files.exists? m.cwd image = .ok false) ∧
        ∀ made, result = .ok made →
          ∀ d ∈ ds, w'.files.exists? m.cwd (dir.join d.fileName) = .ok true) := by
  rcases ensureImages_ends dir tool ds m w with ⟨made, rs, w', hall, hmade, h⟩ |
    ⟨e, pre, d, post, before, last, w₁, w', hds, hpre, hstops, h⟩
  · refine ⟨_, w', made, rs, h, hall.world, hmade, ?_, ?_, fun hcreating => ?_⟩
    · rintro _ ⟨⟩
      exact ⟨rfl, hall⟩
    · rintro _ ⟨⟩
    · have hfresh := hall.fresh hcreating hmade List.nodup_nil (by simp)
      rw [List.append_nil] at hfresh
      exact ⟨hfresh.1, hfresh.2, fun _ _ => hall.all_exist hcreating⟩
  · -- Stopped at a disk: at most one more image is asked for, and it was missing until then.
    obtain ⟨passed, hpassed⟩ := hpre.calledFor
    obtain ⟨more, hmore, hnodup, hmissing⟩ := hstops.calledFor
    refine ⟨_, w', passed ++ more, before ++ last, h, ?_, List.rel_append hpassed hmore, ?_, ?_,
      fun hcreating => ?_⟩
    · rw [hstops.world, hpre.world, World.afterAll_append]
    · rintro _ ⟨⟩
    · rintro _ ⟨⟩
      exact ⟨pre, d, post, before, last, w₁, hds, rfl, hpre, hstops⟩
    · have hfirst := fun r hr => hcreating r (List.mem_append_left _ hr)
      obtain ⟨hnodup, hstart⟩ := hpre.fresh hfirst hpassed hnodup hmissing
      exact ⟨hnodup, hstart, by rintro _ ⟨⟩⟩

/-- Five disks on two images. -/
def aliases : List DiskImage :=
  [⟨"block", "a"⟩, ⟨"scsi", "./a"⟩, ⟨"flash", "b"⟩, ⟨"emmc", "/images/../board/a"⟩, ⟨"nvme", "b"⟩]

theorem Provision.effects (h : Provision m dir tool w ds rs w') :
    ∀ r ∈ rs, ∃ before, m.programs before r.start = some r.effect := by
  induction h with
  | done => exact fun _ hr => absurd hr List.not_mem_nil
  | found _ _ ih => exact ih
  | made hmakes _ _ ih =>
    exact List.forall_mem_cons.mpr ⟨⟨_, (started_of_shownRun? hmakes.started).effect⟩, ih⟩

theorem boardMachine_creating (tool : Path)
    (heffects : ∀ r ∈ rs, ∃ before, boardMachine.programs before r.start = some r.effect) :
    Creating boardMachine tool rs := by
  intro r hr image hcommand hs
  obtain ⟨before, heffect⟩ := heffects r hr
  simp only [boardMachine, hcommand, createArgs, Option.some.injEq] at heffect
  rw [← heffect] at hs ⊢
  exact ⟨createImage_creates hs, createImage_keeps r.start ⟨image.text⟩⟩

theorem aliases_are_made_once :
    ∃ w' rs, (ensureImages ⟨"/board"⟩ ⟨"qemu-img"⟩ aliases).perform boardMachine boardWorld =
        (.ok [⟨"/board/a.qcow2"⟩, ⟨"/board/b.qcow2"⟩], w') ∧
      w' = boardWorld.afterAll rs ∧
      List.Forall₂ (CalledFor boardMachine ⟨"qemu-img"⟩) [⟨"/board/a.qcow2"⟩, ⟨"/board/b.qcow2"⟩] rs ∧
      Creating boardMachine ⟨"qemu-img"⟩ rs ∧
      ∀ d ∈ aliases,
        w'.files.exists? ["board"] (Path.join ⟨"/board"⟩ d.fileName) = .ok true := by
  have hended : ((ensureImages ⟨"/board"⟩ ⟨"qemu-img"⟩ aliases).perform boardMachine
      boardWorld).1.toOption = some [⟨"/board/a.qcow2"⟩, ⟨"/board/b.qcow2"⟩] := by
    decide +kernel
  obtain ⟨result, w', passed, rs, hperform, hworld, hpassed, hok, -, hcreating⟩ :=
    missing_images_are_made_once boardMachine ⟨"/board"⟩ ⟨"qemu-img"⟩ aliases boardWorld
  rw [hperform] at hended
  cases result with
  | error e => cases hended
  | ok made =>
    obtain rfl := Option.some.inj hended
    obtain ⟨rfl, hall⟩ := hok _ rfl
    have htool := boardMachine_creating ⟨"qemu-img"⟩ hall.effects
    exact ⟨w', rs, hperform, hworld, hpassed, htool, (hcreating htool).2.2 _ rfl⟩

end VirtBoard.Launch
