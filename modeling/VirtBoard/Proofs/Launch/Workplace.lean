import Mathlib.Logic.Function.Basic
import VirtBoard.Proofs.Launch.Stages

/-!
# The working directory of a launch

What is known of the temporary files in the middle of a launch, and how each operation on one of
them changes it.  All other files stay as they are.
-/

namespace VirtBoard.Launch

open VirtBoard.Action DeviceTree FileSystem

/-! ## 1. Files that differ in temporary files -/

/-- Where a temporary file is, in the working directory. -/
def Temporary.place (t : Temporary) (dir : Place) : Place :=
  t.name :: dir

/-- Files that differ only in the temporary files of a directory, and in its time. -/
structure Alike (dir : Place) (fs fs' : Files) : Prop where
  tree : SameTree fs fs'
  rest : ∀ l, l ≠ dir → (∀ t : Temporary, l ≠ t.place dir) → fs'.find? l = fs.find? l

section Alike

variable {dir : Place} {fs fs' fs'' : Files} {t u : Temporary} {cwd : Place} {q : Path}

theorem Alike.refl (dir : Place) (fs : Files) : Alike dir fs fs :=
  ⟨.refl fs, fun _ _ _ => rfl⟩

theorem Alike.trans (h : Alike dir fs fs') (h' : Alike dir fs' fs'') : Alike dir fs fs'' :=
  ⟨h.tree.trans h'.tree, fun l hdir ht => (h'.rest l hdir ht).trans (h.rest l hdir ht)⟩

-- A path to a file that is none of the temporary ones leads to the same file.
theorem Alike.walk (h : Alike dir fs fs') {place : Place} {content : ByteArray} {time : Time}
    {x : Bool} (hdir : fs.branch dir ≠ none)
    (hwalk : fs.walk cwd q = .ok (.occupied place (.file content time x)))
    (hapart : ∀ t : Temporary, place ≠ t.place dir) :
    fs'.walk cwd q = .ok (.occupied place (.file content time x)) := by
  have hfile : fs.find? place = some (.file content time x) := holds_of_walk hwalk
  have hplace : place ≠ dir := by
    rintro rfl
    exact hdir (branch_of_file hfile)
  exact walk_of_sameTree h.tree hwalk ((h.rest place hplace hapart).trans hfile)

theorem Alike.readText (h : Alike dir fs fs') {text : String} (hdir : fs.branch dir ≠ none)
    (hread : fs.readText cwd q = .ok text)
    (hapart : ∀ (t : Temporary) e, fs.walk cwd q ≠ .ok (.occupied (t.place dir) e)) :
    fs'.readText cwd q = .ok text := by
  rw [readText_eq, read_eq, stat_eq] at hread ⊢
  rcases hwalk : fs.walk cwd q with e | (⟨place, e⟩ | place)
  · rw [hwalk] at hread
    cases hread
  · rw [hwalk] at hread
    cases e with
    | directory time => cases hread
    | link target => cases hread
    | file content time x =>
      rw [h.walk hdir hwalk fun t ht => hapart t _ (ht ▸ hwalk)]
      exact hread
  · rw [hwalk] at hread
    cases hread

-- So does a path to a program.
theorem Alike.program? (h : Alike dir fs fs') {place : Place} (hdir : fs.branch dir ≠ none)
    (hprogram : fs.program? cwd q = some place) (hapart : ∀ t : Temporary, place ≠ t.place dir) :
    fs'.program? cwd q = some place := by
  unfold Files.program? at hprogram ⊢
  split at hprogram
  next content time hwalk =>
    obtain rfl := Option.some.inj hprogram
    rw [h.walk hdir hwalk hapart]
  next => cases hprogram

end Alike

/-! ## 2. What is known of the temporary files -/

inductive Slot where
  | unknown
  | gone
  | holds (text : String)

/-- What is known of a temporary file is so. -/
def Slot.Fits (dir : Place) (fs : Files) (t : Temporary) : Slot → Prop
  | .unknown => True
  | .gone => fs.find? (t.place dir) = none
  | .holds text => ∃ time x, fs.find? (t.place dir) = some (.file text.toUTF8 time x)

/-- The state of the files in the middle of a launch: changed in temporary files only, and in these
as far as it is known. -/
structure Known (dir : Place) (fs₀ : Files) (σ : Temporary → Slot) (fs : Files) : Prop where
  alike : Alike dir fs₀ fs
  slots : ∀ t, (σ t).Fits dir fs t

/-- A working directory for a launch: its path leads there, and no temporary file in it is anything
but a regular file. -/
structure Workplace (p : Pipeline) (m : Machine) (dir : Place) (fs : Files) : Prop where
  work : fs.walkInto m.cwd p.work = .ok dir
  regular : ∀ t : Temporary, fs.branch (t.place dir) = none
  accepted : ∀ t, Files.checkPath (p.temporary t) = .ok ()

section Known

variable {p : Pipeline} {m : Machine} {dir : Place} {fs₀ fs fs' : Files} {σ : Temporary → Slot}
variable {t : Temporary} {text : String} {now : Time}

theorem Workplace.alike (h : Workplace p m dir fs) (halike : Alike dir fs fs') :
    Workplace p m dir fs' where
  work := walkInto_of_sameTree halike.tree h.work
  regular t := (halike.tree _).trans (h.regular t)
  accepted := h.accepted

theorem Workplace.isDirectory (h : Workplace p m dir fs) : fs.branch dir ≠ none := by
  obtain ⟨time, harrives⟩ := walkInto_eq_ok.mp h.work
  have hfind : fs.find? dir = some (.directory time) := holds_of_walkFrom harrives.walkFrom_eq
  simp [Files.branch, hfind, Entry.branch]

theorem Temporary.place_ne (dir : Place) {t u : Temporary} (h : u ≠ t) : u.place dir ≠ t.place dir :=
  fun he => Temporary.name_ne h (List.cons.inj he).1

-- A change of one temporary file, and of what is known of it.
theorem Known.update (h : Known dir fs₀ σ fs) (halike : Alike dir fs fs')
    (hothers : ∀ u : Temporary, u ≠ t → fs'.find? (u.place dir) = fs.find? (u.place dir))
    {slot : Slot} (hslot : slot.Fits dir fs' t) :
    Known dir fs₀ (Function.update σ t slot) fs' where
  alike := h.alike.trans halike
  slots u := by
    by_cases hu : u = t
    · subst hu
      rwa [Function.update_self]
    · rw [Function.update_of_ne hu]
      have hfits := h.slots u
      cases hslot' : σ u with
      | unknown => trivial
      | gone =>
        rw [hslot'] at hfits
        exact (hothers u hu).trans hfits
      | holds text =>
        rw [hslot'] at hfits
        obtain ⟨time, x, hfind⟩ := hfits
        exact ⟨time, x, (hothers u hu).trans hfind⟩

theorem alike_delete (hfile : fs.branch (t.place dir) = none) :
    Alike dir fs (fs.delete (t.place dir) now) where
  tree := sameTree_delete now hfile
  rest l hdir ht := by
    have hparent : l ≠ (t.place dir).tail := hdir
    rw [Files.find?_delete, if_neg (ht t), if_neg hparent]

theorem alike_write (h : Workplace p m dir fs)
    (hwrite : fs.write m.cwd (p.temporary t) text.toUTF8 now = .ok fs') :
    Alike dir fs fs' ∧ (Slot.holds text).Fits dir fs' t ∧
      ∀ u : Temporary, u ≠ t → fs'.find? (u.place dir) = fs.find? (u.place dir) := by
  obtain ⟨made, x, hmade, hcases⟩ :=
    write_join t.fileName (h.accepted t) h.work (h.regular t) text.toUTF8 now
  have hsame : fs' = made := Except.ok.inj (hwrite.symm.trans hmade)
  subst hsame
  have hrest : ∀ l, l ≠ dir → l ≠ t.place dir → fs'.find? l = fs.find? l := by
    intro l hdir hl
    have hparent : l ≠ (t.place dir).tail := hdir
    rcases hcases with rfl | rfl
    · rw [Files.find?_create]
      exact (if_neg hl).trans (if_neg hparent)
    · rw [Files.find?_insert]
      exact if_neg hl
  refine ⟨⟨sameTree_write hwrite, fun l hdir ht => hrest l hdir (ht t)⟩, ⟨now, x, ?_⟩, ?_⟩
  · rcases hcases with rfl | rfl
    · rw [Files.find?_create]
      exact if_pos rfl
    · rw [Files.find?_insert]
      exact if_pos rfl
  · exact fun u hu => hrest _ (List.cons_ne_self _ _) (Temporary.place_ne dir hu)

theorem Known.write (hplace : Workplace p m dir fs₀) (h : Known dir fs₀ σ fs)
    (hwrite : fs.write m.cwd (p.temporary t) text.toUTF8 now = .ok fs') :
    Known dir fs₀ (Function.update σ t (.holds text)) fs' := by
  obtain ⟨halike, hslot, hothers⟩ := alike_write (hplace.alike h.alike) hwrite
  exact h.update halike hothers hslot

theorem Known.readText (hplace : Workplace p m dir fs₀) (h : Known dir fs₀ σ fs)
    (hσ : σ t = .holds text) : fs.readText m.cwd (p.temporary t) = .ok text := by
  have hfits := h.slots t
  rw [hσ] at hfits
  obtain ⟨time, x, hfind⟩ := hfits
  have hwalk := walk_join_of_file t.fileName (hplace.accepted t) (hplace.alike h.alike).work hfind
  have htext : String.fromUTF8? text.toUTF8 = some text := dif_pos text.isValidUTF8
  rw [readText_eq, read_eq, stat_eq, Pipeline.temporary, hwalk]
  simp only [htext]

-- A file that is there can be unlinked.
theorem Known.unlink (hplace : Workplace p m dir fs₀) (h : Known dir fs₀ σ fs) {e : Entry}
    (he : fs.find? (t.place dir) = some e) (now : Time) :
    ∃ fs', fs.unlink m.cwd (p.temporary t) now = .ok fs' ∧
      Known dir fs₀ (Function.update σ t .gone) fs' := by
  have hhere := hplace.alike h.alike
  obtain ⟨content, time, x, rfl⟩ := file_of_branch_eq_none (hhere.regular t) he
  have hunlink := @unlink_join fs m.cwd p.work t.name now t.fileName
  rw [show Files.checkPath (p.work.join ⟨t.name⟩) = .ok () from hplace.accepted t, hhere.work]
    at hunlink
  simp only [show fs.find? (t.name :: dir) = _ from he] at hunlink
  refine ⟨_, hunlink, h.update (alike_delete (hhere.regular t)) (fun u hu => ?_) ?_⟩
  · exact find?_delete_name (Temporary.name_ne hu)
  · show (fs.delete _ now).find? _ = none
    rw [Files.find?_delete, if_pos rfl]

theorem Known.present (h : Known dir fs₀ σ fs) (hσ : σ t = .holds text) :
    ∃ e, fs.find? (t.place dir) = some e := by
  have hfits := h.slots t
  rw [hσ] at hfits
  obtain ⟨time, x, hfind⟩ := hfits
  exact ⟨_, hfind⟩

theorem Known.remove (hplace : Workplace p m dir fs₀) {w : World} (h : Known dir fs₀ σ w.files)
    {e : Entry} (he : w.files.find? (t.place dir) = some e) :
    ∃ w₁, (remove (p.temporary t)).perform m w = (.ok (), w₁) ∧ w₁.runs = w.runs ∧
      Known dir fs₀ (Function.update σ t .gone) w₁.files := by
  obtain ⟨files, hunlink, hknown⟩ := h.unlink hplace he w.now
  refine ⟨{ w with files }.record (.removed (p.temporary t)), ?_, by simp, hknown⟩
  rw [perform_remove, hunlink]

theorem Known.discard (hplace : Workplace p m dir fs₀) {w : World} (h : Known dir fs₀ σ w.files)
    (hσ : σ t = .holds text) :
    ∃ w₁, (discard (p.temporary t)).perform m w = (.ok (), w₁) ∧ w₁.runs = w.runs ∧
      Known dir fs₀ (Function.update σ t .gone) w₁.files := by
  obtain ⟨e, he⟩ := h.present hσ
  obtain ⟨files, hunlink, hknown⟩ := h.unlink hplace he w.now
  refine ⟨{ w with files }.record (.removed (p.temporary t)), ?_, by simp, hknown⟩
  rw [perform_discard, hunlink]

theorem Known.writeText (hplace : Workplace p m dir fs₀) {w : World}
    (h : Known dir fs₀ σ w.files) (t : Temporary) (text : String) :
    ∃ w₁, (writeText (p.temporary t) text).perform m w = (.ok (), w₁) ∧ w₁.runs = w.runs ∧
      Known dir fs₀ (Function.update σ t (.holds text)) w₁.files := by
  have hhere := hplace.alike h.alike
  obtain ⟨files, hwrite⟩ : ∃ files,
      w.files.write m.cwd (p.temporary t) text.toUTF8 w.now = .ok files := by
    obtain ⟨files, -, hwrite, -⟩ :=
      write_join t.fileName (hhere.accepted t) hhere.work (hhere.regular t) text.toUTF8 w.now
    exact ⟨files, hwrite⟩
  refine ⟨{ w with files }.record (.wrote (p.temporary t) text), ?_, by simp,
    h.write hplace hwrite⟩
  rw [perform_writeText, hwrite]

end Known

end VirtBoard.Launch
