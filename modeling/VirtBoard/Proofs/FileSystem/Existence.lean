import VirtBoard.Proofs.FileSystem.NamedEntries

/-!
# Files that nothing is taken from

As long as every file, directory and link stays what it is, a path that leads to an entry goes on
leading to one, and one that cannot be walked goes on failing in the same way.  Only a path that
leads nowhere can come to lead somewhere.
-/

namespace VirtBoard.FileSystem

/-- Every entry of the first files is there among the second ones, a file as a file, a directory as a
directory and a link as the same link. -/
def Keeps (fs fs' : Files) : Prop :=
  ∀ l e, fs.find? l = some e → ∃ e', fs'.find? l = some e' ∧ e'.branch = e.branch

theorem Keeps.refl (fs : Files) : Keeps fs fs :=
  fun _ e h => ⟨e, h, rfl⟩

theorem Keeps.trans {fs₁ fs₂ fs₃ : Files} (h : Keeps fs₁ fs₂) (h' : Keeps fs₂ fs₃) :
    Keeps fs₁ fs₃ := by
  intro l e he
  obtain ⟨e₂, he₂, hbranch⟩ := h l e he
  obtain ⟨e₃, he₃, hbranch'⟩ := h' l e₂ he₂
  exact ⟨e₃, he₃, hbranch'.trans hbranch⟩

theorem keeps_of_sameTree {fs fs' : Files} (hsame : SameTree fs fs')
    (hthere : ∀ l e, fs.find? l = some e → (fs'.find? l).isSome) : Keeps fs fs' := by
  intro l e he
  obtain ⟨e', he'⟩ := Option.isSome_iff_exists.mp (hthere l e he)
  have hbranch := hsame l
  unfold Files.branch at hbranch
  rw [he, he'] at hbranch
  exact ⟨e', he', hbranch⟩

/-! ## 1. Whether a walk comes to an entry -/

/-- What the end of a walk tells about the existence of an entry. -/
def existence : Except OsError Destination → Except OsError Bool
  | .ok (.occupied _ _) => .ok true
  | .ok (.vacant _) => .ok false
  | .error .notFound => .ok false
  | .error e => .error e

theorem exists?_eq (fs : Files) (cwd : Place) (p : Path) :
    fs.exists? cwd p = existence (fs.walk cwd p) := by
  rw [Files.exists?, stat_eq]
  rcases fs.walk cwd p with e | (_ | _)
  · cases e <;> rfl
  · rfl
  · rfl

/-- The first walk leads nowhere, or the second one ends like it. -/
def Settled (a b : Except OsError Destination) : Prop :=
  existence a = .ok false ∨ existence b = existence a

section

variable {fs fs' : Files} (hkeeps : Keeps fs fs')

include hkeeps

-- Within one budget, a walk is settled if what it does after links is.
theorem settled_of_follow {budget : Nat}
    (hfollow : ∀ here steps, Settled (fs.follow budget here steps) (fs'.follow budget here steps))
    (here : Place) (steps : List String) :
    Settled (fs.walkFrom budget here steps) (fs'.walkFrom budget here steps) := by
  induction steps generalizing here with
  | nil =>
    rw [walkFrom_nil, walkFrom_nil]
    cases hfind : fs.find? here with
    | none => exact Or.inl rfl
    | some e =>
      obtain ⟨e', hfind', -⟩ := hkeeps here e hfind
      rw [hfind']
      exact Or.inr rfl
  | cons name rest ih =>
    rcases step_cases name with rfl | rfl | ⟨hdot, hdots, hlong⟩ | hplain
    · rw [walkFrom_dot, walkFrom_dot]
      exact ih here
    · rw [walkFrom_dots, walkFrom_dots]
      exact ih here.tail
    · rw [walkFrom_long hdot hdots hlong, walkFrom_long hdot hdots hlong]
      exact Or.inr rfl
    · rw [walkFrom_plain hplain, walkFrom_plain hplain]
      cases hfind : fs.find? (name :: here) with
      | none =>
        -- Nothing was there, so whatever is there now is no matter.
        left
        dsimp only
        split <;> rfl
      | some e =>
        obtain ⟨e', hfind', hbranch⟩ := hkeeps (name :: here) e hfind
        rw [hfind']
        cases e with
        | directory t =>
          cases e' <;> cases hbranch
          exact ih (name :: here)
        | file content t x =>
          cases e' <;> cases hbranch
          right
          dsimp only
          split <;> rfl
        | link target =>
          cases e' <;> cases hbranch
          exact hfollow _ _

theorem settled (budget : Nat) (here : Place) (steps : List String) :
    Settled (fs.walkFrom budget here steps) (fs'.walkFrom budget here steps) := by
  induction budget generalizing here steps with
  | zero => exact settled_of_follow hkeeps (fun _ _ => Or.inr rfl) here steps
  | succ budget ih =>
    refine settled_of_follow hkeeps ?_ here steps
    exact fun here steps => ih here steps

theorem Keeps.exists? (cwd : Place) (p : Path) :
    fs.exists? cwd p = .ok false ∨ fs'.exists? cwd p = fs.exists? cwd p := by
  rw [exists?_eq, exists?_eq]
  unfold Files.walk
  cases Files.checkPath p with
  | error e => exact Or.inr rfl
  | ok => exact settled hkeeps linkBudget (Files.origin cwd p) p.steps

theorem Keeps.exists {cwd : Place} {p : Path} (h : fs.exists? cwd p = .ok true) :
    fs'.exists? cwd p = .ok true := by
  rcases hkeeps.exists? cwd p with hnone | hsame
  · cases h.symm.trans hnone
  · exact hsame.trans h

/-- What is missing was missing before. -/
theorem Keeps.missing {cwd : Place} {p : Path} (h : fs'.exists? cwd p = .ok false) :
    fs.exists? cwd p = .ok false :=
  (hkeeps.exists? cwd p).elim id fun hsame => hsame.symm.trans h

end

/-! ## 2. Written files -/

theorem keeps_write {fs fs' : Files} {cwd : Place} {p : Path} {content : ByteArray} {now : Time}
    (h : fs.write cwd p content now = .ok fs') : Keeps fs fs' := by
  refine keeps_of_sameTree (sameTree_write h) fun l e hfind => ?_
  rw [write_eq] at h
  split at h
  next =>
    cases h
    rw [Files.find?_insert]
    split
    · rfl
    · rw [hfind, Option.isSome_some]
  next => cases h
  next =>
    cases h
    rw [Files.find?_create, hfind]
    split
    · rfl
    · split <;> rfl
  next => cases h

end VirtBoard.FileSystem
