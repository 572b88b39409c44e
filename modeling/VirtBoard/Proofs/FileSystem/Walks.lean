import VirtBoard.FileSystem.Access

/-!
# Walks over changed files

A walk looks only at directories and links until it has come to its end.  So it ends at the same
place after regular files have come, gone or changed, and it can be cut in two at a directory on its
way.  When a name is taken away, no walk through the directory that held it ends there any longer.
-/

namespace VirtBoard.FileSystem

open Files (walkSteps walkFrom origin)

/-! ## 1. What a walk goes on with -/

/-- How a walk goes on at an entry that is not its end. -/
inductive Branch where
  | into
  | along (target : Path)
deriving DecidableEq

def Entry.branch : Entry → Option Branch
  | .directory _ => some .into
  | .file _ _ _ => none
  | .link target => some (.along target)

def Files.branch (fs : Files) (l : Place) : Option Branch :=
  (fs.find? l).bind Entry.branch

/-- Two file systems with the same directories and links. -/
def SameTree (fs fs' : Files) : Prop :=
  ∀ l, fs'.branch l = fs.branch l

theorem SameTree.refl (fs : Files) : SameTree fs fs :=
  fun _ => rfl

theorem SameTree.symm {fs fs' : Files} (h : SameTree fs fs') : SameTree fs' fs :=
  fun l => (h l).symm

theorem SameTree.trans {fs₁ fs₂ fs₃ : Files} (h₁ : SameTree fs₁ fs₂) (h₂ : SameTree fs₂ fs₃) :
    SameTree fs₁ fs₃ :=
  fun l => (h₂ l).trans (h₁ l)

@[simp] theorem branch_modifiedAt (e : Entry) (t : Time) :
    (e.modifiedAt t).branch = e.branch := by
  cases e <;> rfl

theorem branch_eq_into {fs : Files} {l : Place} :
    fs.branch l = some .into ↔ ∃ t, fs.find? l = some (.directory t) := by
  unfold Files.branch
  cases fs.find? l with
  | none => simp
  | some e => cases e <;> simp [Entry.branch]

theorem branch_eq_along {fs : Files} {l : Place} {target : Path} :
    fs.branch l = some (.along target) ↔ fs.find? l = some (.link target) := by
  unfold Files.branch
  cases fs.find? l with
  | none => simp
  | some e => cases e <;> simp [Entry.branch]

theorem branch_of_file {fs : Files} {l : Place} {content : ByteArray} {t : Time} {x : Bool}
    (h : fs.find? l = some (.file content t x)) : fs.branch l = none := by
  unfold Files.branch
  rw [h]
  rfl

theorem file_of_branch_eq_none {fs : Files} {l : Place} {e : Entry} (h : fs.branch l = none)
    (he : fs.find? l = some e) : ∃ content t x, e = .file content t x := by
  unfold Files.branch at h
  rw [he] at h
  cases e with
  | directory t => cases h
  | file content t x => exact ⟨content, t, x, rfl⟩
  | link target => cases h

/-! ## 2. One step of a walk -/

/-- A step that names an entry: neither of the two names that stand for directories, and not too
long. -/
def Plain (name : String) : Prop :=
  name ≠ "." ∧ name ≠ ".." ∧ name.utf8ByteSize ≤ nameLimit

instance (name : String) : Decidable (Plain name) :=
  inferInstanceAs (Decidable (_ ∧ _ ∧ _))

theorem step_cases (name : String) :
    name = "." ∨ name = ".." ∨
      (name ≠ "." ∧ name ≠ ".." ∧ nameLimit < name.utf8ByteSize) ∨ Plain name := by
  by_cases hdot : name = "."
  · exact Or.inl hdot
  by_cases hdots : name = ".."
  · exact Or.inr (Or.inl hdots)
  by_cases hlong : nameLimit < name.utf8ByteSize
  · exact Or.inr (Or.inr (Or.inl ⟨hdot, hdots, hlong⟩))
  · exact Or.inr (Or.inr (Or.inr ⟨hdot, hdots, Nat.not_lt.mp hlong⟩))

section Steps

variable {fs : Files} {budget : Nat} {here : Place} {name : String} {rest : List String}

/-- How a walk goes on after a link, with what is left of its budget. -/
def Files.follow (fs : Files) : Nat → Place → List String → Except OsError Destination
  | 0 => fun _ _ => .error .tooManyLinks
  | budget + 1 => fs.walkFrom budget

theorem walkFrom_eq : fs.walkFrom budget = fs.walkSteps (fs.follow budget) := by
  cases budget <;> rfl

theorem walkFrom_nil :
    fs.walkFrom budget here [] =
      match fs.find? here with
      | some e => .ok (.occupied here e)
      | none => .error .notFound := by
  rw [walkFrom_eq]
  rfl

theorem walkFrom_dot :
    fs.walkFrom budget here ("." :: rest) = fs.walkFrom budget here rest := by
  rw [walkFrom_eq, walkSteps]
  exact if_pos rfl

theorem walkFrom_dots :
    fs.walkFrom budget here (".." :: rest) = fs.walkFrom budget here.tail rest := by
  rw [walkFrom_eq, walkSteps, if_neg (by decide), if_pos rfl]

theorem walkFrom_long (hdot : name ≠ ".") (hdots : name ≠ "..")
    (hlong : nameLimit < name.utf8ByteSize) :
    fs.walkFrom budget here (name :: rest) = .error .nameTooLong := by
  rw [walkFrom_eq, walkSteps, if_neg hdot, if_neg hdots, if_pos hlong]

theorem walkFrom_plain (h : Plain name) :
    fs.walkFrom budget here (name :: rest) =
      match fs.find? (name :: here) with
      | none => if rest = [] then .ok (.vacant (name :: here)) else .error .notFound
      | some (.directory _) => fs.walkFrom budget (name :: here) rest
      | some (.file content modified executable) =>
        if rest = [] then .ok (.occupied (name :: here) (.file content modified executable))
        else .error .notDirectory
      | some (.link target) => fs.follow budget (origin here target) (target.steps ++ rest) := by
  rw [walkFrom_eq, walkSteps, if_neg h.1, if_neg h.2.1]
  exact if_neg (Nat.not_lt.mpr h.2.2)

end Steps

/-! ## 3. Walks that arrive

The steps of a walk that ends at an entry. -/

inductive Arrives (fs : Files) : Nat → Place → List String → Place → Entry → Prop where
  | here {budget l e} : fs.find? l = some e → Arrives fs budget l [] l e
  | dot {budget l rest k e} : Arrives fs budget l rest k e → Arrives fs budget l ("." :: rest) k e
  | dots {budget l rest k e} : Arrives fs budget l.tail rest k e →
      Arrives fs budget l (".." :: rest) k e
  | into {budget l name t rest k e} : Plain name → fs.find? (name :: l) = some (.directory t) →
      Arrives fs budget (name :: l) rest k e → Arrives fs budget l (name :: rest) k e
  | file {budget l name content t x} : Plain name →
      fs.find? (name :: l) = some (.file content t x) →
      Arrives fs budget l [name] (name :: l) (.file content t x)
  | along {budget l name target rest k e} : Plain name →
      fs.find? (name :: l) = some (.link target) →
      Arrives fs budget (origin l target) (target.steps ++ rest) k e →
      Arrives fs (budget + 1) l (name :: rest) k e

theorem Arrives.walkFrom_eq {fs : Files} {budget : Nat} {here k : Place} {steps : List String}
    {e : Entry} (h : Arrives fs budget here steps k e) :
    fs.walkFrom budget here steps = .ok (.occupied k e) := by
  induction h with
  | here hfind => rw [walkFrom_nil, hfind]
  | dot _ ih => rw [walkFrom_dot, ih]
  | dots _ ih => rw [walkFrom_dots, ih]
  | into hplain hfind _ ih => rw [walkFrom_plain hplain, hfind]; exact ih
  | file hplain hfind => rw [walkFrom_plain hplain, hfind]; rfl
  | along hplain hfind _ ih => rw [walkFrom_plain hplain, hfind]; exact ih

-- Within one budget, a walk arrives if what it does after links does.
theorem arrives_of_walkSteps {fs : Files} {budget : Nat} {k : Place} {e : Entry}
    (hfollow : ∀ l name target rest, Plain name → fs.find? (name :: l) = some (.link target) →
      fs.follow budget (origin l target) (target.steps ++ rest) = .ok (.occupied k e) →
      Arrives fs budget l (name :: rest) k e)
    {here : Place} {steps : List String}
    (h : fs.walkFrom budget here steps = .ok (.occupied k e)) :
    Arrives fs budget here steps k e := by
  -- Only a link takes from the budget, so that the steps get shorter in all other cases.
  induction steps generalizing here with
  | nil =>
    rw [walkFrom_nil] at h
    split at h
    next hfind =>
      cases h
      exact .here hfind
    next => cases h
  | cons name rest ih =>
    rcases step_cases name with rfl | rfl | ⟨hdot, hdots, hlong⟩ | hplain
    · rw [walkFrom_dot] at h
      exact .dot (ih h)
    · rw [walkFrom_dots] at h
      exact .dots (ih h)
    · rw [walkFrom_long hdot hdots hlong] at h
      cases h
    · rw [walkFrom_plain hplain] at h
      cases hfind : fs.find? (name :: here) with
      | none =>
        rw [hfind] at h
        by_cases hr : rest = [] <;> simp [hr] at h
      | some entry =>
        rw [hfind] at h
        cases entry with
        | directory t => exact .into hplain hfind (ih h)
        | file content t x =>
          by_cases hr : rest = []
          · simp only [hr, ↓reduceIte, Except.ok.injEq, Destination.occupied.injEq] at h
            obtain ⟨rfl, rfl⟩ := h
            rw [hr]
            exact .file hplain hfind
          · simp [hr] at h
        | link target => exact hfollow here name target rest hplain hfind h

theorem arrives_iff {fs : Files} {budget : Nat} {here k : Place} {steps : List String}
    {e : Entry} :
    fs.walkFrom budget here steps = .ok (.occupied k e) ↔ Arrives fs budget here steps k e := by
  refine ⟨fun h => ?_, Arrives.walkFrom_eq⟩
  -- The steps after a link may be more than before it; what is less is the budget.
  induction budget generalizing here steps with
  | zero => exact arrives_of_walkSteps (fun _ _ _ _ _ _ hf => by cases hf) h
  | succ budget ih =>
    exact arrives_of_walkSteps (fun _ _ _ _ hplain hfind hf => .along hplain hfind (ih hf)) h

theorem Arrives.mono {fs : Files} {budget more : Nat} {here k : Place} {steps : List String}
    {e : Entry} (h : Arrives fs budget here steps k e) (hle : budget ≤ more) :
    Arrives fs more here steps k e := by
  induction h generalizing more with
  | here hfind => exact .here hfind
  | dot _ ih => exact .dot (ih hle)
  | dots _ ih => exact .dots (ih hle)
  | into hplain hfind _ ih => exact .into hplain hfind (ih hle)
  | file hplain hfind => exact .file hplain hfind
  | along hplain hfind _ ih =>
    obtain ⟨more, rfl⟩ := Nat.exists_eq_add_of_le' hle
    exact .along hplain hfind (ih (Nat.le_add_left _ more))

/-- What a walk says about its end. -/
def Destination.Holds (fs : Files) : Destination → Prop
  | .occupied place e => fs.find? place = some e
  | .vacant place => fs.find? place = none

theorem holds_of_walkSteps {fs : Files} {budget : Nat}
    (hfollow : ∀ here steps d, fs.follow budget here steps = .ok d → d.Holds fs)
    {here : Place} {steps : List String} {d : Destination}
    (h : fs.walkFrom budget here steps = .ok d) : d.Holds fs := by
  induction steps generalizing here with
  | nil =>
    rw [walkFrom_nil] at h
    split at h
    next hfind =>
      cases h
      exact hfind
    next => cases h
  | cons name rest ih =>
    rcases step_cases name with rfl | rfl | ⟨hdot, hdots, hlong⟩ | hplain
    · exact ih (walkFrom_dot.symm.trans h)
    · exact ih (walkFrom_dots.symm.trans h)
    · rw [walkFrom_long hdot hdots hlong] at h
      cases h
    · rw [walkFrom_plain hplain] at h
      split at h
      next hfind =>
        split at h
        · cases h
          exact hfind
        · cases h
      next => exact ih h
      next hfind =>
        split at h
        · cases h
          exact hfind
        · cases h
      next => exact hfollow _ _ _ h

-- A walk ends at what is there, or where nothing is.
theorem holds_of_walkFrom {fs : Files} {budget : Nat} {here : Place} {steps : List String}
    {d : Destination} (h : fs.walkFrom budget here steps = .ok d) : d.Holds fs := by
  induction budget generalizing here steps d with
  | zero => exact holds_of_walkSteps (fun _ _ _ hf => by cases hf) h
  | succ budget ih =>
    refine holds_of_walkSteps ?_ h
    exact fun _ _ _ hf => ih hf

/-! ## 4. The same walk over other files -/

/-- Over the same directories and links, a walk arrives where it arrived before, at what is there
now. -/
theorem Arrives.sameTree {fs fs' : Files} (hsame : SameTree fs fs') {budget : Nat}
    {here k : Place} {steps : List String} {e e' : Entry}
    (h : Arrives fs budget here steps k e) (he' : fs'.find? k = some e') :
    Arrives fs' budget here steps k e' := by
  induction h with
  | here _ => exact .here he'
  | dot _ ih => exact .dot (ih he')
  | dots _ ih => exact .dots (ih he')
  | @into _ l name t _ _ _ hplain hfind _ ih =>
    obtain ⟨t', ht'⟩ := branch_eq_into.mp ((hsame (name :: l)).trans (branch_eq_into.mpr ⟨t, hfind⟩))
    exact .into hplain ht' (ih he')
  | @file _ l name _ _ _ hplain hfind =>
    obtain ⟨content', t', x', rfl⟩ :=
      file_of_branch_eq_none ((hsame (name :: l)).trans (branch_of_file hfind)) he'
    exact .file hplain he'
  | @along _ l name target _ _ _ hplain hfind _ ih =>
    have htarget := branch_eq_along.mp ((hsame (name :: l)).trans (branch_eq_along.mpr hfind))
    exact .along hplain htarget (ih he')

/-! ## 5. Walks through a directory -/

/-- Steps that lead to a directory; the second budget is what they leave of the first one. -/
inductive Leads (fs : Files) : Nat → Place → List String → Place → Nat → Prop where
  | nil {budget l} : Leads fs budget l [] l budget
  | dot {budget l rest dir left} : Leads fs budget l rest dir left →
      Leads fs budget l ("." :: rest) dir left
  | dots {budget l rest dir left} : Leads fs budget l.tail rest dir left →
      Leads fs budget l (".." :: rest) dir left
  | into {budget l name t rest dir left} : Plain name →
      fs.find? (name :: l) = some (.directory t) → Leads fs budget (name :: l) rest dir left →
      Leads fs budget l (name :: rest) dir left
  | along {budget l name target rest dir left} : Plain name →
      fs.find? (name :: l) = some (.link target) →
      Leads fs budget (origin l target) (target.steps ++ rest) dir left →
      Leads fs (budget + 1) l (name :: rest) dir left

/-- Asking for a directory at the end changes nothing where there is one. -/
theorem Arrives.append_dot {fs : Files} {budget : Nat} {here dir : Place} {xs : List String}
    {t : Time} (h : Arrives fs budget here xs dir (.directory t)) :
    Arrives fs budget here (xs ++ ["."]) dir (.directory t) := by
  generalize hend : Entry.directory t = e at h
  induction h with
  | here hfind => exact .dot (.here hfind)
  | dot _ ih => exact .dot (ih hend)
  | dots _ ih => exact .dots (ih hend)
  | into hplain hfind _ ih => exact .into hplain hfind (ih hend)
  | file => cases hend
  | along hplain hfind _ ih =>
    have h' := ih hend
    rw [List.append_assoc] at h'
    exact .along hplain hfind h'

theorem Arrives.leads {fs : Files} {budget : Nat} {here dir : Place} {xs : List String} {t : Time}
    (h : Arrives fs budget here (xs ++ ["."]) dir (.directory t)) :
    ∃ left, Leads fs budget here xs dir left := by
  -- The last step is the dot, which no link and no name can stand for.
  generalize hsteps : xs ++ ["."] = steps at h
  generalize hend : Entry.directory t = e at h
  induction h generalizing xs with
  | here _ => exact absurd (List.append_eq_nil_iff.mp hsteps).2 (by decide)
  | dot h ih =>
    cases xs with
    | nil =>
      obtain rfl := (List.cons.inj hsteps).2
      cases h
      exact ⟨_, .nil⟩
    | cons x xs =>
      obtain ⟨rfl, htail⟩ := List.cons.inj hsteps
      obtain ⟨left, hleft⟩ := ih htail hend
      exact ⟨left, .dot hleft⟩
  | dots h ih =>
    cases xs with
    | nil => exact absurd (List.cons.inj hsteps).1 (by decide)
    | cons x xs =>
      obtain ⟨rfl, htail⟩ := List.cons.inj hsteps
      obtain ⟨left, hleft⟩ := ih htail hend
      exact ⟨left, .dots hleft⟩
  | into hplain hfind h ih =>
    cases xs with
    | nil => exact absurd (List.cons.inj hsteps).1.symm hplain.1
    | cons x xs =>
      obtain ⟨rfl, htail⟩ := List.cons.inj hsteps
      obtain ⟨left, hleft⟩ := ih htail hend
      exact ⟨left, .into hplain hfind hleft⟩
  | file hplain hfind => cases hend
  | along hplain hfind h ih =>
    cases xs with
    | nil => exact absurd (List.cons.inj hsteps).1.symm hplain.1
    | cons x xs =>
      obtain ⟨rfl, htail⟩ := List.cons.inj hsteps
      obtain ⟨left, hleft⟩ := ih ((List.append_assoc _ _ _).trans (congrArg _ htail)) hend
      exact ⟨left, .along hplain hfind hleft⟩

theorem Leads.le {fs : Files} {budget left : Nat} {here dir : Place} {xs : List String}
    (h : Leads fs budget here xs dir left) : left ≤ budget := by
  induction h with
  | nil => exact Nat.le_refl _
  | dot _ ih => exact ih
  | dots _ ih => exact ih
  | into _ _ _ ih => exact ih
  | along _ _ _ ih => exact Nat.le_succ_of_le ih

-- A walk that leads to a directory goes on from there.
theorem Leads.walkFrom_append {fs : Files} {budget left : Nat} {here dir : Place}
    {xs : List String} (h : Leads fs budget here xs dir left) (ys : List String) :
    fs.walkFrom budget here (xs ++ ys) = fs.walkFrom left dir ys := by
  induction h with
  | nil => rfl
  | dot _ ih => rw [List.cons_append, walkFrom_dot, ih]
  | dots _ ih => rw [List.cons_append, walkFrom_dots, ih]
  | into hplain hfind _ ih =>
    rw [List.cons_append, walkFrom_plain hplain, hfind]
    exact ih
  | along hplain hfind _ ih =>
    rw [List.cons_append, walkFrom_plain hplain, hfind]
    simp only [Files.follow]
    rw [← List.append_assoc]
    exact ih

/-! ## 6. Walks to a name that is gone -/

/-- The files with one name taken away, as far as walks can tell. -/
def Lacks (fs fs' : Files) (gone : Place) : Prop :=
  fs'.find? gone = none ∧ ∀ l, l ≠ gone → fs'.branch l = fs.branch l

/-- A way does not go through a name that is gone, or it ends there. -/
theorem Leads.lacks {fs fs' : Files} {budget left : Nat} {here dir gone : Place}
    {xs : List String} (h : Leads fs budget here xs dir left) (hlacks : Lacks fs fs' gone) :
    Leads fs' budget here xs dir left ∨
      ∀ ys, ys ≠ [] → fs'.walkFrom budget here (xs ++ ys) = .error .notFound := by
  induction h with
  | nil => exact Or.inl .nil
  | dot _ ih =>
    apply ih.imp .dot
    intro hend ys hys
    rw [List.cons_append, walkFrom_dot, hend ys hys]
  | dots _ ih =>
    apply ih.imp .dots
    intro hend ys hys
    rw [List.cons_append, walkFrom_dots, hend ys hys]
  | @into _ l step t rest dir _ hplain hfind _ ih =>
    by_cases hgone : step :: l = gone
    · refine Or.inr fun ys hys => ?_
      rw [List.cons_append, walkFrom_plain hplain, hgone, hlacks.1]
      exact if_neg (List.append_ne_nil_of_right_ne_nil _ hys)
    · obtain ⟨t', ht'⟩ := branch_eq_into.mp
        ((hlacks.2 _ hgone).trans (branch_eq_into.mpr ⟨t, hfind⟩))
      apply ih.imp (.into hplain ht')
      intro hend ys hys
      rw [List.cons_append, walkFrom_plain hplain, ht']
      exact hend ys hys
  | @along _ l step target rest dir _ hplain hfind _ ih =>
    by_cases hgone : step :: l = gone
    · refine Or.inr fun ys hys => ?_
      rw [List.cons_append, walkFrom_plain hplain, hgone, hlacks.1]
      exact if_neg (List.append_ne_nil_of_right_ne_nil _ hys)
    · have htarget := branch_eq_along.mp ((hlacks.2 _ hgone).trans (branch_eq_along.mpr hfind))
      apply ih.imp (.along hplain htarget)
      intro hend ys hys
      rw [List.cons_append, walkFrom_plain hplain, htarget]
      simp only [Files.follow]
      rw [← List.append_assoc]
      exact hend ys hys

/-- No walk arrives at a name that is gone, not even one that would find its directory through the
name itself. -/
theorem Leads.not_arrives {fs fs' : Files} {budget left : Nat} {here dir : Place}
    {xs : List String} {name : String} (h : Leads fs budget here xs dir left) (hname : Plain name)
    (hlacks : Lacks fs fs' (name :: dir)) (k : Place) (e : Entry) :
    ¬Arrives fs' budget here (xs ++ [name]) k e := by
  rw [← arrives_iff]
  rcases h.lacks hlacks with hleads | hend
  · rw [hleads.walkFrom_append, walkFrom_plain hname, hlacks.1]
    simp
  · rw [hend [name] (List.cons_ne_nil _ _)]
    simp

end VirtBoard.FileSystem
