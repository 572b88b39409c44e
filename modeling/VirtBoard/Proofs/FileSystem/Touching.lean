import VirtBoard.Proofs.FileSystem.Grounded

/-!
# Programs that touch one name

What changes when, over some time, one name is written to and taken away: a regular file at the
name's place, and the times of directories, which do not go back.  Everything else stays, and so do
the directories and links that walks go by.
-/

namespace VirtBoard.FileSystem

open VirtBoard.Path (IsName)

/-! ## 1. Points in time -/

theorem Time.le_refl (t : Time) : t ≤ t :=
  Or.inr ⟨rfl, Nat.le_refl _⟩

theorem Time.le_trans {s t u : Time} (h₁ : s ≤ t) (h₂ : t ≤ u) : s ≤ u := by
  rcases h₁ with h₁ | ⟨he₁, h₁⟩ <;> rcases h₂ with h₂ | ⟨he₂, h₂⟩
  · exact Or.inl (Int.lt_trans h₁ h₂)
  · exact Or.inl (he₂ ▸ h₁)
  · exact Or.inl (he₁ ▸ h₂)
  · exact Or.inr ⟨he₁.trans he₂, Nat.le_trans h₁ h₂⟩

/-! ## 2. Vacant places -/

section Vacant

variable {fs fs' : Files} {place : Place} {e : Entry}

-- Within one budget, a walk to a vacant place ends at what is put there, if those behind links do.
theorem arrives_of_vacant_steps {budget : Nat} (hsame : SameTree fs fs')
    (hfind : fs'.find? place = some e) (he : e.branch = none)
    (hlinks : ∀ l name target rest, Plain name → fs.find? (name :: l) = some (.link target) →
      fs.follow budget (Files.origin l target) (target.steps ++ rest) = .ok (.vacant place) →
      Arrives fs' budget l (name :: rest) place e)
    {here : Place} {steps : List String}
    (h : fs.walkFrom budget here steps = .ok (.vacant place)) :
    Arrives fs' budget here steps place e := by
  induction steps generalizing here with
  | nil =>
    rw [walkFrom_nil] at h
    split at h <;> cases h
  | cons name rest ih =>
    rcases step_cases name with rfl | rfl | ⟨hdot, hdots, hlong⟩ | hplain
    · exact .dot (ih (walkFrom_dot.symm.trans h))
    · exact .dots (ih (walkFrom_dots.symm.trans h))
    · rw [walkFrom_long hdot hdots hlong] at h
      cases h
    · rw [walkFrom_plain hplain] at h
      split at h
      next =>
        split at h
        next hrest =>
          cases h
          subst hrest
          cases e with
          | directory t => cases he
          | file content t x => exact .file hplain hfind
          | link target => cases he
        next => cases h
      next t hdir =>
        obtain ⟨t', ht'⟩ := branch_eq_into.mp
          ((hsame (name :: here)).trans (branch_eq_into.mpr ⟨t, hdir⟩))
        exact .into hplain ht' (ih h)
      next => split at h <;> cases h
      next target hlink => exact hlinks here name target rest hplain hlink h

theorem arrives_of_vacant (hsame : SameTree fs fs') (hfind : fs'.find? place = some e)
    (he : e.branch = none) {budget : Nat} {here : Place} {steps : List String}
    (h : fs.walkFrom budget here steps = .ok (.vacant place)) :
    Arrives fs' budget here steps place e := by
  -- What a walk does after a link is done with less of the budget.
  induction budget generalizing here steps with
  | zero => exact arrives_of_vacant_steps hsame hfind he (fun _ _ _ _ _ _ hf => by cases hf) h
  | succ budget ih =>
    refine arrives_of_vacant_steps hsame hfind he ?_ h
    intro l name target rest hplain hlink hf
    have htarget := branch_eq_along.mp ((hsame (name :: l)).trans (branch_eq_along.mpr hlink))
    exact .along hplain htarget (ih hf)

/-- What was looked for in vain in a file system as there are any has its place in a directory. -/
theorem parent_of_vacant (hgrounded : fs.Grounded) {cwd : Place}
    (hcwd : fs.branch cwd = some .into) {p : Path} (h : fs.walk cwd p = .ok (.vacant place)) :
    fs.branch place.tail = some .into := by
  have hvacant : fs.find? place = none := holds_of_walk h
  rw [walk_eq (checkPath_of_walk h)] at h
  -- A file that is put there can be walked to.
  let file : Entry := .file .empty default false
  have hsame : SameTree fs (fs.create place file default) := sameTree_create _ hvacant rfl
  have hfind : (fs.create place file default).find? place = some file := by
    rw [Files.find?_create, if_pos rfl]
  have harrives := arrives_of_vacant hsame hfind rfl h
  rw [← hsame place.tail]
  exact harrives.parent ((hsame []).trans hgrounded.1)
    (fun l hl => (hsame l.tail).trans (hgrounded.above ((hsame l).symm.trans hl)))
    ((hsame _).trans (hgrounded.origin hcwd p))

end Vacant

/-! ## 3. Changes at one place -/

/-- Where a walk ends, or would make something. -/
def Destination.place : Destination → Place
  | .occupied place _ => place
  | .vacant place => place

/-- What stands elsewhere than at certain places stays, but for the times of directories; only
regular files come and go. -/
structure Spares (seat : Place → Prop) (since : Time) (fs fs' : Files) : Prop where
  sameTree : SameTree fs fs'
  keeps : ∀ k e, fs.find? k = some e → (fs.branch k = none → ¬seat k) →
    ∃ e', fs'.find? k = some e' ∧
      (e' = e ∨ (e.branch = some .into ∧ since ≤ e'.modified))

namespace Spares

variable {seat : Place → Prop} {since : Time} {fs fs₁ fs₂ fs₃ : Files}

theorem refl (seat : Place → Prop) (since : Time) (fs : Files) : Spares seat since fs fs where
  sameTree := .refl fs
  keeps _ e he _ := ⟨e, he, Or.inl rfl⟩

theorem trans (h₁ : Spares seat since fs₁ fs₂) (h₂ : Spares seat since fs₂ fs₃) :
    Spares seat since fs₁ fs₃ where
  sameTree := h₁.sameTree.trans h₂.sameTree
  keeps k e he hseat := by
    obtain ⟨e₂, he₂, hcases₂⟩ := h₁.keeps k e he hseat
    obtain ⟨e₃, he₃, hcases₃⟩ := h₂.keeps k e₂ he₂ (by rwa [h₁.sameTree k])
    refine ⟨e₃, he₃, ?_⟩
    have hbranch : e₂.branch = e.branch := by
      have hb := h₁.sameTree k
      rwa [Files.branch, Files.branch, he, he₂] at hb
    rcases hcases₃ with rfl | ⟨hinto, hle⟩
    · exact hcases₂
    · exact Or.inr ⟨hbranch ▸ hinto, hle⟩

theorem mono {later : Time} (h : Spares seat later fs₁ fs₂) (hle : since ≤ later) :
    Spares seat since fs₁ fs₂ where
  sameTree := h.sameTree
  keeps k e he hseat := by
    obtain ⟨e', he', hcases⟩ := h.keeps k e he hseat
    exact ⟨e', he', hcases.imp_right fun hinto => ⟨hinto.1, Time.le_trans hle hinto.2⟩⟩

theorem widen {seat' : Place → Prop} (h : Spares seat since fs₁ fs₂) (hsub : ∀ k, seat k → seat' k) :
    Spares seat' since fs₁ fs₂ where
  sameTree := h.sameTree
  keeps k e he hseat := h.keeps k e he fun hbranch hk => hseat hbranch (hsub k hk)

-- A regular file stays as it is.
theorem file (h : Spares seat since fs₁ fs₂) {k : Place} {content : ByteArray} {t : Time} {x : Bool}
    (hfind : fs₁.find? k = some (.file content t x)) (hseat : ¬seat k) :
    fs₂.find? k = some (.file content t x) := by
  obtain ⟨e', he', rfl | ⟨hinto, -⟩⟩ := h.keeps k _ hfind fun _ => hseat
  · exact he'
  · cases hinto

end Spares

section Changes

variable {fs : Files} {place : Place} {now : Time}

/-- Files that are the same but for one place, and for the time of the directory around it. -/
def OnlyAt (place : Place) (now : Time) (fs fs' : Files) : Prop :=
  ∀ k, k ≠ place → fs'.find? k = fs.find? k ∨
    (k = place.tail ∧ fs'.find? k = (fs.find? k).map (·.modifiedAt now))

theorem onlyAt_insert (fs : Files) (place : Place) (e : Entry) (now : Time) :
    OnlyAt place now fs (fs.insert place e) := by
  intro k hk
  rw [Files.find?_insert, if_neg hk]
  exact Or.inl rfl

theorem onlyAt_create (fs : Files) (place : Place) (e : Entry) (now : Time) :
    OnlyAt place now fs (fs.create place e now) := by
  intro k hk
  rw [Files.find?_create, if_neg hk]
  split
  next htail => exact Or.inr ⟨htail, rfl⟩
  next => exact Or.inl rfl

theorem onlyAt_delete (fs : Files) (place : Place) (now : Time) :
    OnlyAt place now fs (fs.delete place now) := by
  intro k hk
  rw [Files.find?_delete, if_neg hk]
  split
  next htail => exact Or.inr ⟨htail, rfl⟩
  next => exact Or.inl rfl

-- An entry elsewhere stays, but for the time of a directory.
theorem OnlyAt.find?_eq {fs' : Files} (h : OnlyAt place now fs fs')
    (hparent : fs.branch place.tail = some .into) {k : Place} {e : Entry}
    (he : fs.find? k = some e) (hk : k ≠ place) :
    fs'.find? k = some e ∨ (e.branch = some .into ∧ fs'.find? k = some (.directory now)) := by
  rcases h k hk with hsame | ⟨rfl, htouched⟩
  · exact Or.inl (hsame.trans he)
  · obtain ⟨t, ht⟩ := branch_eq_into.mp hparent
    obtain rfl := Option.some.inj (he.symm.trans ht)
    rw [he] at htouched
    exact Or.inr ⟨rfl, htouched⟩

theorem OnlyAt.spares {fs' : Files} (h : OnlyAt place now fs fs')
    (hparent : fs.branch place.tail = some .into) (hbranch : fs.branch place = none)
    (hsame : SameTree fs fs') : Spares (· = place) now fs fs' where
  sameTree := hsame
  keeps k e he hseat := by
    rcases h.find?_eq hparent he fun hk => hseat (hk ▸ hbranch) hk with hkept | ⟨hinto, htouched⟩
    · exact ⟨e, hkept, Or.inl rfl⟩
    · exact ⟨_, htouched, Or.inr ⟨hinto, Time.le_refl now⟩⟩

theorem OnlyAt.grounded {fs' : Files} (h : OnlyAt place now fs fs') (hgrounded : fs.Grounded)
    (hsame : SameTree fs fs') (hparent : fs.branch place.tail = some .into) : fs'.Grounded := by
  refine grounded_iff.mpr ⟨(hsame []).trans hgrounded.1, fun l hl => (hsame l.tail).trans ?_⟩
  by_cases hplace : l = place
  · rwa [hplace]
  · refine (grounded_iff.mp hgrounded).2 l fun hnone => hl ?_
    rcases h l hplace with hkept | ⟨-, htouched⟩
    · rw [hkept, hnone]
    · rw [htouched, hnone]
      rfl

/-- A text is put where the path leads, and nowhere else. -/
theorem write_eq_ok {fs' : Files} {cwd : Place} {p : Path} {content : ByteArray}
    (h : fs.write cwd p content now = .ok fs') :
    ∃ d x, fs.walk cwd p = .ok d ∧ fs.branch d.place = none ∧
      fs'.find? d.place = some (.file content now x) ∧ OnlyAt d.place now fs fs' := by
  rw [write_eq] at h
  split at h
  next place old t x hwalk =>
    obtain rfl := Except.ok.inj h
    refine ⟨_, x, hwalk, branch_of_file (holds_of_walk hwalk), ?_, onlyAt_insert fs place _ now⟩
    exact (Files.find?_insert ..).trans (if_pos rfl)
  next => cases h
  next place hwalk =>
    obtain rfl := Except.ok.inj h
    have hvacant : fs.find? place = none := holds_of_walk hwalk
    refine ⟨_, false, hwalk, ?_, ?_, onlyAt_create fs place _ now⟩
    · show (fs.find? place).bind _ = none
      rw [hvacant]
      rfl
    · exact (Files.find?_create ..).trans (if_pos rfl)
  next => cases h

/-- What was written to a path is found under it. -/
theorem stat_write {fs' : Files} {cwd : Place} {p : Path} {content : ByteArray}
    (h : fs.write cwd p content now = .ok fs') :
    ∃ x, fs'.stat cwd p = .ok (.file content now x) := by
  obtain ⟨d, x, hwalk, -, hfind, -⟩ := write_eq_ok h
  have hsame := sameTree_write h
  refine ⟨x, ?_⟩
  -- A new file makes a walk end that was in vain before, an old one keeps its own.
  cases d with
  | occupied place e => rw [stat_eq, walk_of_sameTree hsame hwalk hfind]
  | vacant place =>
    have hcheck := checkPath_of_walk hwalk
    rw [walk_eq hcheck] at hwalk
    rw [stat_eq, walk_eq hcheck, (arrives_of_vacant hsame hfind rfl hwalk).walkFrom_eq]

/-- In a file system as there are any, the place that a path leads to is in a directory. -/
theorem parent_of_walk (hgrounded : fs.Grounded) {cwd : Place} (hcwd : fs.branch cwd = some .into)
    {p : Path} {d : Destination} (h : fs.walk cwd p = .ok d) :
    fs.branch d.place.tail = some .into := by
  cases d with
  | occupied place e => exact hgrounded.parent (holds_of_walk h)
  | vacant place => exact parent_of_vacant hgrounded hcwd h

end Changes

/-! ## 4. One name, over some time -/

section Names

variable {fs fs' fs'' : Files} {cwd dir k : Place} {work : Path} {name : String}
  {now now' now'' : Time}

/-- Not a link that writing would go through. -/
def Files.NoLink (fs : Files) (cwd : Place) (p : Path) : Prop :=
  ∀ target, fs.named? cwd p ≠ some (.link target)

/-- The place of a name that can be a file's. -/
def Files.Seat (fs : Files) (cwd : Place) (work : Path) (name : String) (k : Place) : Prop :=
  Files.Acceptable (work.join ⟨name⟩) ∧ ∃ dir, fs.walkInto cwd work = .ok dir ∧ k = name :: dir

theorem seat_sameTree (hsame : SameTree fs fs') :
    fs'.Seat cwd work name = fs.Seat cwd work name := by
  funext k
  refine propext (and_congr_right fun _ => exists_congr fun dir => and_congr_left fun _ => ?_)
  exact ⟨walkInto_of_sameTree hsame.symm, walkInto_of_sameTree hsame⟩

theorem noLink_sameTree (h : IsName name) (hsame : SameTree fs fs')
    (hlink : fs.NoLink cwd (work.join ⟨name⟩)) : fs'.NoLink cwd (work.join ⟨name⟩) := by
  intro target htarget
  obtain ⟨hcheck, dir, hdir, hfind⟩ := (named?_join_eq_some h).mp htarget
  refine hlink target ((named?_join_eq_some h).mpr
    ⟨hcheck, dir, walkInto_of_sameTree hsame.symm hdir, branch_eq_along.mp ?_⟩)
  rw [← hsame, branch_eq_along.mpr hfind]

/-- A name that is no link is where its path leads. -/
theorem place_of_walk (hgrounded : fs.Grounded) (hcwd : fs.branch cwd = some .into)
    (h : IsName name) (hlink : fs.NoLink cwd (work.join ⟨name⟩)) {d : Destination}
    (hwalk : fs.walk cwd (work.join ⟨name⟩) = .ok d) :
    FileName name ∧ ∃ dir, fs.walkInto cwd work = .ok dir ∧ d.place = name :: dir := by
  have hcheck := checkPath_of_walk hwalk
  rcases walkInto_cases hgrounded hcwd work with ⟨dir, hdir⟩ | ⟨e, -, hall⟩
  · obtain ⟨left, hleft⟩ := walk_join h hcheck hdir
    rw [hleft] at hwalk
    by_cases hlong : nameLimit < name.utf8ByteSize
    · rw [walkFrom_long h.2.2.1 h.2.2.2 hlong] at hwalk
      cases hwalk
    have hname : FileName name := ⟨h, Nat.not_lt.mp hlong⟩
    refine ⟨hname, dir, hdir, ?_⟩
    rw [walkFrom_plain hname.plain] at hwalk
    cases hfind : fs.find? (name :: dir) with
    | none =>
      rw [hfind] at hwalk
      rw [← Except.ok.inj hwalk]
      rfl
    | some e =>
      rw [hfind] at hwalk
      cases e with
      | directory t =>
        dsimp only at hwalk
        rw [walkFrom_nil, hfind] at hwalk
        rw [← Except.ok.inj hwalk]
        rfl
      | file content t x =>
        rw [← Except.ok.inj hwalk]
        rfl
      | link target =>
        exact absurd ((named?_join_eq_some h).mpr ⟨hcheck, dir, hdir, hfind⟩) (hlink target)
  · rw [hall name h.1 h.2.1 hcheck] at hwalk
    cases hwalk

theorem write_spares (hgrounded : fs.Grounded) (hcwd : fs.branch cwd = some .into)
    (h : IsName name) (hlink : fs.NoLink cwd (work.join ⟨name⟩)) {content : ByteArray}
    (hwrite : fs.write cwd (work.join ⟨name⟩) content now = .ok fs') :
    fs'.Grounded ∧ Spares (fs.Seat cwd work name) now fs fs' := by
  obtain ⟨d, x, hwalk, hbranch, -, honly⟩ := write_eq_ok hwrite
  obtain ⟨hname, dir, hdir, hplace⟩ := place_of_walk hgrounded hcwd h hlink hwalk
  have hparent := parent_of_walk hgrounded hcwd hwalk
  have hsame := sameTree_write hwrite
  refine ⟨honly.grounded hgrounded hsame hparent, (honly.spares hparent hbranch hsame).widen ?_⟩
  rintro _ rfl
  exact ⟨(acceptable_join h).mpr ⟨checkPath_of_walk hwalk, hname⟩, dir, hdir, hplace⟩

theorem unlink_eq_ok (h : IsName name) (hunlink : fs.unlink cwd (work.join ⟨name⟩) now = .ok fs') :
    Files.checkPath (work.join ⟨name⟩) = .ok () ∧ FileName name ∧
      ∃ dir e, fs.walkInto cwd work = .ok dir ∧ fs.find? (name :: dir) = some e ∧
        e.branch ≠ some .into ∧ fs' = fs.delete (name :: dir) now := by
  cases hcheck : Files.checkPath (work.join ⟨name⟩) with
  | error e =>
    rw [unlink_of_checkPath hcheck] at hunlink
    cases hunlink
  | ok =>
    cases hdir : fs.walkInto cwd work with
    | error e =>
      rw [unlink_of_walkParent hcheck ((walkParent_join h).trans hdir)] at hunlink
      cases hunlink
    | ok dir =>
      by_cases hlong : nameLimit < name.utf8ByteSize
      · rw [unlink_of_long h hlong hcheck hdir] at hunlink
        cases hunlink
      have hname : FileName name := ⟨h, Nat.not_lt.mp hlong⟩
      rw [unlink_join hname, hcheck, hdir] at hunlink
      dsimp only at hunlink
      split at hunlink
      · cases hunlink
      · cases hunlink
      next e hdirectory hfind =>
        refine ⟨rfl, hname, dir, e, rfl, hfind, fun hinto => ?_, (Except.ok.inj hunlink).symm⟩
        cases e with
        | directory t => exact hdirectory t rfl
        | file content t x => cases hinto
        | link target => cases hinto

theorem unlink_spares (hgrounded : fs.Grounded) (h : IsName name)
    (hlink : fs.NoLink cwd (work.join ⟨name⟩))
    (hunlink : fs.unlink cwd (work.join ⟨name⟩) now = .ok fs') :
    fs'.Grounded ∧ Spares (fs.Seat cwd work name) now fs fs' := by
  obtain ⟨hcheck, hname, dir, e, hdir, hfind, hinto, rfl⟩ := unlink_eq_ok h hunlink
  have hbranch : fs.branch (name :: dir) = none := by
    rw [Files.branch, hfind]
    cases e with
    | directory t => exact absurd rfl hinto
    | file content t x => rfl
    | link target =>
      exact absurd ((named?_join_eq_some h).mpr ⟨hcheck, dir, hdir, hfind⟩) (hlink target)
  have hparent := branch_of_walkInto hdir
  have honly := onlyAt_delete fs (name :: dir) now
  have hsame := sameTree_delete now hbranch
  refine ⟨honly.grounded hgrounded hsame hparent, (honly.spares hparent hbranch hsame).widen ?_⟩
  rintro _ rfl
  exact ⟨(acceptable_join h).mpr ⟨hcheck, hname⟩, dir, hdir, rfl⟩

/-- What a program that is concerned with one path only can do: wait, write to it, and take it
away. -/
inductive Touched (cwd : Place) (p : Path) (fs : Files) (now : Time) : Files → Time → Prop where
  | start : Touched cwd p fs now fs now
  | wait {fs' : Files} {now' later : Time} : Touched cwd p fs now fs' now' → now' ≤ later →
      Touched cwd p fs now fs' later
  | write {fs' fs'' : Files} {now' : Time} {content : ByteArray} : Touched cwd p fs now fs' now' →
      fs'.write cwd p content now' = .ok fs'' → Touched cwd p fs now fs'' now'
  | unlink {fs' fs'' : Files} {now' : Time} : Touched cwd p fs now fs' now' →
      fs'.unlink cwd p now' = .ok fs'' → Touched cwd p fs now fs'' now'

theorem Touched.later {p : Path} (h : Touched cwd p fs now fs' now') : now ≤ now' := by
  induction h with
  | start => exact Time.le_refl now
  | wait _ hle ih => exact Time.le_trans ih hle
  | write _ _ ih => exact ih
  | unlink _ _ ih => exact ih

/-- Whatever is done with one name in the course of time, all else is spared. -/
theorem Touched.spares (hgrounded : fs.Grounded) (hcwd : fs.branch cwd = some .into)
    (hname : IsName name) (hlink : fs.NoLink cwd (work.join ⟨name⟩))
    (h : Touched cwd (work.join ⟨name⟩) fs now fs' now') :
    fs'.Grounded ∧ Spares (fs.Seat cwd work name) now fs fs' := by
  induction h with
  | start => exact ⟨hgrounded, .refl _ _ _⟩
  | wait _ _ ih => exact ih
  | write htouched hwrite ih =>
    obtain ⟨hgrounded', hspares⟩ := ih
    have hsame := hspares.sameTree
    obtain ⟨hgrounded'', hstep⟩ := write_spares hgrounded' ((hsame cwd).trans hcwd) hname
      (noLink_sameTree hname hsame hlink) hwrite
    rw [seat_sameTree hsame] at hstep
    exact ⟨hgrounded'', hspares.trans (hstep.mono htouched.later)⟩
  | unlink htouched hunlink ih =>
    obtain ⟨hgrounded', hspares⟩ := ih
    have hsame := hspares.sameTree
    obtain ⟨hgrounded'', hstep⟩ := unlink_spares hgrounded' hname
      (noLink_sameTree hname hsame hlink) hunlink
    rw [seat_sameTree hsame] at hstep
    exact ⟨hgrounded'', hspares.trans (hstep.mono htouched.later)⟩

theorem unlink_dots : fs.unlink cwd (work.join ⟨".."⟩) now ≠ .ok fs' := by
  intro hunlink
  have hrelative : (⟨".."⟩ : Path).isAbsolute = false := by decide
  have hlast : (work.join ⟨".."⟩).segments.getLast? = some ".." := by
    rw [Path.segments_join_of_relative hrelative, List.getLast?_append]
    rfl
  cases hcheck : Files.checkPath (work.join ⟨".."⟩) with
  | error e =>
    rw [unlink_of_checkPath hcheck] at hunlink
    cases hunlink
  | ok =>
    cases hparent : fs.walkParent cwd (work.join ⟨".."⟩) with
    | error e =>
      rw [unlink_of_walkParent hcheck hparent] at hunlink
      cases hunlink
    | ok dir =>
      unfold Files.unlink at hunlink
      rw [hcheck, hparent, hlast] at hunlink
      cases hunlink

-- The directory above is neither written to nor taken away.
theorem Touched.dots (hgrounded : fs.Grounded) (hcwd : fs.branch cwd = some .into)
    (h : Touched cwd (work.join ⟨".."⟩) fs now fs' now') : fs' = fs := by
  induction h with
  | start => rfl
  | wait _ _ ih => exact ih
  | write _ hwrite ih =>
    subst ih
    rw [write_eq] at hwrite
    split at hwrite
    next hwalk =>
      obtain ⟨dir, t, hd⟩ := walk_join_dots hgrounded hcwd (Or.inr rfl) hwalk
      cases hd
    next => cases hwrite
    next hwalk =>
      obtain ⟨dir, t, hd⟩ := walk_join_dots hgrounded hcwd (Or.inr rfl) hwalk
      cases hd
    next => cases hwrite
  | unlink _ hunlink ih =>
    subst ih
    exact absurd hunlink unlink_dots

end Names

end VirtBoard.FileSystem
