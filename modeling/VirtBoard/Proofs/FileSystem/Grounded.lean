import VirtBoard.Proofs.FileSystem.NamedEntries

/-!
# Files in directories

In a file system as there are any, whatever has a place stands in a directory.  There a way that does
not lead to a directory stops all walks along it for the same reason, and the operations on files
keep it so.
-/

namespace VirtBoard.FileSystem

open VirtBoard.Path (IsName)

/-! ## 1. Grounded files -/

/-- Everything stands in a directory, up to the root. -/
def Files.Grounded (fs : Files) : Prop :=
  fs.branch [] = some .into ∧ ∀ x ∈ fs.entries, fs.branch x.1.tail = some .into

instance (fs : Files) : Decidable fs.Grounded :=
  inferInstanceAs (Decidable (_ ∧ _))

theorem mem_keys_iff {fs : Files} {l : Place} :
    (∃ x ∈ fs.entries, x.1 = l) ↔ fs.find? l ≠ none := by
  unfold Files.find?
  rw [ne_eq, List.lookup_eq_none_iff, Classical.not_forall]
  refine exists_congr fun x => ?_
  rw [Classical.not_imp, bne_iff_ne, Classical.not_not, eq_comm]

theorem grounded_iff {fs : Files} :
    fs.Grounded ↔
      fs.branch [] = some .into ∧ ∀ l, fs.find? l ≠ none → fs.branch l.tail = some .into := by
  unfold Files.Grounded
  refine and_congr_right fun _ => ⟨fun h l hl => ?_, fun h x hx => ?_⟩
  · obtain ⟨x, hx, rfl⟩ := mem_keys_iff.mpr hl
    exact h x hx
  · exact h x.1 (mem_keys_iff.mp ⟨x, hx, rfl⟩)

theorem Files.Grounded.parent {fs : Files} (h : fs.Grounded) {l : Place} {e : Entry}
    (he : fs.find? l = some e) : fs.branch l.tail = some .into :=
  (grounded_iff.mp h).2 l (by simp [he])

theorem Files.Grounded.above {fs : Files} (h : fs.Grounded) {l : Place}
    (hl : fs.branch l = some .into) : fs.branch l.tail = some .into := by
  obtain ⟨t, ht⟩ := branch_eq_into.mp hl
  exact h.parent ht

theorem Files.Grounded.origin {fs : Files} (h : fs.Grounded) {here : Place}
    (hhere : fs.branch here = some .into) (p : Path) :
    fs.branch (Files.origin here p) = some .into := by
  unfold Files.origin
  split
  · exact h.1
  · exact hhere

-- A walk never comes out of the directories.
theorem Arrives.parent {fs : Files} (hroot : fs.branch [] = some .into)
    (habove : ∀ l, fs.branch l = some .into → fs.branch l.tail = some .into) {budget : Nat}
    {here k : Place} {steps : List String} {e : Entry} (h : Arrives fs budget here steps k e)
    (hhere : fs.branch here = some .into) : fs.branch k.tail = some .into := by
  induction h with
  | here => exact habove _ hhere
  | dot _ ih => exact ih hhere
  | dots _ ih => exact ih (habove _ hhere)
  | into _ hdir _ ih => exact ih (branch_eq_into.mpr ⟨_, hdir⟩)
  | file => exact hhere
  | along _ _ _ ih =>
    refine ih ?_
    unfold Files.origin
    split
    · exact hroot
    · exact hhere

/-! ## 2. Ways -/

/-- A way leads to a directory, or it stops all walks along it, always for the same reason. -/
def WayEnds (fs : Files) (budget : Nat) (here : Place) (xs : List String) : Prop :=
  (∃ dir left, Leads fs budget here xs dir left ∧ fs.branch dir = some .into) ∨
    ∃ e, ∀ ys, ys ≠ [] → fs.walkFrom budget here (xs ++ ys) = .error e

-- Within one budget, all ways end like this if those behind links do.
theorem wayEnds_of_links {fs : Files} {budget : Nat} (h : fs.Grounded)
    (hlinks : ∀ l name target rest, Plain name → fs.find? (name :: l) = some (.link target) →
      fs.branch l = some .into → WayEnds fs budget l (name :: rest))
    {here : Place} {xs : List String} (hhere : fs.branch here = some .into) :
    WayEnds fs budget here xs := by
  induction xs generalizing here with
  | nil => exact Or.inl ⟨here, budget, .nil, hhere⟩
  | cons name rest ih =>
    rcases step_cases name with rfl | rfl | ⟨hdot, hdots, hlong⟩ | hplain
    · rcases ih hhere with ⟨dir, left, hleads, hdir⟩ | ⟨e, he⟩
      · exact Or.inl ⟨dir, left, .dot hleads, hdir⟩
      · exact Or.inr ⟨e, fun ys hys => walkFrom_dot.trans (he ys hys)⟩
    · rcases ih (h.above hhere) with ⟨dir, left, hleads, hdir⟩ | ⟨e, he⟩
      · exact Or.inl ⟨dir, left, .dots hleads, hdir⟩
      · exact Or.inr ⟨e, fun ys hys => walkFrom_dots.trans (he ys hys)⟩
    · exact Or.inr ⟨.nameTooLong, fun ys _ => walkFrom_long hdot hdots hlong⟩
    · have hmore (ys : List String) (hys : ys ≠ []) : rest ++ ys ≠ [] :=
        List.append_ne_nil_of_right_ne_nil _ hys
      cases hfind : fs.find? (name :: here) with
      | none =>
        refine Or.inr ⟨.notFound, fun ys hys => ?_⟩
        rw [List.cons_append, walkFrom_plain hplain, hfind]
        exact if_neg (hmore ys hys)
      | some entry =>
        cases entry with
        | directory t =>
          rcases ih (branch_eq_into.mpr ⟨t, hfind⟩) with ⟨dir, left, hleads, hdir⟩ | ⟨e, he⟩
          · exact Or.inl ⟨dir, left, .into hplain hfind hleads, hdir⟩
          · refine Or.inr ⟨e, fun ys hys => ?_⟩
            rw [List.cons_append, walkFrom_plain hplain, hfind]
            exact he ys hys
        | file content t x =>
          refine Or.inr ⟨.notDirectory, fun ys hys => ?_⟩
          rw [List.cons_append, walkFrom_plain hplain, hfind]
          exact if_neg (hmore ys hys)
        | link target => exact hlinks here name target rest hplain hfind hhere

theorem wayEnds {fs : Files} (h : fs.Grounded) (budget : Nat) {here : Place} {xs : List String}
    (hhere : fs.branch here = some .into) : WayEnds fs budget here xs := by
  induction budget generalizing here xs with
  | zero =>
    refine wayEnds_of_links h ?_ hhere
    intro l name target rest hplain hfind _
    refine Or.inr ⟨.tooManyLinks, fun ys _ => ?_⟩
    rw [List.cons_append, walkFrom_plain hplain, hfind]
    rfl
  | succ budget ih =>
    refine wayEnds_of_links h ?_ hhere
    intro l name target rest hplain hfind hl
    rcases @ih (Files.origin l target) (target.steps ++ rest) (h.origin hl target) with
      ⟨dir, left, hleads, hdir⟩ | ⟨e, he⟩
    · exact Or.inl ⟨dir, left, .along hplain hfind hleads, hdir⟩
    · refine Or.inr ⟨e, fun ys hys => ?_⟩
      rw [List.cons_append, walkFrom_plain hplain, hfind]
      simp only [Files.follow]
      rw [← List.append_assoc]
      exact he ys hys

/-! ## 3. Names in a folder -/

section Named

variable {fs fs' : Files} {cwd dir : Place} {work : Path} {name : String} {now : Time}

theorem walkInto_of_leads {left : Nat}
    (h : Leads fs linkBudget (Files.origin cwd work) work.segments dir left)
    (hdir : fs.branch dir = some .into) : fs.walkInto cwd work = .ok dir := by
  obtain ⟨t, ht⟩ := branch_eq_into.mp hdir
  unfold Files.walkInto
  rw [h.walkFrom_append, walkFrom_dot, walkFrom_nil, ht]

/-- A folder is found, or everything that is looked for in it is missed for the same reason. -/
theorem walkInto_cases (h : fs.Grounded) (hcwd : fs.branch cwd = some .into) (work : Path) :
    (∃ dir, fs.walkInto cwd work = .ok dir) ∨
    ∃ e, fs.walkInto cwd work = .error e ∧ ∀ name : String, '/' ∉ name.toList → name ≠ "" →
      Files.checkPath (work.join ⟨name⟩) = .ok () → fs.walk cwd (work.join ⟨name⟩) = .error e := by
  rcases @wayEnds fs h linkBudget _ work.segments (h.origin hcwd work) with
    ⟨dir, left, hleads, hdir⟩ | ⟨e, he⟩
  · exact Or.inl ⟨dir, walkInto_of_leads hleads hdir⟩
  · refine Or.inr ⟨e, ?_, fun name hslash hne hcheck => ?_⟩
    · unfold Files.walkInto
      rw [he ["."] (by simp)]
    · have hrelative := Path.not_isAbsolute_of_no_slash hslash
      have hchars : (⟨name⟩ : Path).chars ≠ [] := fun hc => hne (String.toList_eq_nil_iff.mp hc)
      rw [walk_eq hcheck, Files.origin, Path.isAbsolute_join_of_relative hrelative,
        Path.steps_join_of_relative hrelative hchars]
      refine he _ ?_
      rw [Path.steps, Path.segments_of_no_slash hslash hne]
      simp

theorem branch_of_walkInto (hdir : fs.walkInto cwd work = .ok dir) :
    fs.branch dir = some .into := by
  obtain ⟨t, ht⟩ := walkInto_eq_ok.mp hdir
  exact branch_eq_into.mpr ⟨t, holds_of_walkFrom ht.walkFrom_eq⟩

/-- The two names that stand for directories lead to directories, if anywhere. -/
theorem walk_join_dots (h : fs.Grounded) (hcwd : fs.branch cwd = some .into)
    (hname : name = "." ∨ name = "..") {d : Destination}
    (hwalk : fs.walk cwd (work.join ⟨name⟩) = .ok d) :
    ∃ dir t, d = .occupied dir (.directory t) := by
  have hslash : '/' ∉ name.toList ∧ name ≠ "" := by
    rcases hname with rfl | rfl <;> decide
  have hcheck := checkPath_of_walk hwalk
  rcases walkInto_cases h hcwd work with ⟨dir, hdir⟩ | ⟨e, -, hall⟩
  · obtain ⟨left, hleft⟩ := walk_join_of_no_slash hslash.1 hslash.2 hcheck hdir
    have hinto := branch_of_walkInto hdir
    rw [hleft] at hwalk
    rcases hname with rfl | rfl
    · obtain ⟨t, ht⟩ := branch_eq_into.mp hinto
      rw [walkFrom_dot, walkFrom_nil, ht] at hwalk
      exact ⟨dir, t, (Except.ok.inj hwalk).symm⟩
    · obtain ⟨t, ht⟩ := branch_eq_into.mp (h.above hinto)
      rw [walkFrom_dots, walkFrom_nil, ht] at hwalk
      exact ⟨dir.tail, t, (Except.ok.inj hwalk).symm⟩
  · rw [hall name hslash.1 hslash.2 hcheck] at hwalk
    cases hwalk

theorem text_of_checkPath {p : Path} (h : Files.checkPath p = .error .notFound) : p.text = "" := by
  unfold Files.checkPath at h
  split at h
  · cases h
  · split at h
    next hempty => exact hempty
    next =>
      split at h
      · cases h
      · cases h

/-- Where all walks are stopped, a look-up that is not refused misses for the same reason. -/
theorem notFound_of_stat {p : Path} {e : OsError} (hp : p.text ≠ "")
    (hwalk : Files.checkPath p = .ok () → fs.walk cwd p = .error e)
    (h : fs.stat cwd p = .error .notFound ∨ ∃ entry, fs.stat cwd p = .ok entry) :
    e = .notFound := by
  cases hcheck : Files.checkPath p with
  | error e' =>
    have hstat : fs.stat cwd p = .error e' := by
      rw [stat_eq, Files.walk, hcheck]
      rfl
    rw [hstat] at h
    rcases h with h | ⟨entry, h⟩
    · rw [Except.error.inj h] at hcheck
      exact absurd (text_of_checkPath hcheck) hp
    · cases h
  | ok =>
    rw [stat_eq, hwalk hcheck] at h
    rcases h with h | ⟨entry, h⟩
    · exact Except.error.inj h
    · cases h

/-! ## 4. Unlinking -/

/-- A path under which the system can hold a file. -/
def Files.Acceptable (p : Path) : Prop :=
  Files.checkPath p = .ok () ∧ ∀ name ∈ p.segments.getLast?, name.utf8ByteSize ≤ nameLimit

instance (p : Path) : Decidable (Files.checkPath p = .ok ()) :=
  decidable_of_iff _ checkPath_eq_ok.symm

instance (p : Path) : Decidable (Files.Acceptable p) :=
  inferInstanceAs (Decidable (_ ∧ _))

theorem acceptable_join (h : IsName name) :
    Files.Acceptable (work.join ⟨name⟩) ↔
      Files.checkPath (work.join ⟨name⟩) = .ok () ∧ FileName name := by
  unfold Files.Acceptable
  rw [Path.getLast?_segments_join h]
  refine and_congr_right fun _ => ⟨fun hsize => ⟨h, hsize name rfl⟩, ?_⟩
  rintro hname _ ⟨⟩
  exact hname.2

-- Once a name is taken away nothing stands under it, whatever way led to its directory.
theorem named?_of_unlink (h : FileName name)
    (hunlink : fs.unlink cwd (work.join ⟨name⟩) now = .ok fs') :
    fs'.named? cwd (work.join ⟨name⟩) = none := by
  rw [unlink_join h] at hunlink
  rw [Option.eq_none_iff_forall_ne_some]
  intro e he
  obtain ⟨-, dir', hdir', hfind⟩ := (named?_join_eq_some h.1).mp he
  split at hunlink
  · cases hunlink
  · cases hunlink
  next dir _ hdir =>
    split at hunlink
    · cases hunlink
    · cases hunlink
    next =>
      cases hunlink
      obtain ⟨t, ht⟩ := walkInto_eq_ok.mp hdir
      obtain ⟨left, hleads⟩ := ht.leads
      obtain ⟨t', ht'⟩ := walkInto_eq_ok.mp hdir'
      rcases hleads.lacks (lacks_delete fs (name :: dir) now) with hleads' | hend
      · have hsame := ht'.walkFrom_eq
        rw [hleads'.walkFrom_append, walkFrom_dot, walkFrom_nil] at hsame
        split at hsame
        next =>
          simp only [Except.ok.injEq, Destination.occupied.injEq] at hsame
          rw [← hsame.1, (lacks_delete fs (name :: dir) now).1] at hfind
          cases hfind
        next => cases hsame
      · have hgone := ht'.walkFrom_eq
        rw [hend ["."] (by simp)] at hgone
        cases hgone

/-- What keeps a name from being taken away, although it could be a file's. -/
def Files.Obstructed (fs : Files) (cwd : Place) (p : Path) : Prop :=
  (∃ t, fs.named? cwd p = some (.directory t)) ∨ ∃ e, fs.walkParent cwd p = .error e ∧ e ≠ .notFound

theorem unlink_of_checkPath {p : Path} {e : OsError} (hcheck : Files.checkPath p = .error e) :
    fs.unlink cwd p now = .error e := by
  unfold Files.unlink
  rw [hcheck]
  rfl

theorem unlink_of_walkParent {p : Path} {e : OsError} (hcheck : Files.checkPath p = .ok ())
    (hdir : fs.walkParent cwd p = .error e) : fs.unlink cwd p now = .error e := by
  unfold Files.unlink
  rw [hcheck, hdir]
  rfl

theorem unlink_of_long (h : IsName name) (hlong : nameLimit < name.utf8ByteSize)
    (hcheck : Files.checkPath (work.join ⟨name⟩) = .ok ())
    (hdir : fs.walkInto cwd work = .ok dir) :
    fs.unlink cwd (work.join ⟨name⟩) now = .error .nameTooLong := by
  unfold Files.unlink
  rw [hcheck, walkParent_join h, hdir, Path.getLast?_segments_join h]
  simp only [bind, Except.bind]
  split
  next he => cases he
  next he => exact absurd (Option.some.inj he) h.2.2.1
  next he => exact absurd (Option.some.inj he) h.2.2.2
  next he =>
    obtain rfl := Option.some.inj he
    rw [if_pos hlong]
    rfl

/-- After an attempt to take a name away nothing stands under it, unless it was refused for the
text of the path or for what is in its way. -/
theorem unlink_cases (h : IsName name) (fs : Files) (cwd : Place) (work : Path) (now : Time) :
    (∃ fs', fs.unlink cwd (work.join ⟨name⟩) now = .ok fs' ∧
      fs'.named? cwd (work.join ⟨name⟩) = none) ∨
    (fs.unlink cwd (work.join ⟨name⟩) now = .error .notFound ∧
      fs.named? cwd (work.join ⟨name⟩) = none) ∨
    (∃ e, fs.unlink cwd (work.join ⟨name⟩) now = .error e ∧ e ≠ .notFound ∧
      (¬Files.Acceptable (work.join ⟨name⟩) ∨ fs.Obstructed cwd (work.join ⟨name⟩))) := by
  rcases hcheck : Files.checkPath (work.join ⟨name⟩) with e | _
  · have hunlink := @unlink_of_checkPath fs cwd now _ _ hcheck
    by_cases he : e = .notFound
    · refine Or.inr (Or.inl ⟨he ▸ hunlink, ?_⟩)
      rw [named?_join h, hcheck]
    · refine Or.inr (Or.inr ⟨e, hunlink, he, Or.inl fun hok => ?_⟩)
      rw [hok.1] at hcheck
      cases hcheck
  rcases hdir : fs.walkInto cwd work with e | dir
  · have hparent := (walkParent_join h).trans hdir
    have hunlink := @unlink_of_walkParent fs cwd now _ _ hcheck hparent
    by_cases he : e = .notFound
    · refine Or.inr (Or.inl ⟨he ▸ hunlink, ?_⟩)
      rw [named?_join h, hcheck, hdir]
    · exact Or.inr (Or.inr ⟨e, hunlink, he, Or.inr (Or.inr ⟨e, hparent, he⟩)⟩)
  by_cases hlong : nameLimit < name.utf8ByteSize
  · refine Or.inr (Or.inr ⟨_, unlink_of_long h hlong hcheck hdir, by decide, Or.inl ?_⟩)
    rw [acceptable_join h]
    exact fun hok => absurd hok.2.2 (Nat.not_le.mpr hlong)
  have hname : FileName name := ⟨h, Nat.not_lt.mp hlong⟩
  have hunlink := @unlink_join fs cwd work name now hname
  simp only [hcheck, hdir] at hunlink
  cases hfind : fs.find? (name :: dir) with
  | none =>
    refine Or.inr (Or.inl ⟨by rw [hunlink, hfind], ?_⟩)
    rw [named?_join h, hcheck, hdir]
    exact hfind
  | some entry =>
    rw [hfind] at hunlink
    cases entry with
    | directory t =>
      refine Or.inr (Or.inr ⟨_, hunlink, by decide, Or.inr (Or.inl ⟨t, ?_⟩)⟩)
      exact (named?_join_eq_some h).mpr ⟨hcheck, dir, hdir, hfind⟩
    | file content t x => exact Or.inl ⟨_, hunlink, named?_of_unlink hname hunlink⟩
    | link target => exact Or.inl ⟨_, hunlink, named?_of_unlink hname hunlink⟩

/-- A file, or a link, stands under a name that can be one. -/
def Files.HoldsFile (fs : Files) (cwd : Place) (p : Path) : Prop :=
  Files.Acceptable p ∧ ∃ e ∈ fs.named? cwd p, e.branch ≠ some .into

instance (fs : Files) (cwd : Place) (p : Path) : Decidable (fs.HoldsFile cwd p) :=
  inferInstanceAs (Decidable (_ ∧ _))

theorem unlink_of_holdsFile (h : IsName name) (hfile : fs.HoldsFile cwd (work.join ⟨name⟩))
    (now : Time) :
    ∃ fs', fs.unlink cwd (work.join ⟨name⟩) now = .ok fs' ∧
      fs'.named? cwd (work.join ⟨name⟩) = none := by
  obtain ⟨hacceptable, e, he, hbranch⟩ := hfile
  rcases unlink_cases h fs cwd work now with hok | ⟨-, hnone⟩ | ⟨e', -, -, hrefused | hobstructed⟩
  · exact hok
  · rw [hnone] at he
    cases he
  · exact absurd hacceptable hrefused
  · rcases hobstructed with ⟨t, ht⟩ | ⟨e', hparent, -⟩
    · rw [ht] at he
      cases he
      exact absurd rfl hbranch
    · rw [walkParent_join h] at hparent
      obtain ⟨-, dir, hdir, -⟩ := (named?_join_eq_some h).mp he
      rw [hdir] at hparent
      cases hparent

-- No walk gets past a name that is too long.
theorem Arrives.size_le {budget : Nat} {here k : Place} {steps : List String} {e : Entry}
    (h : Arrives fs budget here steps k e) {step : String} (hstep : step ∈ steps) :
    step.utf8ByteSize ≤ nameLimit := by
  induction h with
  | here => cases hstep
  | dot _ ih =>
    rcases List.mem_cons.mp hstep with rfl | hrest
    · decide
    · exact ih hrest
  | dots _ ih =>
    rcases List.mem_cons.mp hstep with rfl | hrest
    · decide
    · exact ih hrest
  | into hplain _ _ ih =>
    rcases List.mem_cons.mp hstep with rfl | hrest
    · exact hplain.2.2
    · exact ih hrest
  | file hplain _ =>
    obtain rfl := List.mem_singleton.mp hstep
    exact hplain.2.2
  | along hplain _ _ ih =>
    rcases List.mem_cons.mp hstep with rfl | hrest
    · exact hplain.2.2
    · exact ih (List.mem_append_right _ hrest)

/-- There can be nothing under a path that is not acceptable. -/
theorem stat_of_not_acceptable (h : IsName name) (hp : ¬Files.Acceptable (work.join ⟨name⟩))
    (e : Entry) : fs.stat cwd (work.join ⟨name⟩) ≠ .ok e := by
  intro hstat
  rw [stat_eq] at hstat
  split at hstat
  next k e' hwalk =>
    have hcheck := checkPath_of_walk hwalk
    rw [walk_eq hcheck, Path.steps_join h, arrives_iff] at hwalk
    refine hp ((acceptable_join h).mpr ⟨hcheck, h, hwalk.size_le ?_⟩)
    exact List.mem_append_right _ (List.mem_singleton_self name)
  next => cases hstat
  next => cases hstat

end Named

end VirtBoard.FileSystem
