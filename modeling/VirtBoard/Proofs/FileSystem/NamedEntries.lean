import VirtBoard.Proofs.FileSystem.Walks
import VirtBoard.Proofs.Path.Names

/-!
# Entries of a directory, by name

What the operations on files do at a name in a directory: the directory is found first, in the same
way for every name in it, and the operation then looks at one place only.
-/

namespace VirtBoard.FileSystem

open VirtBoard.Path (IsName)

/-- The name of a file: no slash in it, not one of the names for directories, and not too long. -/
def FileName (name : String) : Prop :=
  IsName name ∧ name.utf8ByteSize ≤ nameLimit

instance (name : String) : Decidable (FileName name) :=
  inferInstanceAs (Decidable (_ ∧ _))

theorem FileName.plain {name : String} (h : FileName name) : Plain name :=
  ⟨h.1.2.2.1, h.1.2.2.2, h.2⟩

/-! ## 1. Changes that no walk sees -/

theorem branch_delete (fs : Files) (l : Place) (now : Time) (k : Place) :
    (fs.delete l now).branch k = if k = l then none else fs.branch k := by
  unfold Files.branch
  rw [Files.find?_delete]
  by_cases hk : k = l
  · simp [hk]
  · by_cases ht : k = l.tail
    · rw [if_neg hk, if_pos ht, if_neg hk]
      cases fs.find? k <;> simp
    · rw [if_neg hk, if_neg ht, if_neg hk]

theorem lacks_delete (fs : Files) (l : Place) (now : Time) : Lacks fs (fs.delete l now) l := by
  constructor
  · rw [Files.find?_delete, if_pos rfl]
  · intro k hk
    rw [branch_delete, if_neg hk]

-- The removal of a regular file.
theorem sameTree_delete {fs : Files} {l : Place} (now : Time) (h : fs.branch l = none) :
    SameTree fs (fs.delete l now) := by
  intro k
  rw [branch_delete]
  split
  next hk => rw [hk, h]
  next => rfl

-- A new content for a regular file.
theorem sameTree_insert {fs : Files} {l : Place} {e : Entry} (h : fs.branch l = none)
    (he : e.branch = none) : SameTree fs (fs.insert l e) := by
  intro k
  unfold Files.branch
  rw [Files.find?_insert]
  split
  next hk =>
    rw [hk]
    exact he.trans h.symm
  next => rfl

-- A new regular file.
theorem sameTree_create {fs : Files} {l : Place} {e : Entry} (now : Time) (h : fs.find? l = none)
    (he : e.branch = none) : SameTree fs (fs.create l e now) := by
  intro k
  unfold Files.branch
  rw [Files.find?_create]
  split
  next hk =>
    rw [hk, h]
    exact he
  next =>
    split
    next => cases fs.find? k <;> simp
    next => rfl

/-! ## 2. What the operations make of a walk -/

theorem checkPath_eq_ok {p : Path} :
    Files.checkPath p = .ok () ↔
      '\x00' ∉ p.chars ∧ p.text ≠ "" ∧ p.text.utf8ByteSize < pathLimit := by
  unfold Files.checkPath
  by_cases hnul : '\x00' ∈ p.chars
  · simp [hnul]
  · by_cases hempty : p.text = ""
    · simp [hnul, hempty]
    · by_cases hlimit : pathLimit ≤ p.text.utf8ByteSize
      · simp [hnul, hempty, hlimit]
      · simp [hnul, hempty, hlimit]
        omega

theorem walk_eq {fs : Files} {cwd : Place} {p : Path} (h : Files.checkPath p = .ok ()) :
    fs.walk cwd p = fs.walkFrom linkBudget (Files.origin cwd p) p.steps := by
  unfold Files.walk
  rw [h]
  rfl

theorem checkPath_of_walk {fs : Files} {cwd : Place} {p : Path} {d : Destination}
    (h : fs.walk cwd p = .ok d) : Files.checkPath p = .ok () := by
  unfold Files.walk at h
  cases hcheck : Files.checkPath p with
  | error e =>
    rw [hcheck] at h
    cases h
  | ok => rfl

theorem holds_of_walk {fs : Files} {cwd : Place} {p : Path} {d : Destination}
    (h : fs.walk cwd p = .ok d) : d.Holds fs := by
  rw [walk_eq (checkPath_of_walk h)] at h
  exact holds_of_walkFrom h

-- A walk to an entry ends at what has come in its place.
theorem walk_of_sameTree {fs fs' : Files} {cwd k : Place} {p : Path} {e e' : Entry}
    (hsame : SameTree fs fs') (h : fs.walk cwd p = .ok (.occupied k e))
    (he' : fs'.find? k = some e') : fs'.walk cwd p = .ok (.occupied k e') := by
  have hcheck := checkPath_of_walk h
  rw [walk_eq hcheck, arrives_iff] at h
  rw [walk_eq hcheck, arrives_iff]
  exact h.sameTree hsame he'

theorem stat_eq (fs : Files) (cwd : Place) (p : Path) :
    fs.stat cwd p =
      match fs.walk cwd p with
      | .ok (.occupied _ e) => .ok e
      | .ok (.vacant _) => .error .notFound
      | .error e => .error e := by
  unfold Files.stat
  rcases fs.walk cwd p with _ | (_ | _) <;> rfl

theorem read_eq (fs : Files) (cwd : Place) (p : Path) :
    fs.read cwd p =
      match fs.stat cwd p with
      | .ok (.file content _ _) => .ok content
      | .ok (.directory _) => .error .isDirectory
      | .ok (.link _) => .error .tooManyLinks
      | .error e => .error e := by
  unfold Files.read
  rcases fs.stat cwd p with _ | (_ | _ | _) <;> rfl

theorem readText_eq (fs : Files) (cwd : Place) (p : Path) :
    fs.readText cwd p =
      match fs.read cwd p with
      | .ok content =>
        match String.fromUTF8? content with
        | some text => .ok text
        | none => .error .notText
      | .error e => .error e := by
  unfold Files.readText
  cases fs.read cwd p with
  | error e => rfl
  | ok content =>
    simp only [bind, Except.bind]
    cases String.fromUTF8? content <;> rfl

theorem write_eq (fs : Files) (cwd : Place) (p : Path) (content : ByteArray) (now : Time) :
    fs.write cwd p content now =
      match fs.walk cwd p with
      | .ok (.occupied place (.file _ _ executable)) =>
        .ok (fs.insert place (.file content now executable))
      | .ok (.occupied _ _) => .error .isDirectory
      | .ok (.vacant place) => .ok (fs.create place (.file content now false) now)
      | .error e => .error e := by
  unfold Files.write
  rcases fs.walk cwd p with _ | (⟨_, _ | _ | _⟩ | _) <;> rfl

-- A file can only be written where a file is or where nothing is.
theorem sameTree_write {fs fs' : Files} {cwd : Place} {p : Path} {content : ByteArray}
    {now : Time} (h : fs.write cwd p content now = .ok fs') : SameTree fs fs' := by
  rw [write_eq] at h
  split at h
  next hwalk =>
    cases h
    exact sameTree_insert (branch_of_file (holds_of_walk hwalk)) rfl
  next => cases h
  next hwalk =>
    cases h
    exact sameTree_create now (holds_of_walk hwalk) rfl
  next => cases h

theorem exists?_eq_true {fs : Files} {cwd : Place} {p : Path} :
    fs.exists? cwd p = .ok true ↔ ∃ k e, fs.walk cwd p = .ok (.occupied k e) := by
  unfold Files.exists?
  rw [stat_eq]
  rcases fs.walk cwd p with e | (_ | _)
  · cases e <;> simp
  · simp
  · simp

/-! ## 3. The directory of a joined path -/

/-- The directory that a path leads to. -/
def Files.walkInto (fs : Files) (cwd : Place) (work : Path) : Except OsError Place :=
  match fs.walkFrom linkBudget (origin cwd work) (work.segments ++ ["."]) with
  | .ok (.occupied place (.directory _)) => .ok place
  | .ok (.occupied _ _) => .error .notDirectory
  | .ok (.vacant _) => .error .notFound
  | .error e => .error e

section Joined

variable {fs fs' : Files} {cwd dir : Place} {work : Path} {name : String} {now : Time}

theorem origin_join (h : IsName name) :
    Files.origin cwd (work.join ⟨name⟩) = Files.origin cwd work := by
  unfold Files.origin
  rw [Path.isAbsolute_join h]

theorem walkParent_join (h : IsName name) :
    fs.walkParent cwd (work.join ⟨name⟩) = fs.walkInto cwd work := by
  unfold Files.walkParent Files.walkInto
  rw [origin_join h, Path.segments_join h, List.dropLast_concat]
  rcases fs.walkFrom linkBudget _ _ with _ | (⟨_, _ | _ | _⟩ | _) <;> rfl

theorem walkInto_eq_ok :
    fs.walkInto cwd work = .ok dir ↔
      ∃ t, Arrives fs linkBudget (Files.origin cwd work) (work.segments ++ ["."]) dir
        (.directory t) := by
  unfold Files.walkInto
  simp only [← arrives_iff]
  rcases fs.walkFrom linkBudget _ _ with _ | (⟨_, _ | _ | _⟩ | _) <;> simp

-- Files come and go, and a directory is still found.
theorem walkInto_of_sameTree (hsame : SameTree fs fs') (h : fs.walkInto cwd work = .ok dir) :
    fs'.walkInto cwd work = .ok dir := by
  obtain ⟨t, ht⟩ := walkInto_eq_ok.mp h
  have hdir := branch_eq_into.mpr ⟨t, (holds_of_walkFrom ht.walkFrom_eq : fs.find? dir = _)⟩
  obtain ⟨t', ht'⟩ := branch_eq_into.mp ((hsame dir).trans hdir)
  exact walkInto_eq_ok.mpr ⟨t', ht.sameTree hsame ht'⟩

-- A joined path leads to its directory first, whatever its last name stands for.
theorem walk_join_of_no_slash (h : '/' ∉ name.toList) (hne : name ≠ "")
    (hcheck : Files.checkPath (work.join ⟨name⟩) = .ok ())
    (hdir : fs.walkInto cwd work = .ok dir) :
    ∃ left, fs.walk cwd (work.join ⟨name⟩) = fs.walkFrom left dir [name] := by
  obtain ⟨t, ht⟩ := walkInto_eq_ok.mp hdir
  obtain ⟨left, hleads⟩ := ht.leads
  refine ⟨left, ?_⟩
  rw [walk_eq hcheck, Files.origin,
    Path.isAbsolute_join_of_relative (Path.not_isAbsolute_of_no_slash h),
    Path.steps_join_of_no_slash h hne]
  exact hleads.walkFrom_append [name]

theorem walk_join (h : IsName name) (hcheck : Files.checkPath (work.join ⟨name⟩) = .ok ())
    (hdir : fs.walkInto cwd work = .ok dir) :
    ∃ left, fs.walk cwd (work.join ⟨name⟩) = fs.walkFrom left dir [name] :=
  walk_join_of_no_slash h.1 h.2.1 hcheck hdir

theorem walk_join_of_none (h : FileName name)
    (hcheck : Files.checkPath (work.join ⟨name⟩) = .ok ())
    (hdir : fs.walkInto cwd work = .ok dir) (hfind : fs.find? (name :: dir) = none) :
    fs.walk cwd (work.join ⟨name⟩) = .ok (.vacant (name :: dir)) := by
  obtain ⟨left, hleft⟩ := walk_join h.1 hcheck hdir
  rw [hleft, walkFrom_plain h.plain, hfind]
  rfl

theorem walk_join_of_file (h : FileName name)
    (hcheck : Files.checkPath (work.join ⟨name⟩) = .ok ())
    (hdir : fs.walkInto cwd work = .ok dir) {content : ByteArray} {t : Time} {x : Bool}
    (hfind : fs.find? (name :: dir) = some (.file content t x)) :
    fs.walk cwd (work.join ⟨name⟩) = .ok (.occupied (name :: dir) (.file content t x)) := by
  obtain ⟨left, hleft⟩ := walk_join h.1 hcheck hdir
  rw [hleft, walkFrom_plain h.plain, hfind]
  rfl

/-! ## 4. Unlinking -/

theorem unlink_join (h : FileName name) :
    fs.unlink cwd (work.join ⟨name⟩) now =
      match Files.checkPath (work.join ⟨name⟩), fs.walkInto cwd work with
      | .error e, _ => .error e
      | .ok _, .error e => .error e
      | .ok _, .ok dir =>
        match fs.find? (name :: dir) with
        | none => .error .notFound
        | some (.directory _) => .error .isDirectory
        | some _ => .ok (fs.delete (name :: dir) now) := by
  unfold Files.unlink
  rw [walkParent_join h.1, Path.getLast?_segments_join h.1, Path.endsInSlash_join h.1]
  rcases Files.checkPath (work.join ⟨name⟩) with _ | _
  · rfl
  rcases fs.walkInto cwd work with _ | dir
  · rfl
  simp only [bind, Except.bind]
  split
  next he => cases he
  next he => exact absurd (Option.some.inj he) h.1.2.2.1
  next he => exact absurd (Option.some.inj he) h.1.2.2.2
  next he =>
    obtain rfl := Option.some.inj he
    rw [if_neg (Nat.not_lt.mpr h.2)]
    rcases fs.find? (name :: dir) with _ | (_ | _ | _) <;> rfl

-- After a path was unlinked it leads nowhere.
theorem stat_of_unlinked (h : FileName name)
    (hunlink : fs.unlink cwd (work.join ⟨name⟩) now = .ok fs') (e : Entry) :
    fs'.stat cwd (work.join ⟨name⟩) ≠ .ok e := by
  rw [unlink_join h] at hunlink
  split at hunlink
  · cases hunlink
  · cases hunlink
  next hcheck hdir =>
    obtain ⟨t, ht⟩ := walkInto_eq_ok.mp hdir
    obtain ⟨left, hleads⟩ := ht.leads
    -- The name may have been a link that the way to the directory itself goes through.
    split at hunlink
    · cases hunlink
    · cases hunlink
    next =>
      cases hunlink
      rw [stat_eq, walk_eq hcheck, origin_join h.1, Path.steps_join h.1]
      intro hstat
      split at hstat
      next hwalk =>
        exact hleads.not_arrives h.plain (lacks_delete fs _ now) _ _ (arrives_iff.mp hwalk)
      next => cases hstat
      next => cases hstat

/-! ## 5. What a name stands for -/

/-- The entry that the last name of a path stands for: a link itself, not what it leads to. -/
def Files.named? (fs : Files) (cwd : Place) (p : Path) : Option Entry :=
  match checkPath p, fs.walkParent cwd p, p.segments.getLast? with
  | .ok _, .ok dir, some name => fs.find? (name :: dir)
  | _, _, _ => none

theorem named?_join (h : IsName name) :
    fs.named? cwd (work.join ⟨name⟩) =
      match Files.checkPath (work.join ⟨name⟩), fs.walkInto cwd work with
      | .ok _, .ok dir => fs.find? (name :: dir)
      | _, _ => none := by
  unfold Files.named?
  rw [walkParent_join h, Path.getLast?_segments_join h]
  rcases Files.checkPath _ with _ | _ <;> rcases fs.walkInto cwd work with _ | _ <;> rfl

theorem named?_join_eq_some (h : IsName name) {e : Entry} :
    fs.named? cwd (work.join ⟨name⟩) = some e ↔
      Files.checkPath (work.join ⟨name⟩) = .ok () ∧
        ∃ dir, fs.walkInto cwd work = .ok dir ∧ fs.find? (name :: dir) = some e := by
  rw [named?_join h]
  rcases Files.checkPath _ with _ | _ <;> rcases fs.walkInto cwd work with _ | _ <;> simp

-- A change that no walk sees shows only in what stands under the names.
theorem named?_join_congr {other : String} (hother : IsName other) (hsame : SameTree fs fs')
    (hfind : ∀ dir, fs.walkInto cwd work = .ok dir →
      fs'.find? (other :: dir) = fs.find? (other :: dir)) :
    fs'.named? cwd (work.join ⟨other⟩) = fs.named? cwd (work.join ⟨other⟩) := by
  rw [named?_join hother, named?_join hother]
  cases hdir : fs.walkInto cwd work with
  | ok dir =>
    rw [walkInto_of_sameTree hsame hdir]
    rcases Files.checkPath _ with _ | _
    · rfl
    · exact hfind dir hdir
  | error e =>
    -- The two walks may fail for different reasons, but neither finds a directory.
    have hnone : ∀ dir, fs'.walkInto cwd work ≠ .ok dir := by
      intro dir hdir'
      rw [walkInto_of_sameTree hsame.symm hdir'] at hdir
      cases hdir
    cases hdir' : fs'.walkInto cwd work with
    | ok dir => exact absurd hdir' (hnone dir)
    | error e' => rcases Files.checkPath _ with _ | _ <;> rfl

theorem find?_delete_name {dir : Place} {other : String} (h : other ≠ name) :
    (fs.delete (name :: dir) now).find? (other :: dir) = fs.find? (other :: dir) := by
  have hplace : other :: dir ≠ name :: dir := fun he => h (List.cons.inj he).1
  rw [Files.find?_delete, if_neg hplace, List.tail_cons, if_neg (List.cons_ne_self other dir)]

theorem find?_create_name {dir : Place} {other : String} {e : Entry} (h : other ≠ name) :
    (fs.create (name :: dir) e now).find? (other :: dir) = fs.find? (other :: dir) := by
  have hplace : other :: dir ≠ name :: dir := fun he => h (List.cons.inj he).1
  rw [Files.find?_create, if_neg hplace, List.tail_cons, if_neg (List.cons_ne_self other dir)]

theorem find?_insert_name {dir : Place} {other : String} {e : Entry} (h : other ≠ name) :
    (fs.insert (name :: dir) e).find? (other :: dir) = fs.find? (other :: dir) := by
  have hplace : other :: dir ≠ name :: dir := fun he => h (List.cons.inj he).1
  rw [Files.find?_insert, if_neg hplace]

/-- A name that stands for no directory and no link. -/
def Files.Unlinkable (fs : Files) (cwd : Place) (p : Path) : Prop :=
  ∀ e, fs.named? cwd p = some e → e.branch = none

/-- The files after an attempt to unlink a path. -/
def Files.unlinked (fs : Files) (cwd : Place) (p : Path) (now : Time) : Files :=
  match fs.unlink cwd p now with
  | .ok fs' => fs'
  | .error _ => fs

-- The attempt either takes away a regular file or changes nothing, and then nothing stood under
-- the name.
theorem unlinked_cases (h : FileName name) (hregular : fs.Unlinkable cwd (work.join ⟨name⟩))
    (now : Time) :
    (∃ dir, fs.walkInto cwd work = .ok dir ∧ fs.branch (name :: dir) = none ∧
      fs.unlinked cwd (work.join ⟨name⟩) now = fs.delete (name :: dir) now) ∨
    (fs.named? cwd (work.join ⟨name⟩) = none ∧
      fs.unlinked cwd (work.join ⟨name⟩) now = fs) := by
  unfold Files.Unlinkable at hregular
  unfold Files.unlinked
  rw [named?_join h.1] at hregular ⊢
  rw [unlink_join h]
  rcases hcheck : Files.checkPath (work.join ⟨name⟩) with _ | _
  · exact Or.inr ⟨rfl, rfl⟩
  rcases hdir : fs.walkInto cwd work with _ | dir
  · exact Or.inr ⟨rfl, rfl⟩
  cases hfind : fs.find? (name :: dir) with
  | none => exact Or.inr ⟨hfind, by simp [hfind]⟩
  | some e =>
    have he := hregular e (by rw [hcheck, hdir]; exact hfind)
    cases e with
    | directory t => cases he
    | link target => cases he
    | file content t x =>
      exact Or.inl ⟨dir, rfl, branch_of_file hfind, by simp [hfind]⟩

theorem named?_unlinked_self (h : FileName name)
    (hregular : fs.Unlinkable cwd (work.join ⟨name⟩)) (now : Time) :
    (fs.unlinked cwd (work.join ⟨name⟩) now).named? cwd (work.join ⟨name⟩) = none := by
  rcases unlinked_cases h hregular now with ⟨dir, hdir, hfile, he⟩ | ⟨hnone, he⟩
  · rw [he, named?_join h.1, walkInto_of_sameTree (sameTree_delete now hfile) hdir]
    rcases Files.checkPath _ with _ | _
    · rfl
    · show (fs.delete (name :: dir) now).find? (name :: dir) = none
      rw [Files.find?_delete, if_pos rfl]
  · rw [he, hnone]

theorem named?_unlinked_other (h : FileName name) {other : String} (hother : FileName other)
    (hne : other ≠ name) (hregular : fs.Unlinkable cwd (work.join ⟨name⟩)) (now : Time) :
    (fs.unlinked cwd (work.join ⟨name⟩) now).named? cwd (work.join ⟨other⟩) =
      fs.named? cwd (work.join ⟨other⟩) := by
  rcases unlinked_cases h hregular now with ⟨dir, hdir, hfile, he⟩ | ⟨hnone, he⟩
  · rw [he]
    apply named?_join_congr hother.1 (sameTree_delete now hfile)
    intro dir' hdir'
    rw [hdir] at hdir'
    obtain rfl := Except.ok.inj hdir'
    exact find?_delete_name hne
  · rw [he]

theorem Files.Unlinkable.branch {dir : Place} (hregular : fs.Unlinkable cwd (work.join ⟨name⟩))
    (h : IsName name)
    (hcheck : Files.checkPath (work.join ⟨name⟩) = .ok ())
    (hdir : fs.walkInto cwd work = .ok dir) : fs.branch (name :: dir) = none := by
  cases hfind : fs.find? (name :: dir) with
  | none => simp [Files.branch, hfind]
  | some e =>
    have he := hregular e ((named?_join_eq_some h).mpr ⟨hcheck, dir, hdir, hfind⟩)
    simpa [Files.branch, hfind] using he

theorem Files.Unlinkable.sameTree (hregular : fs.Unlinkable cwd (work.join ⟨name⟩))
    (h : IsName name) (hsame : SameTree fs fs') :
    fs'.Unlinkable cwd (work.join ⟨name⟩) := by
  intro e he
  obtain ⟨hcheck, dir, hdir, hfind⟩ := (named?_join_eq_some h).mp he
  have hbranch := hregular.branch h hcheck (walkInto_of_sameTree hsame.symm hdir)
  rw [← hsame, Files.branch, hfind] at hbranch
  exact hbranch

/-- A refused unlinking tells that nothing stands under any name in the directory, unless the
name itself is not there. -/
theorem named?_of_unlink_error (h : FileName name)
    (hregular : fs.Unlinkable cwd (work.join ⟨name⟩)) {e : OsError}
    (hunlink : fs.unlink cwd (work.join ⟨name⟩) now = .error e) (he : e ≠ .notFound)
    {other : String} (hother : IsName other)
    (hcheck : Files.checkPath (work.join ⟨other⟩) = .ok () →
      Files.checkPath (work.join ⟨name⟩) = .ok ()) :
    fs.named? cwd (work.join ⟨other⟩) = none := by
  rw [Option.eq_none_iff_forall_ne_some]
  intro entry hentry
  obtain ⟨hother, dir, hdir, -⟩ := (named?_join_eq_some hother).mp hentry
  have hbranch := hregular.branch h.1 (hcheck hother) hdir
  rw [unlink_join h, hcheck hother, hdir] at hunlink
  cases hfind : fs.find? (name :: dir) with
  | none =>
    simp only [hfind, Except.error.injEq] at hunlink
    exact he hunlink.symm
  | some entry =>
    obtain ⟨content, t, x, rfl⟩ := file_of_branch_eq_none hbranch hfind
    simp [hfind] at hunlink

-- A file that a joined path leads to stands under its name, if the directory can be found.
theorem named?_of_stat (h : FileName name) {e : Entry}
    (hstat : fs.stat cwd (work.join ⟨name⟩) = .ok e) (hdir : fs.walkInto cwd work = .ok dir) :
    fs.named? cwd (work.join ⟨name⟩) ≠ none := by
  intro hnone
  rw [stat_eq] at hstat
  have hcheck : Files.checkPath (work.join ⟨name⟩) = .ok () := by
    cases hwalk : fs.walk cwd (work.join ⟨name⟩) with
    | error e =>
      rw [hwalk] at hstat
      cases hstat
    | ok d => exact checkPath_of_walk hwalk
  rw [named?_join h.1, hcheck, hdir] at hnone
  rw [walk_join_of_none h hcheck hdir hnone] at hstat
  cases hstat

-- What stands under a name and leads nowhere is a link.
theorem link_of_named? (h : FileName name) {e : Entry}
    (hnamed : fs.named? cwd (work.join ⟨name⟩) = some e)
    (hnowhere : ∀ x, fs.stat cwd (work.join ⟨name⟩) ≠ .ok x) : ∃ target, e = .link target := by
  obtain ⟨hcheck, dir, hdir, hfind⟩ := (named?_join_eq_some h.1).mp hnamed
  cases e with
  | link target => exact ⟨target, rfl⟩
  | file content t x =>
    refine absurd ?_ (hnowhere (.file content t x))
    rw [stat_eq, walk_join_of_file h hcheck hdir hfind]
  | directory t =>
    obtain ⟨left, hleft⟩ := walk_join h.1 hcheck hdir
    refine absurd ?_ (hnowhere (.directory t))
    rw [stat_eq, hleft, walkFrom_plain h.plain, hfind]
    dsimp only
    rw [walkFrom_nil, hfind]

/-! ## 6. Writing -/

/-- Where a regular file can be, writing makes one; the rest of the directory stays. -/
theorem write_join (h : FileName name) (hcheck : Files.checkPath (work.join ⟨name⟩) = .ok ())
    (hdir : fs.walkInto cwd work = .ok dir) (hbranch : fs.branch (name :: dir) = none)
    (content : ByteArray) (now : Time) :
    ∃ fs' x, fs.write cwd (work.join ⟨name⟩) content now = .ok fs' ∧
      (fs' = fs.create (name :: dir) (.file content now x) now ∨
        fs' = fs.insert (name :: dir) (.file content now x)) := by
  cases hfind : fs.find? (name :: dir) with
  | none =>
    refine ⟨_, false, ?_, Or.inl rfl⟩
    rw [write_eq, walk_join_of_none h hcheck hdir hfind]
  | some e =>
    obtain ⟨old, t, x, rfl⟩ := file_of_branch_eq_none hbranch hfind
    refine ⟨_, x, ?_, Or.inr rfl⟩
    rw [write_eq, walk_join_of_file h hcheck hdir hfind]

theorem checkPath_of_write {p : Path} {content : ByteArray}
    (hwrite : fs.write cwd p content now = .ok fs') : Files.checkPath p = .ok () := by
  rw [write_eq] at hwrite
  cases hwalk : fs.walk cwd p with
  | error e =>
    rw [hwalk] at hwrite
    cases hwrite
  | ok d => exact checkPath_of_walk hwalk

-- What was written stands under its name, if the directory can be found.
theorem named?_written_self (h : FileName name) (hregular : fs.Unlinkable cwd (work.join ⟨name⟩))
    {content : ByteArray} (hwrite : fs.write cwd (work.join ⟨name⟩) content now = .ok fs')
    (hdir : fs.walkInto cwd work = .ok dir) :
    ∃ x, fs'.named? cwd (work.join ⟨name⟩) = some (.file content now x) := by
  have hcheck := checkPath_of_write hwrite
  obtain ⟨made, x, hmade, hcases⟩ := write_join h hcheck hdir
    (hregular.branch h.1 hcheck hdir) content now
  rw [hwrite] at hmade
  obtain rfl := Except.ok.inj hmade
  refine ⟨x, (named?_join_eq_some h.1).mpr
    ⟨hcheck, dir, walkInto_of_sameTree (sameTree_write hwrite) hdir, ?_⟩⟩
  rcases hcases with rfl | rfl
  · rw [Files.find?_create, if_pos rfl]
  · rw [Files.find?_insert, if_pos rfl]

theorem named?_written_other (h : FileName name) {other : String} (hother : IsName other)
    (hne : other ≠ name) (hregular : fs.Unlinkable cwd (work.join ⟨name⟩)) {content : ByteArray}
    (hwrite : fs.write cwd (work.join ⟨name⟩) content now = .ok fs') :
    fs'.named? cwd (work.join ⟨other⟩) = fs.named? cwd (work.join ⟨other⟩) := by
  apply named?_join_congr hother (sameTree_write hwrite)
  intro dir hdir
  have hcheck := checkPath_of_write hwrite
  obtain ⟨made, x, hmade, hcases⟩ := write_join h hcheck hdir
    (hregular.branch h.1 hcheck hdir) content now
  rw [hwrite] at hmade
  obtain rfl := Except.ok.inj hmade
  rcases hcases with rfl | rfl
  · exact find?_create_name hne
  · exact find?_insert_name hne

/-! ## 7. Names of one length -/

-- A path that is accepted with one name is accepted with a name that is not longer.
theorem checkPath_join {short long : String} (hshort : IsName short) (hlong : IsName long)
    (hsize : short.utf8ByteSize ≤ long.utf8ByteSize) (hnul : '\x00' ∉ short.toList)
    (hcheck : Files.checkPath (work.join ⟨long⟩) = .ok ()) :
    Files.checkPath (work.join ⟨short⟩) = .ok () := by
  obtain ⟨hchars, -, hlimit⟩ := checkPath_eq_ok.mp hcheck
  rw [Path.chars_join hlong, List.mem_append, not_or] at hchars
  rw [Path.text_join hlong, String.utf8ByteSize_append] at hlimit
  refine checkPath_eq_ok.mpr ⟨?_, fun he => ?_, ?_⟩
  · rw [Path.chars_join hshort, List.mem_append, not_or]
    exact ⟨hchars.1, hnul⟩
  · have hc := Path.chars_eq_nil he
    rw [Path.chars_join hshort] at hc
    exact hshort.toList_ne_nil (List.append_eq_nil_iff.mp hc).2
  · rw [Path.text_join hshort, String.utf8ByteSize_append]
    omega

/-! ## 8. Paths from a directory -/

variable {p : Path}

theorem walkInto_of_walk {t : Time} (h : fs.walk cwd work = .ok (.occupied dir (.directory t))) :
    fs.walkInto cwd work = .ok dir := by
  rw [walk_eq (checkPath_of_walk h), arrives_iff, Path.steps] at h
  refine walkInto_eq_ok.mpr ⟨t, ?_⟩
  split at h
  · exact h
  · rw [List.append_nil] at h
    exact h.append_dot

theorem checkPath_of_join (hp : p.text ≠ "") (h : Files.checkPath (work.join p) = .ok ()) :
    Files.checkPath p = .ok () := by
  by_cases habsolute : p.isAbsolute = true
  · rwa [Path.join, if_pos habsolute] at h
  · have hrelative := Bool.eq_false_iff.mpr habsolute
    obtain ⟨hchars, -, hlimit⟩ := checkPath_eq_ok.mp h
    rw [Path.chars_join_of_relative hrelative, List.mem_append, not_or] at hchars
    rw [Path.text_join_of_relative hrelative, String.utf8ByteSize_append] at hlimit
    exact checkPath_eq_ok.mpr ⟨hchars.2, hp, by omega⟩

/-- What is found under a path joined to a directory is found under the path itself from there. -/
theorem walk_of_join (hp : p.text ≠ "") (hdir : fs.walkInto cwd work = .ok dir) {k : Place}
    {e : Entry} (h : fs.walk cwd (work.join p) = .ok (.occupied k e)) :
    fs.walk dir p = .ok (.occupied k e) := by
  have hcheck := checkPath_of_walk h
  rw [walk_eq hcheck] at h
  rw [walk_eq (checkPath_of_join hp hcheck)]
  by_cases habsolute : p.isAbsolute = true
  · rw [Path.join, if_pos habsolute, Files.origin, if_pos habsolute] at h
    rwa [Files.origin, if_pos habsolute]
  · have hrelative := Bool.eq_false_iff.mpr habsolute
    have hchars : p.chars ≠ [] := fun he => hp (String.toList_eq_nil_iff.mp he)
    obtain ⟨t, ht⟩ := walkInto_eq_ok.mp hdir
    obtain ⟨left, hleads⟩ := ht.leads
    rw [Files.origin, Path.isAbsolute_join_of_relative hrelative,
      Path.steps_join_of_relative hrelative hchars] at h
    have hrest : fs.walkFrom left dir p.steps = .ok (.occupied k e) := by
      rw [← hleads.walkFrom_append]
      exact h
    -- The way to the directory may have taken some of the budget, which is all left here.
    rw [Files.origin, if_neg habsolute]
    exact ((arrives_iff.mp hrest).mono hleads.le).walkFrom_eq

theorem exists?_of_join (hp : p.text ≠ "") (hdir : fs.walkInto cwd work = .ok dir)
    (h : fs.exists? cwd (work.join p) = .ok true) : fs.exists? dir p = .ok true := by
  obtain ⟨k, e, hwalk⟩ := exists?_eq_true.mp h
  exact exists?_eq_true.mpr ⟨k, e, walk_of_join hp hdir hwalk⟩

end Joined

end VirtBoard.FileSystem
