import VirtBoard.DeviceTree.Freshness
import VirtBoard.Proofs.FileSystem.NamedEntries

/-!
# Steps of actions

What each elementary action does to the world: asking changes nothing, a file operation changes the
files and leaves the runs, and starting a program adds one run and leaves the files as the program
left them.
-/

namespace VirtBoard

open FileSystem

namespace World

@[simp] theorem files_record (w : World) (e : Event) : (w.record e).files = w.files :=
  rfl

@[simp] theorem runs_warned (w : World) (warning : Qemu.Warning) :
    (w.record (.warned warning)).runs = w.runs := by
  simp [runs, record]

@[simp] theorem runs_printed (w : World) (text : String) :
    (w.record (.printed text)).runs = w.runs := by
  simp [runs, record]

@[simp] theorem runs_wrote (w : World) (p : Path) (text : String) :
    (w.record (.wrote p text)).runs = w.runs := by
  simp [runs, record]

@[simp] theorem runs_removed (w : World) (p : Path) : (w.record (.removed p)).runs = w.runs := by
  simp [runs, record]

@[simp] theorem runs_with_files (w : World) (files : Files) :
    ({ w with files } : World).runs = w.runs :=
  rfl

@[simp] theorem runs_after (w : World) (r : Run) : (w.after r).runs = w.runs ++ [r] := by
  simp [runs, after, record]

@[simp] theorem files_after (w : World) (r : Run) : (w.after r).files = r.effect.files :=
  rfl

@[simp] theorem now_after (w : World) (r : Run) : (w.after r).now = r.effect.now :=
  rfl

/-- The world after several runs, one after the other. -/
def afterAll (w : World) (rs : List Run) : World :=
  rs.foldl after w

@[simp] theorem runs_afterAll (w : World) (rs : List Run) :
    (w.afterAll rs).runs = w.runs ++ rs := by
  unfold afterAll
  induction rs generalizing w with
  | nil => exact (List.append_nil _).symm
  | cons r rs ih => rw [List.foldl_cons, ih, runs_after, List.append_assoc, List.singleton_append]

theorem afterAll_append (w : World) (rs ss : List Run) :
    w.afterAll (rs ++ ss) = (w.afterAll rs).afterAll ss :=
  List.foldl_append

/-- The texts that were printed, in order. -/
def printed (w : World) : List String :=
  w.journal.filterMap fun
    | .printed text => some text
    | _ => none

@[simp] theorem printed_printed (w : World) (text : String) :
    (w.record (.printed text)).printed = w.printed ++ [text] := by
  simp [printed, record]

@[simp] theorem printed_warned (w : World) (warning : Qemu.Warning) :
    (w.record (.warned warning)).printed = w.printed := by
  simp [printed, record]

@[simp] theorem printed_after (w : World) (r : Run) : (w.after r).printed = w.printed := by
  simp [printed, after, record]

end World

namespace Action

variable {m : Machine} {w : World}

/-! ## 1. Asking and telling -/

theorem perform_machine : perform machine m w = (.ok m, w) :=
  rfl

theorem perform_get : perform (get : Action World) m w = (.ok w, w) :=
  rfl

theorem perform_bind_pure (a : Action α) (f : α → β) :
    perform (a >>= fun x => pure (f x)) m w =
      ((perform a m w).1.map f, (perform a m w).2) := by
  rw [perform_bind]
  rcases perform a m w with ⟨_ | _, _⟩ <;> rfl

theorem perform_ask (question : Place → Files → Except OsError α) (failure : OsError → Failure) :
    perform (ask question failure) m w =
      match question m.cwd w.files with
      | .ok a => (.ok a, w)
      | .error e => (.error (failure e), w) := by
  simp only [ask, perform_bind, perform_machine, perform_get]
  cases question m.cwd w.files <;> rfl

theorem perform_ofExcept (x : Except Failure α) :
    perform (ofExcept x : Action α) m w = (x, w) := by
  cases x <;> rfl

theorem perform_warn (warning : Qemu.Warning) :
    perform (warn warning) m w = (.ok (), w.record (.warned warning)) :=
  rfl

theorem perform_which (p : Path) (failure : Failure) :
    perform (which p failure) m w =
      match m.which w.files p with
      | some found => (.ok found, w)
      | none => (.error failure, w) := by
  simp only [which, perform_bind, perform_machine, perform_get]
  cases m.which w.files p <;> rfl

theorem perform_isFresh (source binary : Path) :
    perform (DeviceTree.isFresh source binary) m w =
      (DeviceTree.isFresh? w.files m.cwd source binary, w) := by
  show perform (ofExcept _) m w = _
  rw [perform_ofExcept]

/-! ## 2. Files -/

theorem perform_readText (p : Path) :
    perform (readText p) m w =
      match w.files.readText m.cwd p with
      | .ok text => (.ok text, w)
      | .error _ => (.error (.file .read p), w) := by
  rw [readText, perform_ask]
  cases w.files.readText m.cwd p <;> rfl

theorem perform_writeText (p : Path) (text : String) :
    perform (writeText p text) m w =
      match w.files.write m.cwd p text.toUTF8 w.now with
      | .ok files => (.ok (), { w with files }.record (.wrote p text))
      | .error _ => (.error (.file .write p), w) := by
  simp only [writeText, perform_bind, perform_get, perform_ask]
  cases w.files.write m.cwd p text.toUTF8 w.now <;> rfl

theorem perform_remove (p : Path) :
    perform (remove p) m w =
      match w.files.unlink m.cwd p w.now with
      | .ok files => (.ok (), { w with files }.record (.removed p))
      | .error _ => (.error (.file .remove p), w) := by
  simp only [remove, perform_bind, perform_get, perform_ask]
  cases w.files.unlink m.cwd p w.now <;> rfl

theorem remove_eq_ok {p : Path} {w' : World} (h : perform (remove p) m w = (.ok (), w')) :
    w.files.unlink m.cwd p w.now = .ok w'.files ∧ w'.now = w.now := by
  rw [perform_remove] at h
  split at h
  next files hunlink =>
    cases h
    exact ⟨hunlink, rfl⟩
  next => cases h

theorem perform_discard (p : Path) :
    perform (discard p) m w =
      match w.files.unlink m.cwd p w.now with
      | .ok files => (.ok (), { w with files }.record (.removed p))
      | .error .notFound => (.ok (), w)
      | .error _ => (.error (.file .remove p), w) := by
  simp only [discard, perform_bind, perform_get, perform_machine]
  rcases w.files.unlink m.cwd p w.now with _ | _
  · split <;> simp_all <;> rfl
  · rfl

@[simp] theorem runs_remove (p : Path) : (perform (remove p) m w).2.runs = w.runs := by
  rw [perform_remove]
  split <;> simp

@[simp] theorem files_remove (p : Path) :
    (perform (remove p) m w).2.files = w.files.unlinked m.cwd p w.now := by
  rw [perform_remove, Files.unlinked]
  cases w.files.unlink m.cwd p w.now <;> simp

@[simp] theorem runs_discard (p : Path) : (perform (discard p) m w).2.runs = w.runs := by
  rw [perform_discard]
  split <;> simp

@[simp] theorem files_discard (p : Path) :
    (perform (discard p) m w).2.files = w.files.unlinked m.cwd p w.now := by
  rw [perform_discard, Files.unlinked]
  cases w.files.unlink m.cwd p w.now with
  | ok files => simp
  | error e => cases e <;> simp

@[simp] theorem runs_writeText (p : Path) (text : String) :
    (perform (writeText p text) m w).2.runs = w.runs := by
  rw [perform_writeText]
  split <;> simp

/-! ## 3. Cleaning up -/

/-- An action with a clean-up behind it, however the action ends. -/
def cleaned (a : Action α) (clean : Action Unit) : Action α := do
  let result ← attempt a
  clean
  ofExcept result

theorem perform_cleaned (a : Action α) (clean : Action Unit) :
    perform (cleaned a clean) m w =
      match perform clean m (perform a m w).2 with
      | (.ok _, w₁) => ((perform a m w).1, w₁)
      | (.error e, w₁) => (.error e, w₁) := by
  simp only [cleaned, perform_bind, perform_attempt, perform_ofExcept]
  rcases perform clean m (perform a m w).2 with ⟨_ | _, _⟩ <;> rfl

theorem perform_cleaned_congr {a b : Action α} {clean : Action Unit}
    (h : perform a m w = perform b m w) :
    perform (cleaned a clean) m w = perform (cleaned b clean) m w := by
  rw [perform_cleaned, perform_cleaned, h]

-- What goes on after a clean-up.
theorem perform_cleaned_bind (a : Action α) (clean : Action Unit) (f : α → Action β) :
    perform (do
        let result ← attempt a
        clean
        let x ← ofExcept result
        f x) m w =
      perform (cleaned a clean >>= f) m w := by
  rw [perform_bind (cleaned a clean), perform_cleaned]
  simp only [perform_bind, perform_attempt, perform_ofExcept]
  rcases perform clean m (perform a m w).2 with ⟨_ | _, _⟩ <;> rfl

/-! ## 4. Programs -/

/-- What comes of starting a command in a world, with its output shown. -/
def shownRun? (m : Machine) (w : World) (command : Command) : Option Run :=
  m.run? w.runs w.files w.now .shown command

theorem shownRun?_congr {w₁ : World} (hfiles : w₁.files = w.files) (hnow : w₁.now = w.now)
    (hruns : w₁.runs = w.runs) (command : Command) :
    shownRun? m w₁ command = shownRun? m w command := by
  rw [shownRun?, shownRun?, hfiles, hnow, hruns]

/-- A run that was started by a command, in a world. -/
structure Started (m : Machine) (w : World) (command : Command) (r : Run) : Prop where
  command : r.start.command = command
  files : r.start.files = w.files
  effect : m.programs w.runs r.start = some r.effect

theorem run?_eq (m : Machine) (before : List Run) (files : Files) (now : Time) (output : Output)
    (command : Command) :
    m.run? before files now output command =
      if command.args.all isPassable = true then
        (m.locate files command.program).bind fun place =>
          (m.programs before ⟨command, place, files, now⟩).map fun effect =>
            ⟨⟨command, place, files, now⟩, output, effect⟩
      else none := by
  -- Both sides branch on the same test, so the guard is opened before the case split.
  unfold Machine.run? guard
  by_cases hargs : command.args.all isPassable = true
  · rw [if_pos hargs, if_pos hargs]
    cases m.locate files command.program with
    | none => rfl
    | some place =>
      rw [Option.bind_some]
      exact (Option.map_eq_bind (x := m.programs before ⟨command, place, files, now⟩)).symm
  · rw [if_neg hargs, if_neg hargs]
    rfl

theorem started_of_run? {output : Output} {command : Command} {r : Run}
    (h : m.run? w.runs w.files w.now output command = some r) : Started m w command r := by
  rw [run?_eq] at h
  split at h
  next =>
    obtain ⟨place, -, hrun⟩ := Option.bind_eq_some_iff.mp h
    obtain ⟨effect, heffect, rfl⟩ := Option.map_eq_some_iff.mp hrun
    exact ⟨rfl, rfl, heffect⟩
  next => cases h

theorem now_of_shownRun? {command : Command} {r : Run} (h : shownRun? m w command = some r) :
    r.start.now = w.now := by
  rw [shownRun?, run?_eq] at h
  split at h
  next =>
    obtain ⟨place, -, hrun⟩ := Option.bind_eq_some_iff.mp h
    obtain ⟨effect, -, rfl⟩ := Option.map_eq_some_iff.mp hrun
    rfl
  next => cases h

theorem started_of_shownRun? {command : Command} {r : Run}
    (h : shownRun? m w command = some r) : Started m w command r :=
  started_of_run? h

theorem perform_startWith (command : Command) (output : Output) :
    perform (start command output) m w =
      match m.run? w.runs w.files w.now output command with
      | none => (.ok none, w)
      | some r => (.ok (some r.effect), w.after r) := by
  simp only [start, perform_bind, perform_get, perform_machine]
  cases m.run? w.runs w.files w.now output command <;> rfl

theorem perform_start (command : Command) :
    perform (start command .shown) m w =
      match shownRun? m w command with
      | none => (.ok none, w)
      | some r => (.ok (some r.effect), w.after r) :=
  perform_startWith command .shown

theorem perform_run (tool : String) (command : Command) :
    perform (run tool command) m w =
      match shownRun? m w command with
      | none => (.error (.notStarted tool), w)
      | some r =>
        (if r.effect.status = .success then .ok () else .error (.failed tool r.effect.status),
          w.after r) := by
  unfold run
  rw [perform_bind, perform_start]
  cases shownRun? m w command with
  | none => rfl
  | some r => by_cases hs : r.effect.status = .success <;> simp [hs] <;> rfl

end Action

end VirtBoard
