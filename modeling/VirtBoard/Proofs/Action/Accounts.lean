import VirtBoard.Proofs.Action.Steps

/-!
# The accounts of an action

The journal of a world is a full account of what an action does to it: every change of the files and
of the clock is that of one recorded event.  What an action does to the files itself, as opposed to
the programs that it starts, can be planned part by part.
-/

namespace VirtBoard

open FileSystem

/-! ## 1. Events as steps -/

/-- What is done to the files by the one who keeps the journal. -/
inductive FileOperation where
  | write (path : Path)
  | unlink (path : Path)
deriving DecidableEq

def Event.own : Event → Option FileOperation
  | .wrote p _ => some (.write p)
  | .removed p => some (.unlink p)
  | .ran _ | .warned _ | .printed _ => none

/-- When an event can happen in a world, and the world that it leaves. -/
inductive Happens (m : Machine) (w : World) : Event → World → Prop where
  | ran {r : Run} : r.start.files = w.files → m.programs w.runs r.start = some r.effect →
      Happens m w (.ran r) (w.after r)
  | wrote {p : Path} {text : String} {files : Files} :
      w.files.write m.cwd p text.toUTF8 w.now = .ok files →
      Happens m w (.wrote p text) ({ w with files }.record (.wrote p text))
  | removed {p : Path} {files : Files} : w.files.unlink m.cwd p w.now = .ok files →
      Happens m w (.removed p) ({ w with files }.record (.removed p))
  | warned {warning : Qemu.Warning} : Happens m w (.warned warning) (w.record (.warned warning))
  | printed {text : String} : Happens m w (.printed text) (w.record (.printed text))

/-- Events that lead from one world to another, one step each. -/
inductive Replay (step : World → Event → World → Prop) : World → List Event → World → Prop where
  | done {w : World} : Replay step w [] w
  | next {w w₁ w₂ : World} {e : Event} {es : List Event} : step w e w₁ → Replay step w₁ es w₂ →
      Replay step w (e :: es) w₂

namespace Replay

variable {step : World → Event → World → Prop} {w w₁ w₂ : World} {es es' : List Event}

theorem append (h₁ : Replay step w es w₁) (h₂ : Replay step w₁ es' w₂) :
    Replay step w (es ++ es') w₂ := by
  induction h₁ with
  | done => exact h₂
  | next hstep _ ih => exact .next hstep (ih h₂)

theorem one {e : Event} (h : step w e w₁) : Replay step w [e] w₁ :=
  .next h .done

theorem imp {step' : World → Event → World → Prop} (h : Replay step w es w₁)
    (himp : ∀ w e w', e ∈ es → step w e w' → step' w e w') : Replay step' w es w₁ := by
  induction h with
  | done => exact .done
  | next hstep _ ih =>
    refine .next (himp _ _ _ List.mem_cons_self hstep) (ih ?_)
    exact fun w e w' he => himp w e w' (List.mem_cons_of_mem _ he)

theorem journal {m : Machine} (h : Replay (Happens m) w es w₁) : w₁.journal = w.journal ++ es := by
  induction h with
  | done => exact (List.append_nil _).symm
  | next hstep _ ih =>
    rw [ih, ← List.singleton_append, ← List.append_assoc]
    cases hstep <;> rfl

end Replay

namespace Action

variable {m : Machine} {plan plan' : List FileOperation}

/-! ## 2. Planned operations -/

/-- The events that an action records account for what it does, and its own operations are some of
those planned, in order. -/
def Accounts (m : Machine) (plan : List FileOperation) (a : Action α) : Prop :=
  ∀ w, ∃ es, Replay (Happens m) w es (a.perform m w).2 ∧ (es.filterMap Event.own).Sublist plan

theorem Accounts.runs {a : Action α} (h : Accounts m plan a) (w : World) :
    w.runs <+: (a.perform m w).2.runs := by
  obtain ⟨es, hes, -⟩ := h w
  exact List.IsPrefix.filterMap _ ⟨es, hes.journal.symm⟩

theorem Accounts.mono {a : Action α} (h : Accounts m plan a) (hplan : plan.Sublist plan') :
    Accounts m plan' a := by
  intro w
  obtain ⟨es, hes, hown⟩ := h w
  exact ⟨es, hes, hown.trans hplan⟩

theorem Accounts.bind_of_yields {a : Action α} {f : α → Action β} {good : α → Prop}
    (ha : Accounts m plan a) (hgood : ∀ w x, (a.perform m w).1 = .ok x → good x)
    (hf : ∀ x, good x → Accounts m plan' (f x)) : Accounts m (plan ++ plan') (a >>= f) := by
  intro w
  have hw := hgood w
  obtain ⟨es, hes, hown⟩ := ha w
  rw [perform_bind]
  rcases hout : a.perform m w with ⟨e | x, w₁⟩
  · -- Nothing is done after a failure, and the plan need not be carried out to its end.
    rw [hout] at hes
    exact ⟨es, hes, hown.trans (List.sublist_append_left _ _)⟩
  · rw [hout] at hes hw
    obtain ⟨es', hes', hown'⟩ := hf x (hw x rfl) w₁
    refine ⟨es ++ es', hes.append hes', ?_⟩
    rw [List.filterMap_append]
    exact hown.append hown'

theorem Accounts.bind {a : Action α} {f : α → Action β} (ha : Accounts m plan a)
    (hf : ∀ x, Accounts m plan' (f x)) : Accounts m (plan ++ plan') (a >>= f) :=
  ha.bind_of_yields (fun _ _ _ => trivial) fun x _ => hf x

theorem accounts_of_still {a : Action α} (h : ∀ w, (a.perform m w).2 = w) : Accounts m [] a := by
  intro w
  rw [h w]
  exact ⟨[], .done, .slnil⟩

theorem accounts_of_one {a : Action α}
    (h : ∀ w, (a.perform m w).2 = w ∨
      ∃ e, Happens m w e (a.perform m w).2 ∧ e.own.toList.Sublist plan) : Accounts m plan a := by
  intro w
  rcases h w with hstill | ⟨e, he, hown⟩
  · rw [hstill]
    exact ⟨[], .done, List.nil_sublist _⟩
  · refine ⟨[e], .one he, ?_⟩
    cases hop : e.own with
    | none => simp [hop]
    | some op => simpa [hop] using hown

theorem accounts_pure (x : α) : Accounts m [] (pure x) :=
  accounts_of_still fun _ => rfl

theorem accounts_throw (e : Failure) : Accounts m [] (throw e : Action α) :=
  accounts_of_still fun _ => rfl

theorem accounts_throw_bind (e : Failure) (f : α → Action β) : Accounts m [] (throw e >>= f) :=
  accounts_of_still fun _ => rfl

theorem accounts_ofExcept (x : Except Failure α) : Accounts m [] (ofExcept x : Action α) :=
  accounts_of_still fun w => by rw [perform_ofExcept]

theorem accounts_ask (question : Place → Files → Except OsError α) (failure : OsError → Failure) :
    Accounts m [] (ask question failure) :=
  accounts_of_still fun w => by rw [perform_ask]; split <;> rfl

theorem accounts_which (p : Path) (failure : Failure) : Accounts m [] (which p failure) :=
  accounts_of_still fun w => by rw [perform_which]; split <;> rfl

theorem accounts_warn (warning : Qemu.Warning) : Accounts m [] (warn warning) :=
  accounts_of_one fun _ => Or.inr ⟨_, .warned, .slnil⟩

theorem accounts_writeText (p : Path) (text : String) :
    Accounts m [.write p] (writeText p text) := by
  refine accounts_of_one fun w => ?_
  rw [perform_writeText]
  split
  next files hwrite => exact Or.inr ⟨_, .wrote hwrite, List.Sublist.refl _⟩
  next => exact Or.inl rfl

theorem accounts_remove (p : Path) : Accounts m [.unlink p] (remove p) := by
  refine accounts_of_one fun w => ?_
  rw [perform_remove]
  split
  next files hunlink => exact Or.inr ⟨_, .removed hunlink, List.Sublist.refl _⟩
  next => exact Or.inl rfl

theorem accounts_discard (p : Path) : Accounts m [.unlink p] (discard p) := by
  refine accounts_of_one fun w => ?_
  rw [perform_discard]
  split
  next files hunlink => exact Or.inr ⟨_, .removed hunlink, List.Sublist.refl _⟩
  next => exact Or.inl rfl
  next => exact Or.inl rfl

theorem accounts_start (command : Command) (output : Output) :
    Accounts m [] (start command output) := by
  refine accounts_of_one fun w => ?_
  rw [perform_startWith]
  split
  next => exact Or.inl rfl
  next r hr =>
    have hstarted := started_of_run? hr
    exact Or.inr ⟨_, .ran hstarted.files hstarted.effect, .slnil⟩

theorem accounts_run (tool : String) (command : Command) : Accounts m [] (run tool command) := by
  unfold run
  refine (accounts_start command .shown).bind fun effect => ?_
  cases effect with
  | none => exact accounts_throw _
  | some effect =>
    dsimp only
    split
    · exact accounts_throw _
    · exact accounts_pure _

theorem accounts_attempt {a : Action α} (h : Accounts m plan a) : Accounts m plan (attempt a) :=
  h

theorem accounts_mapM {f : α → Action β} (h : ∀ x, Accounts m [] (f x)) (xs : List α) :
    Accounts m [] (xs.mapM f) := by
  induction xs with
  | nil => exact accounts_pure []
  | cons x xs ih =>
    rw [List.mapM_cons]
    exact (h x).bind fun y => ih.bind fun ys => accounts_pure (y :: ys)

end Action

end VirtBoard
