import VirtBoard.Proofs.Action.Steps

/-!
# Outcomes of actions

Properties that every part of an action can have on its own: that it starts no program, and that
what it gives when it ends well satisfies a condition.  They pass from the parts to the whole.
-/

namespace VirtBoard.Action

open FileSystem

variable {m : Machine} {w : World}

/-- The action starts no program. -/
def Quiet (m : Machine) (a : Action α) : Prop :=
  ∀ w, (a.perform m w).2.runs = w.runs

/-- What the action gives when it ends well satisfies a condition. -/
def Yields (m : Machine) (good : α → Prop) (a : Action α) : Prop :=
  ∀ w x, (a.perform m w).1 = .ok x → good x

/-- The action never ends well. -/
abbrev Fails (m : Machine) (a : Action α) : Prop :=
  Yields m (fun _ => False) a

theorem yields_pure {good : α → Prop} {x : α} (h : good x) : Yields m good (pure x) := by
  intro w y hy
  obtain rfl := Except.ok.inj hy
  exact h

theorem fails_throw (e : Failure) : Fails m (throw e : Action α) := by
  intro w x h
  cases h

theorem yields_any (a : Action α) : Yields m (fun _ => True) a :=
  fun _ _ _ => trivial

theorem Yields.bind {a : Action α} {f : α → Action β} {good : α → Prop} {good' : β → Prop}
    (ha : Yields m good a) (hf : ∀ x, good x → Yields m good' (f x)) :
    Yields m good' (a >>= f) := by
  intro w y hy
  have hw := ha w
  rw [perform_bind] at hy
  rcases hout : a.perform m w with ⟨_ | x, w₁⟩
  · rw [hout] at hy
    cases hy
  · rw [hout] at hw hy
    exact hf x (hw x rfl) w₁ y hy

theorem yields_attempt {a : Action α} {good : α → Prop} (ha : Yields m good a) :
    Yields m (fun x => ∀ y, x = .ok y → good y) (attempt a) := by
  intro w x hx y hy
  rw [perform_attempt] at hx
  exact ha w y ((Except.ok.inj hx).trans hy)

theorem yields_ofExcept {x : Except Failure α} {good : α → Prop} (h : ∀ y, x = .ok y → good y) :
    Yields m good (ofExcept x : Action α) := by
  intro w y hy
  rw [perform_ofExcept] at hy
  exact h y hy

theorem Quiet.bind {a : Action α} {f : α → Action β} (ha : Quiet m a) (hf : ∀ x, Quiet m (f x)) :
    Quiet m (a >>= f) := by
  intro w
  have hw := ha w
  rw [perform_bind]
  rcases hout : a.perform m w with ⟨_ | x, w₁⟩
  · rwa [hout] at hw
  · rw [hout] at hw
    exact (hf x w₁).trans hw

theorem quiet_pure (x : α) : Quiet m (pure x) :=
  fun _ => rfl

theorem quiet_throw (e : Failure) : Quiet m (throw e : Action α) :=
  fun _ => rfl

theorem quiet_throw_bind (e : Failure) (f : α → Action β) : Quiet m (throw e >>= f) :=
  fun _ => rfl

theorem quiet_ofExcept (x : Except Failure α) : Quiet m (ofExcept x : Action α) := by
  intro w
  rw [perform_ofExcept]

theorem quiet_ask (question : Place → Files → Except OsError α) (failure : OsError → Failure) :
    Quiet m (ask question failure) := by
  intro w
  rw [perform_ask]
  split <;> rfl

theorem quiet_warn (warning : Qemu.Warning) : Quiet m (warn warning) :=
  fun w => World.runs_warned w warning

theorem quiet_writeText (p : Path) (text : String) : Quiet m (writeText p text) :=
  fun _ => runs_writeText p text

theorem quiet_discard (p : Path) : Quiet m (discard p) :=
  fun _ => runs_discard p

theorem quiet_remove (p : Path) : Quiet m (remove p) :=
  fun _ => runs_remove p

theorem quiet_attempt {a : Action α} (h : Quiet m a) : Quiet m (attempt a) :=
  h

theorem quiet_mapM {f : α → Action β} (h : ∀ x, Quiet m (f x)) (xs : List α) :
    Quiet m (xs.mapM f) := by
  induction xs with
  | nil => exact quiet_pure []
  | cons x xs ih =>
    rw [List.mapM_cons]
    exact (h x).bind fun y => ih.bind fun ys => quiet_pure (y :: ys)

end VirtBoard.Action
