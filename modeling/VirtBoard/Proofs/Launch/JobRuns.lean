import Mathlib.Data.List.Forall2
import VirtBoard.Proofs.Action.Outcomes
import VirtBoard.Proofs.Launch.Jobs

/-!
# Runs for jobs

Programs that are started for jobs, one after the other, each only after the one before it has
succeeded.  Which jobs an action does follows from its parts.
-/

namespace VirtBoard.Launch

open VirtBoard.Action FileSystem

/-! ## 1. Runs that follow jobs -/

/-- Runs that do all of the jobs and succeed. -/
def Completes (fits : Job → Run → Prop) (js : List Job) (rs : List Run) : Prop :=
  List.Forall₂ fits js rs ∧ ∀ r ∈ rs, r.effect.status = .success

/-- Runs that do the first of the jobs, and of which at most the last one did not succeed. -/
inductive Follows (fits : Job → Run → Prop) : List Job → List Run → Prop where
  | nil {js} : Follows fits js []
  | last {j js r} : fits j r → Follows fits (j :: js) [r]
  | next {j js r rs} : fits j r → r.effect.status = .success → Follows fits js rs →
      Follows fits (j :: js) (r :: rs)

section Follows

variable {fits : Job → Run → Prop} {js ks : List Job} {rs ss : List Run}

theorem Completes.nil : Completes fits [] [] :=
  ⟨.nil, by simp⟩

theorem Completes.append (h : Completes fits js rs) (h' : Completes fits ks ss) :
    Completes fits (js ++ ks) (rs ++ ss) :=
  ⟨List.rel_append h.1 h'.1, by simpa [or_imp, forall_and] using ⟨h.2, h'.2⟩⟩

theorem Completes.append_follows (h : Completes fits js rs) (h' : Follows fits ks ss) :
    Follows fits (js ++ ks) (rs ++ ss) := by
  obtain ⟨hfits, hsuccess⟩ := h
  induction hfits with
  | nil => exact h'
  | cons hfit _ ih =>
    exact .next hfit (hsuccess _ List.mem_cons_self)
      (ih fun r hr => hsuccess r (List.mem_cons_of_mem _ hr))

theorem Completes.follows (h : Completes fits js rs) : Follows fits js rs := by
  have hfollows : Follows fits (js ++ []) (rs ++ []) := h.append_follows .nil
  rwa [List.append_nil, List.append_nil] at hfollows

theorem Follows.append (h : Follows fits js rs) (ks : List Job) : Follows fits (js ++ ks) rs := by
  induction h with
  | nil => exact .nil
  | last hfit => exact .last hfit
  | next hfit hsuccess _ ih => exact .next hfit hsuccess ih

theorem Follows.single_cases {j : Job} (h : Follows fits [j] rs) :
    rs = [] ∨ ∃ r, rs = [r] ∧ fits j r := by
  cases h with
  | nil => exact Or.inl rfl
  | last hfit => exact Or.inr ⟨_, rfl, hfit⟩
  | next hfit _ hrest =>
    cases hrest
    exact Or.inr ⟨_, rfl, hfit⟩

theorem Follows.jobs (h : Follows fits js rs) : List.Forall₂ fits (js.take rs.length) rs := by
  induction h with
  | nil => simp
  | last hfit => simpa using hfit
  | next hfit _ _ ih => exact .cons hfit ih

theorem Follows.fits_of_mem (h : Follows fits js rs) : ∀ r ∈ rs, ∃ j ∈ js, fits j r := by
  induction h with
  | nil => exact fun _ hr => absurd hr List.not_mem_nil
  | @last j js r hfit =>
    intro r' hr'
    obtain rfl := List.mem_singleton.mp hr'
    exact ⟨j, List.mem_cons_self, hfit⟩
  | @next j js r rs hfit _ _ ih =>
    intro r' hr'
    rcases List.mem_cons.mp hr' with rfl | hr'
    · exact ⟨j, List.mem_cons_self, hfit⟩
    · obtain ⟨k, hk, hfits⟩ := ih r' hr'
      exact ⟨k, List.mem_cons_of_mem j hk, hfits⟩

theorem Follows.succeeded (h : Follows fits js rs) :
    ∀ r ∈ rs.dropLast, r.effect.status = .success := by
  induction h with
  | nil => simp
  | last _ => simp
  | @next j js r rs hfit hsuccess _ ih =>
    intro r' hr'
    cases rs with
    | nil => simp at hr'
    | cons s ss =>
      rw [List.dropLast_cons_cons, List.mem_cons] at hr'
      rcases hr' with rfl | hr'
      · exact hsuccess
      · exact ih r' hr'

end Follows

/-! ## 2. Actions that play jobs -/

section Plays

variable {fits : Job → Run → Prop} {js ks : List Job} {m : Machine} {w : World}

/-- The action starts programs for the jobs, in order, and when it ends well then the runs satisfy
a condition. -/
def Plays (fits : Job → Run → Prop) (js : List Job) (good : α → List Run → Prop) (m : Machine)
    (w : World) (a : Action α) : Prop :=
  ∃ done, (a.perform m w).2.runs = w.runs ++ done ∧ Follows fits js done ∧
    ∀ x, (a.perform m w).1 = .ok x → good x done

/-- The action does all the jobs if it ends well. -/
abbrev PlaysAll (fits : Job → Run → Prop) (js : List Job) (m : Machine) (w : World)
    (a : Action α) : Prop :=
  Plays fits js (fun _ => Completes fits js) m w a

theorem plays_of_quiet {a : Action α} (h : Quiet m a) : PlaysAll fits [] m w a :=
  ⟨[], by rw [h w, List.append_nil], .nil, fun _ _ => .nil⟩

theorem plays_quiet_bind {a : Action α} {f : α → Action β} {good : β → List Run → Prop}
    (ha : Quiet m a)
    (hf : ∀ x w₁, a.perform m w = (.ok x, w₁) → Plays fits js good m w₁ (f x)) :
    Plays fits js good m w (a >>= f) := by
  have hw := ha w
  unfold Plays
  rw [perform_bind]
  rcases hout : a.perform m w with ⟨_ | x, w₁⟩
  · rw [hout] at hw
    exact ⟨[], by rw [List.append_nil]; exact hw, .nil, fun _ h => by cases h⟩
  · rw [hout] at hw
    obtain ⟨done, hruns, hdone⟩ := hf x w₁ hout
    change w₁.runs = w.runs at hw
    rw [hw] at hruns
    exact ⟨done, hruns, hdone⟩

theorem Plays.bind_quiet {a : Action α} {f : α → Action α} {good : α → List Run → Prop}
    (ha : Plays fits js good m w a) (hquiet : ∀ x, Quiet m (f x))
    (hyields : ∀ x, Yields m (· = x) (f x)) : Plays fits js good m w (a >>= f) := by
  obtain ⟨done, hruns, hfollows, hgood⟩ := ha
  unfold Plays
  rw [perform_bind]
  rcases hout : a.perform m w with ⟨_ | x, w₁⟩
  · rw [hout] at hruns
    exact ⟨done, hruns, hfollows, fun _ h => by cases h⟩
  · rw [hout] at hruns hgood
    refine ⟨done, (hquiet x w₁).trans hruns, hfollows, fun y hy => ?_⟩
    rw [hyields x w₁ y hy]
    exact hgood x rfl

theorem Plays.mono {a : Action α} {good good' : α → List Run → Prop} (h : Plays fits js good m w a)
    (hgood : ∀ x done, good x done → good' x done) : Plays fits js good' m w a := by
  obtain ⟨done, hruns, hfollows, hdone⟩ := h
  exact ⟨done, hruns, hfollows, fun x hx => hgood x done (hdone x hx)⟩

theorem Plays.congr {a b : Action α} {good : α → List Run → Prop} (h : Plays fits js good m w b)
    (hab : a.perform m w = b.perform m w) : Plays fits js good m w a := by
  unfold Plays at h ⊢
  rwa [hab]

/-- What follows an action plays the jobs that are left, if the action did all of its own; else it
has to fail at once.  What the action ran is known to what follows. -/
theorem plays_bind {a : Action α} {f : α → Action β} {good : α → List Run → Prop}
    {good' : β → List Run → Prop} (ha : Plays fits js good m w a)
    (hf : ∀ x w₁ rs, a.perform m w = (.ok x, w₁) → w₁.runs = w.runs ++ rs → good x rs →
      (∃ e, (f x).perform m w₁ = (.error e, w₁)) ∨
        (Completes fits js rs ∧ Plays fits ks (fun y ss => good' y (rs ++ ss)) m w₁ (f x))) :
    Plays fits (js ++ ks) good' m w (a >>= f) := by
  obtain ⟨rs, hruns, hfollows, hgood⟩ := ha
  unfold Plays
  rw [perform_bind]
  rcases hout : a.perform m w with ⟨_ | x, w₁⟩
  · rw [hout] at hruns
    exact ⟨rs, hruns, hfollows.append ks, fun _ h => by cases h⟩
  · rw [hout] at hruns hgood
    rcases hf x w₁ rs hout hruns (hgood x rfl) with
      ⟨e, hstop⟩ | ⟨hcompletes, ss, hruns', hfollows', hgood'⟩
    · refine ⟨rs, ?_, hfollows.append ks, fun y hy => ?_⟩
      · show ((f x).perform m w₁).2.runs = _
        rw [hstop]
        exact hruns
      · change ((f x).perform m w₁).1 = _ at hy
        rw [hstop] at hy
        cases hy
    · refine ⟨rs ++ ss, ?_, hcompletes.append_follows hfollows', hgood'⟩
      show ((f x).perform m w₁).2.runs = _
      rw [hruns', hruns, List.append_assoc]

theorem playsAll_bind {a : Action α} {f : α → Action β} {good : α → List Run → Prop}
    (ha : Plays fits js good m w a)
    (hf : ∀ x w₁ rs, a.perform m w = (.ok x, w₁) → good x rs →
      (∃ e, (f x).perform m w₁ = (.error e, w₁)) ∨
        (Completes fits js rs ∧ PlaysAll fits ks m w₁ (f x))) :
    PlaysAll fits (js ++ ks) m w (a >>= f) := by
  refine plays_bind ha fun x w₁ rs hout _ hgood => (hf x w₁ rs hout hgood).imp_right ?_
  exact fun ⟨hrs, hplays⟩ => ⟨hrs, hplays.mono fun _ _ hss => hrs.append hss⟩

/-- An attempt whose failure is passed on, after some cleaning up. -/
theorem playsAll_attempt {a : Action α} {g : Except Failure α → Action β}
    (ha : PlaysAll fits js m w a) (hquiet : ∀ e, Quiet m (g (.error e)))
    (hfail : ∀ e, Fails m (g (.error e)))
    (hok : ∀ x w₁, a.perform m w = (.ok x, w₁) → PlaysAll fits ks m w₁ (g (.ok x))) :
    PlaysAll fits (js ++ ks) m w (attempt a >>= g) := by
  obtain ⟨rs, hruns, hfollows, hgood⟩ := ha
  unfold PlaysAll Plays
  rw [perform_bind, perform_attempt]
  rcases hout : a.perform m w with ⟨e | x, w₁⟩
  · rw [hout] at hruns
    exact ⟨rs, (hquiet e w₁).trans hruns, hfollows.append ks, fun y hy => absurd hy (hfail e w₁ y)⟩
  · rw [hout] at hruns hgood
    have hcompletes := hgood x rfl
    obtain ⟨ss, hruns', hfollows', hgood'⟩ := hok x w₁ hout
    refine ⟨rs ++ ss, ?_, hcompletes.append_follows hfollows', fun y hy => ?_⟩
    · show ((g (.ok x)).perform m w₁).2.runs = _
      rw [hruns', hruns, List.append_assoc]
    · exact hcompletes.append (hgood' y hy)

/-- A clean-up starts nothing, and the action ends well only if it does. -/
theorem Plays.cleaned {a : Action α} {clean : Action Unit} {good : α → List Run → Prop}
    (ha : Plays fits js good m w a) (hclean : Quiet m clean) :
    Plays fits js good m w (cleaned a clean) := by
  obtain ⟨done, hruns, hfollows, hgood⟩ := ha
  have hquiet := hclean (a.perform m w).2
  unfold Plays
  rw [perform_cleaned]
  rcases hout : clean.perform m (a.perform m w).2 with ⟨_ | _, w₁⟩
  · rw [hout] at hquiet
    exact ⟨done, hquiet.trans hruns, hfollows, fun _ h => by cases h⟩
  · rw [hout] at hquiet
    exact ⟨done, hquiet.trans hruns, hfollows, hgood⟩

end Plays

end VirtBoard.Launch
