import Mathlib.Logic.Basic

/-!
# `Lib/Transition.lean` — runs of a machine

A machine is a step function that may refuse an action in a state. `Runs` relates the two
ends of a run all of whose steps meet a condition, so the same induction proves what holds
in every reachable state (`Runs.invariant`) and what holds under an assumption on the
schedule.

A relation between the ends says nothing of what was done in between. `play` runs a list of
actions, so a statement can be about the actions and the state together (`play_invariant`): what a
component did may then be held against what it was asked to do, with no record of the requests in
its own state that its own steps would have to be trusted to keep. It is also how a particular run
is exhibited (`runs_of_play`).

There is no fairness and no time here. A machine that can go on forever is not said to go on, and
what is to happen in the end is stated as a bound on the steps left.
-/

set_option autoImplicit false

namespace Transition

variable {σ α : Type} {step : σ → α → Option σ} {ok : σ → α → Prop}

/-- A run from `s` whose steps all meet `ok`. -/
inductive Runs (step : σ → α → Option σ) (ok : σ → α → Prop) (s : σ) : σ → Prop
  | refl : Runs step ok s s
  | step {t u : σ} {a : α} (h : Runs step ok s t) (hok : ok t a) (hstep : step t a = some u) :
      Runs step ok s u

/-- Any schedule. -/
def anySchedule (_ : σ) (_ : α) : Prop := True

/-- **What the start has and every step keeps, every reachable state has.** -/
theorem Runs.invariant {s t : σ} {I : σ → Prop} (h : Runs step ok s t) (hs : I s)
    (hkeep : ∀ {t u : σ} {a : α}, I t → ok t a → step t a = some u → I u) : I t := by
  induction h with
  | refl => exact hs
  | step _ hok hstep ih => exact hkeep ih hok hstep

theorem Runs.trans {s t u : σ} (h : Runs step ok s t) (h' : Runs step ok t u) :
    Runs step ok s u := by
  induction h' with
  | refl => exact h
  | step _ hok hstep ih => exact .step ih hok hstep

instance (s : σ) (a : α) : Decidable (anySchedule s a) := inferInstanceAs (Decidable True)

/-- The end of a list of actions, when each meets `ok` and none is refused. -/
def play (step : σ → α → Option σ) (ok : σ → α → Prop) [∀ s a, Decidable (ok s a)] (s : σ) :
    List α → Option σ
  | [] => some s
  | a :: as => if ok s a then (step s a).bind fun t => play step ok t as else none

theorem runs_of_play [∀ s a, Decidable (ok s a)] {s t : σ} {as : List α}
    (h : play step ok s as = some t) : Runs step ok s t := by
  induction as generalizing s with
  | nil =>
    cases h
    exact .refl
  | cons a as ih =>
    unfold play at h
    by_cases hok : ok s a
    · rw [if_pos hok, Option.bind_eq_some_iff] at h
      obtain ⟨u, hstep, hrest⟩ := h
      exact Runs.trans (.step .refl hok hstep) (ih hrest)
    · rw [if_neg hok] at h
      exact nomatch h

theorem play_cons [∀ s a, Decidable (ok s a)] {s u : σ} {a : α} (as : List α) (hok : ok s a)
    (hstep : step s a = some u) : play step ok s (a :: as) = play step ok u as := by
  show (if ok s a then (step s a).bind fun t => play step ok t as else none) = _
  rw [if_pos hok, hstep]
  rfl

theorem play_cons_eq_some [∀ s a, Decidable (ok s a)] {s t : σ} {a : α} {as : List α}
    (h : play step ok s (a :: as) = some t) :
    ok s a ∧ ∃ u, step s a = some u ∧ play step ok u as = some t := by
  unfold play at h
  by_cases hok : ok s a
  · rw [if_pos hok] at h
    exact ⟨hok, Option.bind_eq_some_iff.mp h⟩
  · rw [if_neg hok] at h
    cases h

/-- **What holds of a run so far, and of each longer one, holds of the whole run**, where the
statement may be about the actions that were taken as well as about the state they led to. -/
theorem play_invariant [∀ s a, Decidable (ok s a)] {I : List α → σ → Prop} {s t : σ} {as : List α}
    (h : play step ok s as = some t) (hs : I [] s)
    (hkeep : ∀ {as : List α} {t u : σ} {a : α}, I as t → ok t a → step t a = some u →
      I (as ++ [a]) u) : I as t := by
  have hbehind (front : List α) (hfront : I front s) : I (front ++ as) t := by
    clear hs
    induction as generalizing s front with
    | nil =>
      cases h
      rw [List.append_nil]
      exact hfront
    | cons a as ih =>
      obtain ⟨hok, u, hstep, hrest⟩ := play_cons_eq_some h
      have hlast := ih hrest (front ++ [a]) (hkeep hfront hok hstep)
      rw [List.append_assoc] at hlast
      exact hlast
  exact hbehind [] hs

end Transition
