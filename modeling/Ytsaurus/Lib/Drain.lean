import Mathlib.Logic.Basic

/-!
# `Lib/Drain.lean` — iterating until there is nothing left

A reader is a function that either fails, or says that nothing is left, or yields one item
and the state to go on from. `Runs` is what iterating it yields and how it ends; `drain` is
the same as a function with a budget. The two agree as soon as some measure of the state
goes down with every item, which is the one thing an instance has to prove.
-/

set_option autoImplicit false

namespace Drain

variable {σ ε α : Type}

/-- How an iteration ends. `unfinished` is the answer of a budget that ran out. -/
inductive Outcome (ε : Type) where
  | finished
  | failed (e : ε)
  | unfinished
  deriving DecidableEq

def drain (next : σ → Except ε (Option α × σ)) : Nat → σ → List α × Outcome ε
  | 0, _ => ([], .unfinished)
  | fuel + 1, s =>
    match next s with
    | .error e => ([], .failed e)
    | .ok (none, _) => ([], .finished)
    | .ok (some a, s) =>
      let (items, outcome) := drain next fuel s
      (a :: items, outcome)

/-- The items an iteration yields and how it ends. -/
inductive Runs (next : σ → Except ε (Option α × σ)) : σ → List α → Outcome ε → Prop
  | failed {s : σ} {e : ε} (h : next s = .error e) : Runs next s [] (.failed e)
  | finished {s s' : σ} (h : next s = .ok (none, s')) : Runs next s [] .finished
  | yields {s s' : σ} {a : α} {items : List α} {outcome : Outcome ε}
      (h : next s = .ok (some a, s')) (hrest : Runs next s' items outcome) :
      Runs next s (a :: items) outcome

variable {next : σ → Except ε (Option α × σ)}

/-- What a run yields depends on the first step only. -/
theorem Runs.congr {s s' : σ} {items : List α} {outcome : Outcome ε} (heq : next s = next s')
    (h : Runs next s' items outcome) : Runs next s items outcome := by
  cases h with
  | failed h => exact .failed (heq.trans h)
  | finished h => exact .finished (heq.trans h)
  | yields h hrest => exact .yields (heq.trans h) hrest

theorem Runs.unique {s : σ} {items items' : List α} {outcome outcome' : Outcome ε}
    (h : Runs next s items outcome) (h' : Runs next s items' outcome') :
    items = items' ∧ outcome = outcome' := by
  induction h generalizing items' outcome' with
  | failed h =>
    cases h' with
    | failed h' => cases h.symm.trans h'; exact ⟨rfl, rfl⟩
    | finished h' => cases h.symm.trans h'
    | yields h' _ => cases h.symm.trans h'
  | finished h =>
    cases h' with
    | failed h' => cases h.symm.trans h'
    | finished h' => exact ⟨rfl, rfl⟩
    | yields h' _ => cases h.symm.trans h'
  | yields h _ ih =>
    cases h' with
    | failed h' => cases h.symm.trans h'
    | finished h' => cases h.symm.trans h'
    | yields h' hrest' =>
      cases h.symm.trans h'
      obtain ⟨rfl, rfl⟩ := ih hrest'
      exact ⟨rfl, rfl⟩

/-- A drain that came to its end is a run. -/
theorem Runs.of_drain {fuel : Nat} {s : σ} (h : (drain next fuel s).2 = .finished) :
    Runs next s (drain next fuel s).1 .finished := by
  induction fuel generalizing s with
  | zero => cases h
  | succ fuel ih =>
    cases hnext : next s with
    | error e =>
      simp only [drain, hnext] at h
      cases h
    | ok p =>
      obtain ⟨item, s'⟩ := p
      cases item with
      | none =>
        simp only [drain, hnext]
        exact .finished hnext
      | some a =>
        simp only [drain, hnext] at h ⊢
        exact .yields hnext (ih h)

/-- Every item brings `μ` down, in the states where `P` holds. -/
def Decreases (next : σ → Except ε (Option α × σ)) (P : σ → Prop) (μ : σ → Nat) : Prop :=
  ∀ {s s' : σ} {a : α}, P s → next s = .ok (some a, s') → P s' ∧ μ s' < μ s

/-- **A budget above the measure is enough.** -/
theorem Decreases.runs {P : σ → Prop} {μ : σ → Nat} (h : Decreases next P μ) {fuel : Nat} {s : σ}
    (hs : P s) (hfuel : μ s < fuel) : Runs next s (drain next fuel s).1 (drain next fuel s).2 := by
  induction fuel generalizing s with
  | zero => omega
  | succ fuel ih =>
    cases hnext : next s with
    | error e =>
      simp only [drain, hnext]
      exact .failed hnext
    | ok p =>
      obtain ⟨item, s'⟩ := p
      cases item with
      | none =>
        simp only [drain, hnext]
        exact .finished hnext
      | some a =>
        obtain ⟨hs', hlt⟩ := h hs hnext
        have hrest := ih hs' (by omega)
        simp only [drain, hnext]
        exact .yields hnext hrest

/-- Draining is the only run there is. -/
theorem Decreases.drain_eq {P : σ → Prop} {μ : σ → Nat} (h : Decreases next P μ) {fuel : Nat}
    {s : σ} {items : List α} {outcome : Outcome ε} (hs : P s) (hfuel : μ s < fuel)
    (hruns : Runs next s items outcome) : drain next fuel s = (items, outcome) := by
  obtain ⟨hitems, houtcome⟩ := (h.runs hs hfuel).unique hruns
  exact Prod.ext hitems houtcome

end Drain
