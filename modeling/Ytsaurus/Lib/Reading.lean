import Ytsaurus.Lib.StateExcept

/-!
# `Lib/Reading.lean` — programs that only peek and take

A *source* is read in two ways: a look at what comes next, and taking one item. A *plan* is a
program over a source that can do nothing else: it is the tree of its questions, so what it
does can depend on the answers it got and on nothing more. A plan says how many items it took,
also where it failed in the end. Where each item taken makes the source smaller, a plan takes
no more items than the source is large (`taken_le`), whatever it does with them.
-/

set_option autoImplicit false

namespace Reading

/-- What can be read: looks of type `β` and items of type `τ`, and a report on where it
stands. -/
structure Source (σ ε β τ ρ : Type) where
  peek : σ → Option β × σ
  take : σ → Except ε (τ × σ)
  tell : σ → ρ

/-- A program over a source. A failed `take` ends it with the error of the source. -/
inductive Plan (ε β τ ρ α : Type) where
  | done (result : Except ε α)
  | peek (next : Option β → Plan ε β τ ρ α)
  | take (next : τ → Plan ε β τ ρ α)
  | tell (next : ρ → Plan ε β τ ρ α)

namespace Plan

variable {σ ε β τ ρ α γ : Type}

/-- What the program does to a source. -/
def run (src : Source σ ε β τ ρ) : Plan ε β τ ρ α → StateT σ (Except ε) α
  | done result, s => result.map fun a => (a, s)
  | peek next, s => (next (src.peek s).1).run src (src.peek s).2
  | take next, s => (src.take s).bind fun p => (next p.1).run src p.2
  | tell next, s => (next (src.tell s)).run src s

/-- How many items it takes. -/
def taken (src : Source σ ε β τ ρ) : Plan ε β τ ρ α → σ → Nat
  | done _, _ => 0
  | peek next, s => (next (src.peek s).1).taken src (src.peek s).2
  | take next, s =>
    match src.take s with
    | .ok p => (next p.1).taken src p.2 + 1
    | .error _ => 0
  | tell next, s => (next (src.tell s)).taken src s

/-- One program behind the other. -/
def bind : Plan ε β τ ρ α → (α → Plan ε β τ ρ γ) → Plan ε β τ ρ γ
  | done (.ok a), f => f a
  | done (.error e), _ => done (.error e)
  | peek next, f => peek fun b => (next b).bind f
  | take next, f => take fun t => (next t).bind f
  | tell next, f => tell fun r => (next r).bind f

theorem run_bind (src : Source σ ε β τ ρ) (p : Plan ε β τ ρ α) (f : α → Plan ε β τ ρ γ) (s : σ) :
    (p.bind f).run src s = (p.run src >>= fun a => (f a).run src) s := by
  rw [StateExcept.bind_apply]
  induction p generalizing s with
  | done result => cases result <;> rfl
  | peek next ih => exact ih _ _
  | take next ih =>
    rw [bind, run, run]
    cases src.take s with
    | error e => rfl
    | ok p => exact ih p.1 p.2
  | tell next ih => exact ih _ _

/-- **A plan takes no more items than its source is large.** -/
theorem taken_le {src : Source σ ε β τ ρ} (size : σ → Nat)
    (hpeek : ∀ s, size (src.peek s).2 ≤ size s)
    (htake : ∀ s t s', src.take s = .ok (t, s') → size s' < size s)
    (p : Plan ε β τ ρ α) (s : σ) : p.taken src s ≤ size s := by
  induction p generalizing s with
  | done result => exact Nat.zero_le _
  | peek next ih =>
    unfold taken
    exact Nat.le_trans (ih _ _) (hpeek s)
  | take next ih =>
    unfold taken
    cases h : src.take s with
    | error e => exact Nat.zero_le _
    | ok p =>
      -- the item counts one, and the source is smaller by one at least
      have hrest := ih p.1 p.2
      have hless := htake s p.1 p.2 h
      exact Nat.lt_of_le_of_lt hrest hless
  | tell next ih => exact ih _ s

end Plan

end Reading
