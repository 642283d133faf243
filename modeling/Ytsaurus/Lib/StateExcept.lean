import Mathlib.Control.Basic

/-!
# `Lib/StateExcept.lean` — reading a stateful, failing computation

A decoder threads one state and stops at the first error: it is a
`StateT σ (Except ε)`. This file is the rule set for reasoning about such a program
one statement at a time: what a bind, a `pure`, a `throw`, a `get`, a `modify` and a
conditional do at a given state, and, in the other direction, what is known of the parts
when the whole succeeded.

Nothing here mentions a byte or a token; it is used by the lexer, the scanner, the
deserializer and the job reader alike.
-/

set_option autoImplicit false

namespace StateExcept

variable {σ ε α β : Type}

/-! ## Running one statement -/

theorem bind_apply (x : StateT σ (Except ε) α) (f : α → StateT σ (Except ε) β) (s : σ) :
    (x >>= f) s = (x s).bind fun p => f p.1 p.2 := rfl

theorem bind_ok {x : StateT σ (Except ε) α} {f : α → StateT σ (Except ε) β} {s s' : σ} {a : α}
    (h : x s = .ok (a, s')) : (x >>= f) s = f a s' := by
  rw [bind_apply, h]
  rfl

theorem bind_error {x : StateT σ (Except ε) α} {f : α → StateT σ (Except ε) β} {s : σ} {e : ε}
    (h : x s = .error e) : (x >>= f) s = .error e := by
  rw [bind_apply, h]
  rfl

@[simp] theorem pure_apply (a : α) (s : σ) :
    (pure a : StateT σ (Except ε) α) s = .ok (a, s) := rfl

@[simp] theorem modify_apply (f : σ → σ) (s : σ) :
    (modify f : StateT σ (Except ε) PUnit) s = .ok (⟨⟩, f s) := rfl

@[simp] theorem ite_apply (c : Prop) [Decidable c] (x y : StateT σ (Except ε) α) (s : σ) :
    (if c then x else y) s = if c then x s else y s := by
  split <;> rfl

@[simp] theorem get_bind (f : σ → StateT σ (Except ε) β) (s : σ) :
    ((get : StateT σ (Except ε) σ) >>= f) s = f s s := rfl

@[simp] theorem set_bind (s' : σ) (f : PUnit → StateT σ (Except ε) β) (s : σ) :
    ((set s' : StateT σ (Except ε) PUnit) >>= f) s = f ⟨⟩ s' := rfl

@[simp] theorem modify_bind (g : σ → σ) (f : PUnit → StateT σ (Except ε) β) (s : σ) :
    ((modify g : StateT σ (Except ε) PUnit) >>= f) s = f ⟨⟩ (g s) := rfl

/-! ## Taking a success apart -/

theorem bind_eq_ok {x : StateT σ (Except ε) α} {f : α → StateT σ (Except ε) β} {s : σ}
    {r : β × σ} : (x >>= f) s = .ok r ↔ ∃ a s', x s = .ok (a, s') ∧ f a s' = .ok r := by
  rw [bind_apply]
  cases hx : x s with
  | error e => simp [Except.bind]
  | ok p =>
    obtain ⟨a, s'⟩ := p
    simp only [Except.bind, Except.ok.injEq, Prod.mk.injEq]
    exact ⟨fun h => ⟨a, s', ⟨rfl, rfl⟩, h⟩, fun ⟨_, _, ⟨rfl, rfl⟩, h⟩ => h⟩

theorem bind_eq_error {x : StateT σ (Except ε) α} {f : α → StateT σ (Except ε) β} {s : σ}
    {e : ε} :
    (x >>= f) s = .error e ↔ x s = .error e ∨ ∃ a s', x s = .ok (a, s') ∧ f a s' = .error e := by
  rw [bind_apply]
  cases hx : x s with
  | error e' => simp [Except.bind]
  | ok p =>
    obtain ⟨a, s'⟩ := p
    simp only [Except.bind, reduceCtorEq, Except.ok.injEq, Prod.mk.injEq, false_or]
    exact ⟨fun h => ⟨a, s', ⟨rfl, rfl⟩, h⟩, fun ⟨_, _, ⟨rfl, rfl⟩, h⟩ => h⟩

/-! ## Postconditions of successful runs

`Ensures run Q` says what a run that succeeded returned and where it ended; nothing is said
of a run that failed. One rule a statement, so that a program is verified along its `do`. -/

def Ensures (run : Except ε (α × σ)) (Q : α → σ → Prop) : Prop := ∀ a s, run = .ok (a, s) → Q a s

namespace Ensures

variable {Q Q' : α → σ → Prop} {R : β → σ → Prop}

theorem error (e : ε) : Ensures (.error e : Except ε (α × σ)) Q := by
  intro a s h
  cases h

theorem of_error {run : Except ε (α × σ)} {e : ε} (h : run = .error e) : Ensures run Q := by
  rw [h]
  exact error e

theorem ok {a : α} {s : σ} (h : Q a s) : Ensures (.ok (a, s) : Except ε (α × σ)) Q := by
  intro a' s' hrun
  cases hrun
  exact h

theorem of_ok {run : Except ε (α × σ)} {a : α} {s : σ} (hrun : run = .ok (a, s)) (h : Q a s) :
    Ensures run Q := by
  rw [hrun]
  exact ok h

theorem imp {run : Except ε (α × σ)} (h : Ensures run Q) (himp : ∀ a s, Q a s → Q' a s) :
    Ensures run Q' := fun a s hrun => himp a s (h a s hrun)

/-- **Sequencing**: what the first statement ensures is what the second starts from. -/
theorem bind {x : StateT σ (Except ε) α} {f : α → StateT σ (Except ε) β} {s : σ}
    (hx : Ensures (x s) Q) (hf : ∀ a s', Q a s' → Ensures (f a s') R) :
    Ensures ((x >>= f) s) R := by
  intro b s₂ hrun
  obtain ⟨a, s₁, ha, hb⟩ := bind_eq_ok.mp hrun
  exact hf a s₁ (hx a s₁ ha) b s₂ hb

/-- A first statement of which nothing is known. -/
theorem bind_any {x : StateT σ (Except ε) α} {f : α → StateT σ (Except ε) β} {s : σ}
    (hf : ∀ a s', Ensures (f a s') R) : Ensures ((x >>= f) s) R := by
  have hx : Ensures (x s) fun _ _ => True := fun _ _ _ => trivial
  exact hx.bind fun a s' _ => hf a s'

/-- A first statement whose run is known. -/
theorem bind_ok {x : StateT σ (Except ε) α} {f : α → StateT σ (Except ε) β} {s s' : σ} {a : α}
    (hx : x s = .ok (a, s')) (hf : Ensures (f a s') R) : Ensures ((x >>= f) s) R := by
  rw [StateExcept.bind_ok hx]
  exact hf

end Ensures

/-! ## Runs that do not fail in one way

`Avoids e run Q` is `Ensures run Q` of a run that does not fail with `e`; it may fail otherwise.
With the error of an exhausted budget for `e` it says that the budget was enough. -/

def Avoids (e : ε) (run : Except ε (α × σ)) (Q : α → σ → Prop) : Prop :=
  run ≠ .error e ∧ Ensures run Q

namespace Avoids

variable {e : ε} {Q Q' : α → σ → Prop} {R : β → σ → Prop}

theorem error {e' : ε} (h : e' ≠ e) : Avoids e (.error e' : Except ε (α × σ)) Q :=
  ⟨fun heq => h (Except.error.inj heq), .error e'⟩

theorem ok {a : α} {s : σ} (h : Q a s) : Avoids e (.ok (a, s) : Except ε (α × σ)) Q :=
  ⟨(nomatch ·), .ok h⟩

theorem imp {run : Except ε (α × σ)} (h : Avoids e run Q) (himp : ∀ a s, Q a s → Q' a s) :
    Avoids e run Q' := ⟨h.1, h.2.imp himp⟩

/-- **Sequencing**: the second statement runs only where the first one got to. -/
theorem bind {x : StateT σ (Except ε) α} {f : α → StateT σ (Except ε) β} {s : σ}
    (hx : Avoids e (x s) Q) (hf : ∀ a s', Q a s' → Avoids e (f a s') R) :
    Avoids e ((x >>= f) s) R := by
  refine ⟨fun hrun => ?_, hx.2.bind fun a s' ha => (hf a s' ha).2⟩
  rcases bind_eq_error.mp hrun with h | ⟨a, s', ha, h⟩
  · exact hx.1 h
  · exact (hf a s' (hx.2 a s' ha)).1 h

theorem ite {c : Prop} [Decidable c] {x y : StateT σ (Except ε) α} {s : σ}
    (hx : c → Avoids e (x s) Q) (hy : ¬ c → Avoids e (y s) Q) :
    Avoids e ((if c then x else y) s) Q := by
  rw [ite_apply]
  split
  · rename_i hc
    exact hx hc
  · rename_i hc
    exact hy hc

end Avoids

/-! ## Two computations with the same effect

They fail on the same states, with the same errors, and otherwise leave the same state; what
they return is of no account. -/

def SameEffect (x : StateT σ (Except ε) β) (y : StateT σ (Except ε) α) : Prop :=
  ∀ s, (x s).map Prod.snd = (y s).map Prod.snd

namespace SameEffect

variable {γ δ : Type} {x : StateT σ (Except ε) β} {y : StateT σ (Except ε) α}

theorem refl (x : StateT σ (Except ε) β) : SameEffect x x := fun _ => rfl

theorem pure (b : β) (a : α) :
    SameEffect (Pure.pure b : StateT σ (Except ε) β) (Pure.pure a : StateT σ (Except ε) α) :=
  fun _ => rfl

theorem throw (e : ε) :
    SameEffect (MonadExcept.throw e : StateT σ (Except ε) β)
      (MonadExcept.throw e : StateT σ (Except ε) α) := fun _ => rfl

theorem bind {k : β → StateT σ (Except ε) γ} {l : α → StateT σ (Except ε) δ}
    (h : SameEffect x y) (hk : ∀ b a, SameEffect (k b) (l a)) :
    SameEffect (x >>= k) (y >>= l) := by
  intro s
  have hs := h s
  rw [bind_apply, bind_apply]
  cases hx : x s with
  | error e =>
    cases hy : y s with
    | error e' =>
      rw [hx, hy] at hs
      cases hs
      rfl
    | ok p => rw [hx, hy] at hs; cases hs
  | ok q =>
    cases hy : y s with
    | error e' => rw [hx, hy] at hs; cases hs
    | ok p =>
      rw [hx, hy] at hs
      have hstate : q.2 = p.2 := Except.ok.inj hs
      show ((k q.1) q.2).map Prod.snd = ((l p.1) p.2).map Prod.snd
      rw [hstate]
      exact hk q.1 p.1 p.2

/-- A common first statement; what it returns may matter to both. -/
theorem bind_same {z : StateT σ (Except ε) β} {k : β → StateT σ (Except ε) γ}
    {l : β → StateT σ (Except ε) δ} (hk : ∀ b, SameEffect (k b) (l b)) :
    SameEffect (z >>= k) (z >>= l) := by
  intro s
  rw [bind_apply, bind_apply]
  cases z s with
  | error e => rfl
  | ok p => exact hk p.1 p.2

/-- Wrapping the result up is no effect. -/
theorem bind_pure {f : α → γ} (h : SameEffect x y) :
    SameEffect x (y >>= fun a => Pure.pure (f a)) := by
  intro s
  rw [h s, bind_apply]
  cases y s <;> rfl

/-- A computation that returns nothing is what the other one does to the state. -/
theorem eq_map {x : StateT σ (Except ε) Unit} (h : SameEffect x y) (s : σ) :
    x s = (y s).map fun p => ((), p.2) := by
  have hs := h s
  cases hx : x s with
  | error e =>
    cases hy : y s with
    | error e' => rw [hx, hy] at hs; cases hs; rfl
    | ok p => rw [hx, hy] at hs; cases hs
  | ok q =>
    cases hy : y s with
    | error e' => rw [hx, hy] at hs; cases hs
    | ok p =>
      rw [hx, hy] at hs
      have hstate : q.2 = p.2 := Except.ok.inj hs
      show Except.ok q = .ok ((), p.2)
      rw [← hstate]

end SameEffect

end StateExcept
