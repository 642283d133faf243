import Mathlib.Control.Basic

/-!
# `Lib/Written.lean` — what an encoder left in its output

An encoder appends to an output it does not own and stops at the first error; the bytes it
wrote before the error stay written. `Written ε α` is the outcome of such a program: the
bytes it appended, whether or not it succeeded, and its result. Sequencing appends.

The two lemmas a proof needs are the ones that take a sequence apart: a success was two
successes, one behind the other in the output (`bind_eq_wrote`).
-/

set_option autoImplicit false

structure Written (ε α : Type) where
  bytes : List UInt8
  result : Except ε α

namespace Written

variable {ε α β : Type}

instance : Monad (Written ε) where
  pure a := ⟨[], .ok a⟩
  bind x f :=
    match x.result with
    | .ok a => ⟨x.bytes ++ (f a).bytes, (f a).result⟩
    | .error e => ⟨x.bytes, .error e⟩

/-- `output.write_all(bytes)` into an output that accepts everything. -/
def emit (bytes : List UInt8) : Written ε Unit := ⟨bytes, .ok ()⟩

/-- An error writes nothing. -/
def fail (e : ε) : Written ε α := ⟨[], .error e⟩

/-- A computation that does not touch the output. -/
def lift (x : Except ε α) : Written ε α := ⟨[], x⟩

/-- Success, with exactly these bytes appended. -/
def wrote (bytes : List UInt8) (a : α) : Written ε α := ⟨bytes, .ok a⟩

theorem lift_ok (a : α) : lift (.ok a : Except ε α) = wrote [] a := rfl

@[simp] theorem wrote_inj {bytes bytes' : List UInt8} {a a' : α} :
    (wrote bytes a : Written ε α) = wrote bytes' a' ↔ bytes = bytes' ∧ a = a' := by
  simp [wrote]

theorem eq_wrote {x : Written ε α} {a : α} (h : x.result = .ok a) : x = wrote x.bytes a := by
  rw [wrote, ← h]

/-! ## Sequencing -/

theorem bind_wrote {bytes : List UInt8} {a : α} {f : α → Written ε β} :
    (wrote bytes a >>= f) = ⟨bytes ++ (f a).bytes, (f a).result⟩ := rfl

/-- Two successes in a row write one behind the other. -/
theorem bind_wrote_wrote {bytes bytes' : List UInt8} {a : α} {b : β} {f : α → Written ε β}
    (h : f a = wrote bytes' b) : (wrote bytes a >>= f) = wrote (bytes ++ bytes') b := by
  rw [bind_wrote, h]
  rfl

/-- **A success was two successes**, one behind the other in the output. -/
theorem bind_eq_wrote {x : Written ε α} {f : α → Written ε β} {bytes : List UInt8} {b : β}
    (h : (x >>= f) = wrote bytes b) :
    ∃ a first second, x = wrote first a ∧ f a = wrote second b ∧ bytes = first ++ second := by
  obtain ⟨first, result⟩ := x
  cases result with
  | error e =>
    have hresult : (Except.error e : Except ε β) = .ok b := congrArg Written.result h
    cases hresult
  | ok a =>
    have hbytes : first ++ (f a).bytes = bytes := congrArg Written.bytes h
    have hresult : (f a).result = .ok b := congrArg Written.result h
    exact ⟨a, first, (f a).bytes, rfl, eq_wrote hresult, hbytes.symm⟩

end Written
