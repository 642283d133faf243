import Ytsaurus.Proof.Built

/-!
# `Proof/Shift.lean` — the deserializer does not look at its offset

The offset the cursor stands at goes into error messages and nowhere else: run on the same
bytes at another offset, every part of the deserializer returns the same value, or an error
in both cases, and moves on by the same number of bytes.

This is needed where a value is decoded in two places: alone, as the bytes of a record, and inside
a longer input. `Proof/Transparent.lean` compares a value with the same value behind an attribute
block; the two decodes differ in nothing but the offset. Errors are compared only as errors, since
the offset is printed in them.

With `Built` the proof is a look at four steps. A peek and a token shift because the lexer reads
`rest` and adds to `pos`.
-/

set_option autoImplicit false

namespace Ytsaurus.Yson

variable {α β κ : Type}

def YsonIterator.shift (it : YsonIterator) (p : Nat) : YsonIterator := { it with pos := it.pos + p }

/-- The same state `p` bytes further into some other input. -/
def Deserializer.shift (de : Deserializer) (p : Nat) : Deserializer :=
  { de with lexer := de.lexer.shift p }

section Fields

variable (de : Deserializer) (p : Nat)

end Fields

/-- Two outcomes that agree but for the offset. -/
def Shifted (p : Nat) : Except YsonError (α × Deserializer) → Except YsonError (α × Deserializer) →
    Prop
  | .ok (v, de), .ok (v', de') => v' = v ∧ de' = de.shift p
  | .error _, .error _ => True
  | _, _ => False

theorem Shifted.ok {p : Nat} (v : α) (de : Deserializer) :
    Shifted p (.ok (v, de)) (.ok (v, de.shift p)) := ⟨rfl, rfl⟩

/-- `m` does not look at the offset. -/
def Shifts (m : De α) : Prop := ∀ (de : Deserializer) (p : Nat), Shifted p (m de) (m (de.shift p))

namespace Shifts

theorem bind {m : De α} {f : α → De β} (hm : Shifts m) (hf : ∀ a, Shifts (f a)) :
    Shifts (m >>= f) := by
  intro de p
  have h := hm de p
  cases hrun : m de with
  | error e =>
    cases hrun' : m (de.shift p) with
    | error e' =>
      rw [StateExcept.bind_error hrun, StateExcept.bind_error hrun']
      trivial
    | ok r =>
      rw [hrun, hrun'] at h
      cases h
  | ok r =>
    obtain ⟨v, de₁⟩ := r
    cases hrun' : m (de.shift p) with
    | error e' =>
      rw [hrun, hrun'] at h
      cases h
    | ok r' =>
      obtain ⟨v', de₂⟩ := r'
      rw [hrun, hrun'] at h
      obtain ⟨rfl, rfl⟩ := h
      rw [StateExcept.bind_ok hrun, StateExcept.bind_ok hrun']
      exact hf _ de₁ p

theorem pure (a : α) : Shifts (Pure.pure a : De α) := fun de _ => .ok a de

theorem throw (e : YsonError) : Shifts (MonadExcept.throw e : De α) := fun _ _ => trivial

/-- A look at the state that does not ask for the offset. -/
theorem get {f : Deserializer → De α} (h : ∀ de p, f (de.shift p) = f de)
    (hf : ∀ de, Shifts (f de)) : Shifts (MonadState.get >>= f) := by
  intro de p
  rw [StateExcept.get_bind, StateExcept.get_bind, h]
  exact hf de de p

theorem update {f : Deserializer → Deserializer} (h : ∀ de p, f (de.shift p) = (f de).shift p) :
    Shifts (modify f : De Unit) := by
  intro de p
  exact ⟨rfl, h de p⟩

end Shifts

namespace De

/-! ## Tokens -/

theorem skipIgnored_shift (it : YsonIterator) (p : Nat) :
    (it.shift p).skipIgnored = it.skipIgnored.shift p := by
  cases hb : it.isBinary with
  | true => simp [YsonIterator.skipIgnored, YsonIterator.shift, hb]
  | false =>
    simp [YsonIterator.skipIgnored, YsonIterator.shift, YsonIterator.advance, hb, Nat.add_right_comm]

theorem peekByte_shift (it : YsonIterator) (p : Nat) :
    Yson.peekByte (it.shift p) = (Yson.peekByte it).map fun r => (r.1, r.2.shift p) := by
  have hrest : (it.skipIgnored.shift p).rest = it.skipIgnored.rest := rfl
  rw [Yson.peekByte, Yson.peekByte, skipIgnored_shift, hrest]
  cases it.skipIgnored.rest <;> rfl

theorem peekByte_shifts : Shifts De.peekByte := by
  intro de p
  have h := peekByte_shift de.lexer p
  show Shifted p ((Yson.peekByte de.lexer).map _) ((Yson.peekByte (de.lexer.shift p)).map _)
  rw [h]
  cases Yson.peekByte de.lexer with
  | error e => trivial
  | ok r => exact ⟨rfl, rfl⟩

theorem budget_shifts : Shifts budget := fun de _ => .ok (de.lexer.rest.length + 1) de

theorem peekAny_shifts : Shifts peekAny := by
  intro de p
  have h := peekByte_shift de.lexer p
  unfold peekAny
  rw [show (de.shift p).lexer = de.lexer.shift p from rfl, h]
  cases Yson.peekByte de.lexer with
  | error e =>
    refine ⟨rfl, ?_⟩
    exact congrArg (fun it => { de with lexer := it }) (skipIgnored_shift de.lexer p)
  | ok r => exact ⟨rfl, rfl⟩

variable [FloatText]

theorem nextToken_shifts : Shifts De.nextToken := by
  intro de p
  have hparse : ∀ (pos pos' : Nat) (x : List UInt8) (b : Bool) (r : Token × Nat),
      parseToken b pos x = .ok r → parseToken b pos' x = .ok r := by
    intro pos pos' x b r h
    obtain ⟨_, hle, hlocal⟩ := parseToken_ok h
    have := hlocal x.length hle pos'
    rwa [List.take_length] at this
  show Shifted p ((Yson.nextToken de.lexer).map _) ((Yson.nextToken (de.lexer.shift p)).map _)
  rw [Yson.nextToken, Yson.nextToken, skipIgnored_shift]
  show Shifted p (((parseToken _ de.lexer.skipIgnored.pos de.lexer.skipIgnored.rest).map _).map _)
    (((parseToken _ (de.lexer.skipIgnored.pos + p) de.lexer.skipIgnored.rest).map _).map _)
  cases h : parseToken de.lexer.skipIgnored.isBinary de.lexer.skipIgnored.pos
      de.lexer.skipIgnored.rest with
  | ok r =>
    have h' := hparse _ (de.lexer.skipIgnored.pos + p) _ _ _ h
    have hb : (de.lexer.skipIgnored.shift p).isBinary = de.lexer.skipIgnored.isBinary := rfl
    rw [hb, h']
    refine ⟨rfl, ?_⟩
    simp [Deserializer.shift, YsonIterator.shift, YsonIterator.advance, Nat.add_right_comm]
  | error e =>
    cases h' : parseToken de.lexer.skipIgnored.isBinary (de.lexer.skipIgnored.pos + p)
        de.lexer.skipIgnored.rest with
    | ok r =>
      have := hparse _ de.lexer.skipIgnored.pos _ _ _ h'
      rw [h] at this
      cases this
    | error e' =>
      have hb : (de.lexer.skipIgnored.shift p).isBinary = de.lexer.skipIgnored.isBinary := rfl
      rw [hb, h']
      trivial

end De

/-- **What is built of peeks and tokens does not look at the offset.** -/
theorem Built.shifts [FloatText] {m : De α} (h : Built m) : Shifts m := by
  induction h with
  | pure a => exact .pure a
  | throw e => exact .throw e
  -- the offset is in the error and nowhere else
  | failAt e => exact fun _ _ => trivial
  | bind _ _ ihm ihf => exact .bind ihm ihf
  | peek => exact De.peekAny_shifts
  | token => exact De.nextToken_shifts
  | budget => exact De.budget_shifts
  | get h _ ih => exact .get (fun de p => h de _) ih
  | @update f h =>
    refine .update fun de p => (h de _).trans ?_
    have hsame := congrArg Deserializer.lexer (h de de.lexer)
    have hlexer : (f de).lexer = de.lexer := hsame
    show (f de).withLexer (de.lexer.shift p) = (f de).withLexer ((f de).lexer.shift p)
    rw [hlexer]

/-- Deserializing a type does not look at the offset. -/
theorem Ty.decode_shifts [FloatText] [FloatCasts] (t : Ty) : Shifts t.decode :=
  t.decode_built.shifts

end Ytsaurus.Yson
