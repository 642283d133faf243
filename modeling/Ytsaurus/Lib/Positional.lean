import Ytsaurus.Lib.StateExcept

/-!
# `Lib/Positional.lean` — reading an input that stays where it is

A positional reader holds the whole input and how much of it has been read. `Reads x bytes a`
says that the reader `x`, at any place where `bytes` stand, takes exactly these and returns
`a`, whatever is before them and behind them. Sequencing readers puts their bytes behind each
other (`Reads.bind`), so what is read back of a concatenation is read piece by piece.

`Lacks short x bytes` says what the reader does where only a part of `bytes` is there: it fails, in
a way that `short` describes. A sequence lacks bytes where its first reader does, or where the
first finds all of its own and the second does not (`Lacks.bind`).

`Takes allowed x taken` is about any input: the reader stays within it, fails only in the ways that
are allowed, and what it returns stands in a relation to how much it took.
-/

set_option autoImplicit false

namespace Positional

/-- The input, and how many of its elements have been read. -/
structure Reader (τ : Type) where
  input : List τ
  offset : Nat

namespace Reader

variable {τ : Type}

/-- The reader that stands between `before` and `after`. -/
def between (before after : List τ) : Reader τ := ⟨before ++ after, before.length⟩

@[simp] theorem between_input (before after : List τ) :
    (between before after).input = before ++ after := rfl

@[simp] theorem between_offset (before after : List τ) :
    (between before after).offset = before.length := rfl

end Reader

variable {τ ε α β : Type}

/-- `x` takes `bytes` and returns `a`, wherever they are. -/
def Reads (x : StateT (Reader τ) (Except ε) α) (bytes : List τ) (a : α) : Prop :=
  ∀ before after, x (Reader.between before (bytes ++ after)) =
    .ok (a, Reader.between (before ++ bytes) after)

namespace Reads

theorem pure (a : α) : Reads (Pure.pure a : StateT (Reader τ) (Except ε) α) [] a := by
  intro before after
  rw [StateExcept.pure_apply, List.nil_append, List.append_nil]

theorem bind {x : StateT (Reader τ) (Except ε) α} {f : α → StateT (Reader τ) (Except ε) β}
    {bytes rest : List τ} {a : α} {b : β} (hx : Reads x bytes a) (hf : Reads (f a) rest b) :
    Reads (x >>= f) (bytes ++ rest) b := by
  intro before after
  have hfirst := hx before (rest ++ after)
  rw [List.append_assoc, StateExcept.bind_ok hfirst, hf, ← List.append_assoc]

/-- A last step that only wraps the result up takes nothing. -/
theorem map {x : StateT (Reader τ) (Except ε) α} {f : α → β} {bytes : List τ} {a : α}
    (hx : Reads x bytes a) : Reads (x >>= fun a => Pure.pure (f a)) bytes (f a) := by
  intro before after
  rw [StateExcept.bind_ok (hx before after), StateExcept.pure_apply]

end Reads

/-- `x` fails where there is only a proper beginning of `bytes`. -/
def Lacks (short : List τ → ε → Prop) (x : StateT (Reader τ) (Except ε) α) (bytes : List τ) :
    Prop :=
  ∀ before cut more, more ≠ [] → cut ++ more = bytes →
    ∃ e, x (Reader.between before cut) = .error e ∧ short (before ++ cut) e

namespace Lacks

variable {short : List τ → ε → Prop}

/-- There is no proper beginning of nothing. -/
theorem nil (x : StateT (Reader τ) (Except ε) α) : Lacks short x [] := by
  intro before cut more hmore hcut
  exact absurd (List.append_eq_nil_iff.mp hcut).2 hmore

theorem bind {x : StateT (Reader τ) (Except ε) α} {f : α → StateT (Reader τ) (Except ε) β}
    {bytes rest : List τ} {a : α} (hx : Lacks short x bytes) (hreads : Reads x bytes a)
    (hf : Lacks short (f a) rest) : Lacks short (x >>= f) (bytes ++ rest) := by
  intro before cut more hmore hcut
  rcases List.append_eq_append_iff.mp hcut with ⟨middle, hbytes, hrest⟩ | ⟨middle, hcut, hrest⟩
  · by_cases hmiddle : middle = []
    · -- the cut is exactly between the two
      subst hmiddle
      rw [List.append_nil] at hbytes
      subst hbytes
      obtain ⟨e, he, hshort⟩ := hf (before ++ bytes) [] more hmore hrest
      refine ⟨e, ?_, ?_⟩
      · have hfirst := hreads before []
        rw [List.append_nil] at hfirst
        rw [StateExcept.bind_ok hfirst]
        exact he
      · rwa [List.append_nil] at hshort
    · obtain ⟨e, he, hshort⟩ := hx before cut middle hmiddle hbytes.symm
      exact ⟨e, StateExcept.bind_error he, hshort⟩
  · subst hcut
    obtain ⟨e, he, hshort⟩ := hf (before ++ bytes) middle more hmore hrest.symm
    refine ⟨e, ?_, ?_⟩
    · rw [StateExcept.bind_ok (hreads before middle)]
      exact he
    · rwa [List.append_assoc] at hshort

/-- A last step that takes nothing lacks nothing. -/
theorem map {x : StateT (Reader τ) (Except ε) α} {f : α → StateT (Reader τ) (Except ε) β}
    {bytes : List τ} {a : α} (hx : Lacks short x bytes) (hreads : Reads x bytes a) :
    Lacks short (x >>= f) bytes := by
  have h := hx.bind hreads (nil (f a))
  rwa [List.append_nil] at h

end Lacks

/-- From a place within the input, `x` fails only as `allowed`, or it goes on within the input and
its result and how much it took are as `taken` says. -/
structure Takes (allowed : ε → Prop) (x : StateT (Reader τ) (Except ε) α) (taken : α → Nat → Prop) :
    Prop where
  error : ∀ {reader : Reader τ} {e : ε}, reader.offset ≤ reader.input.length →
    x reader = .error e → allowed e
  ok : ∀ {reader reader' : Reader τ} {a : α}, reader.offset ≤ reader.input.length →
    x reader = .ok (a, reader') →
    reader'.input = reader.input ∧ reader'.offset ≤ reader'.input.length ∧
      ∃ n, reader'.offset = reader.offset + n ∧ taken a n

namespace Takes

variable {allowed : ε → Prop}

theorem pure {a : α} {taken : α → Nat → Prop} (h : taken a 0) :
    Takes allowed (Pure.pure a : StateT (Reader τ) (Except ε) α) taken where
  error _ h := by cases h
  ok hwithin hok := by
    cases hok
    exact ⟨rfl, hwithin, 0, rfl, h⟩

theorem throw {e : ε} {taken : α → Nat → Prop} (h : allowed e) :
    Takes allowed (MonadExcept.throw e : StateT (Reader τ) (Except ε) α) taken where
  error _ he := by
    cases he
    exact h
  ok _ hok := by cases hok

theorem bind {x : StateT (Reader τ) (Except ε) α} {f : α → StateT (Reader τ) (Except ε) β}
    {first : α → Nat → Prop} {taken : β → Nat → Prop} (hx : Takes allowed x first)
    (hf : ∀ a n, first a n → Takes allowed (f a) fun b more => taken b (n + more)) :
    Takes allowed (x >>= f) taken where
  error hwithin he := by
    rcases StateExcept.bind_eq_error.mp he with herror | ⟨a, reader', hok, herror⟩
    · exact hx.error hwithin herror
    · obtain ⟨_, hwithin', n, _, hfirst⟩ := hx.ok hwithin hok
      exact (hf a n hfirst).error hwithin' herror
  ok hwithin hok := by
    obtain ⟨a, reader', hfirst, hrest⟩ := StateExcept.bind_eq_ok.mp hok
    obtain ⟨hinput, hwithin', n, hoffset, htaken⟩ := hx.ok hwithin hfirst
    obtain ⟨hinput', hwithin'', more, hoffset', htaken'⟩ := (hf a n htaken).ok hwithin' hrest
    refine ⟨hinput'.trans hinput, hwithin'', n + more, ?_, htaken'⟩
    rw [hoffset', hoffset, Nat.add_assoc]

theorem imp {x : StateT (Reader τ) (Except ε) α} {taken taken' : α → Nat → Prop}
    (h : Takes allowed x taken) (himp : ∀ a n, taken a n → taken' a n) :
    Takes allowed x taken' where
  error hwithin he := h.error hwithin he
  ok hwithin hok := by
    obtain ⟨hinput, hwithin', n, hoffset, htaken⟩ := h.ok hwithin hok
    exact ⟨hinput, hwithin', n, hoffset, himp _ n htaken⟩

end Takes

end Positional
