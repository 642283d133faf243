import Mathlib.Order.Compare

/-!
# `Lib/Tuples.lean` — tuples in lexicographic order

Tuples over an ordered type are compared component by component, a shorter one first when the rest
match (`List.compareLex`). What cutting a tuple does to the order: a tuple is not smaller than what
is left of it, and cutting two tuples at one place keeps their order.
-/

set_option autoImplicit false

namespace Tuples

variable {α : Type} {cmp : α → α → Ordering}

theorem isLE_take [Std.ReflCmp cmp] (n : Nat) (a : List α) :
    (List.compareLex cmp (a.take n) a).isLE := by
  induction a generalizing n with
  | nil =>
    rw [List.take_nil]
    rfl
  | cons x a ih =>
    cases n with
    | zero => rfl
    | succ n =>
      have hself : cmp x x = .eq := Std.ReflCmp.compare_self
      rw [List.take_succ_cons, List.compareLex_cons_cons, hself]
      exact ih n

/-- **Cutting two tuples at one place keeps their order.** -/
theorem take_isLE_take {a b : List α} (h : (List.compareLex cmp a b).isLE) (n : Nat) :
    (List.compareLex cmp (a.take n) (b.take n)).isLE := by
  induction n generalizing a b with
  | zero =>
    rw [List.take_zero, List.take_zero]
    rfl
  | succ n ih =>
    cases a with
    | nil =>
      rw [List.take_nil]
      exact List.isLE_compareLex_nil_left
    | cons x a =>
      cases b with
      | nil => cases h
      | cons y b =>
        rw [List.compareLex_cons_cons] at h
        rw [List.take_succ_cons, List.take_succ_cons, List.compareLex_cons_cons]
        cases hxy : cmp x y with
        | lt => rfl
        | gt =>
          rw [hxy] at h
          cases h
        | eq =>
          rw [hxy] at h
          exact ih h

theorem compareLex_append {a b c d : List α} (h : a.length = c.length) :
    List.compareLex cmp (a ++ b) (c ++ d) =
      (List.compareLex cmp a c).then (List.compareLex cmp b d) := by
  induction a generalizing c with
  | nil =>
    obtain rfl := List.eq_nil_of_length_eq_zero h.symm
    rfl
  | cons x a ih =>
    cases c with
    | nil => cases h
    | cons y c =>
      rw [List.cons_append, List.cons_append, List.compareLex_cons_cons, List.compareLex_cons_cons,
        ih (Nat.succ.inj h)]
      cases cmp x y <;> rfl

theorem length_eq {a b : List α} (h : List.compareLex cmp a b = .eq) : a.length = b.length := by
  induction a generalizing b with
  | nil =>
    cases b with
    | nil => rfl
    | cons y b => cases h
  | cons x a ih =>
    cases b with
    | nil => cases h
    | cons y b =>
      rw [List.compareLex_cons_cons] at h
      rw [List.length_cons, List.length_cons, ih (Ordering.then_eq_eq.mp h).2]

/-- Where one tuple is above another but not above it when both are cut, it is above it behind the
cut. -/
theorem drop_gt {a b : List α} {n : Nat} (h : List.compareLex cmp a b = .gt)
    (hcut : List.compareLex cmp (a.take n) (b.take n) = .eq) :
    List.compareLex cmp (a.drop n) (b.drop n) = .gt := by
  rw [← List.take_append_drop n a, ← List.take_append_drop n b, compareLex_append (length_eq hcut),
    hcut] at h
  exact h

/-- A greater tuple that is not longer is greater in a component. -/
theorem exists_gt {a b : List α} (h : List.compareLex cmp a b = .gt) (hlength : a.length ≤ b.length) :
    ∃ (j : Nat) (x y : α), a[j]? = some x ∧ b[j]? = some y ∧ cmp x y = .gt := by
  induction a generalizing b with
  | nil =>
    cases b with
    | nil => cases h
    | cons y b => cases h
  | cons x a ih =>
    cases b with
    | nil => exact absurd hlength (Nat.not_succ_le_zero _)
    | cons y b =>
      rw [List.compareLex_cons_cons] at h
      cases hxy : cmp x y with
      | gt => exact ⟨0, x, y, rfl, rfl, hxy⟩
      | lt =>
        rw [hxy] at h
        cases h
      | eq =>
        rw [hxy] at h
        obtain ⟨j, x', y', hx, hy, hgt⟩ := ih h (Nat.le_of_succ_le_succ hlength)
        exact ⟨j + 1, x', y', hx, hy, hgt⟩

/-- A component that gets greater makes the tuple greater. -/
theorem set_gt [Std.ReflCmp cmp] {a : List α} {j : Nat} {x v : α} (hx : a[j]? = some x)
    (hv : cmp v x = .gt) : List.compareLex cmp (a.set j v) a = .gt := by
  induction a generalizing j with
  | nil => cases hx
  | cons y a ih =>
    cases j with
    | zero =>
      cases hx
      rw [List.set_cons_zero, List.compareLex_cons_cons, hv]
      rfl
    | succ j =>
      have hself : cmp y y = .eq := Std.ReflCmp.compare_self
      rw [List.set_cons_succ, List.compareLex_cons_cons, hself]
      exact ih hx

end Tuples
