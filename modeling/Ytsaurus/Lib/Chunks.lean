/-!
# `Lib/Chunks.lean` — a list cut into pieces

`chunks size l` cuts a list into pieces of `size` elements, the last of which may be shorter.
The pieces put together are the list, and each of them has an element and no more than `size`.
-/

set_option autoImplicit false

namespace Chunks

variable {α : Type}

/-- At most `fuel` pieces. -/
def cut (size : Nat) : Nat → List α → List (List α)
  | 0, _ => []
  | _ + 1, [] => []
  | fuel + 1, a :: l => (a :: l).take size :: cut size fuel ((a :: l).drop size)

/-- The pieces of a list. A piece has an element, so there are no more of them than elements. -/
def chunks (size : Nat) (l : List α) : List (List α) := cut size l.length l

variable {size : Nat}

theorem cut_flatten (hsize : 1 ≤ size) {fuel : Nat} {l : List α} (hfuel : l.length ≤ fuel) :
    (cut size fuel l).flatten = l := by
  induction fuel generalizing l with
  | zero =>
    rw [List.eq_nil_of_length_eq_zero (Nat.le_zero.mp hfuel)]
    rfl
  | succ fuel ih =>
    cases l with
    | nil => rfl
    | cons a l =>
      have hshorter : ((a :: l).drop size).length ≤ fuel := by
        rw [List.length_drop, List.length_cons]
        rw [List.length_cons] at hfuel
        omega
      rw [cut, List.flatten_cons, ih hshorter, List.take_append_drop]

/-- **The pieces put together are the list.** -/
theorem chunks_flatten (hsize : 1 ≤ size) (l : List α) : (chunks size l).flatten = l :=
  cut_flatten hsize (Nat.le_refl _)

theorem mem_cut (hsize : 1 ≤ size) {fuel : Nat} {l piece : List α} (h : piece ∈ cut size fuel l) :
    piece ≠ [] ∧ piece.length ≤ size := by
  induction fuel generalizing l with
  | zero => cases h
  | succ fuel ih =>
    cases l with
    | nil => cases h
    | cons a l =>
      rw [cut] at h
      rcases List.mem_cons.mp h with rfl | h
      · refine ⟨?_, List.length_take_le _ _⟩
        obtain ⟨size, rfl⟩ := Nat.exists_eq_succ_of_ne_zero (Nat.one_le_iff_ne_zero.mp hsize)
        rw [List.take_succ_cons]
        exact List.cons_ne_nil _ _
      · exact ih h

theorem mem_chunks (hsize : 1 ≤ size) {l piece : List α} (h : piece ∈ chunks size l) :
    piece ≠ [] ∧ piece.length ≤ size :=
  mem_cut hsize h

/-- A list that fits in one piece is one piece. -/
theorem chunks_of_le {l : List α} (hl : l ≠ []) (h : l.length ≤ size) : chunks size l = [l] := by
  cases l with
  | nil => exact absurd rfl hl
  | cons a l =>
    rw [chunks, List.length_cons, cut, List.take_of_length_le h, List.drop_of_length_le h]
    cases l.length <;> rfl

end Chunks
