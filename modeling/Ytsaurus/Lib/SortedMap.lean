import Mathlib.Data.List.Pairwise
import Mathlib.Order.Compare

/-!
# `Lib/SortedMap.lean` — an ordered map as a sorted association list

An ordered map over a total order is, seen from outside, the list of its entries in
increasing key order. `insert` keeps that order and replaces the value of a key already
present; `extend` inserts the entries of another list one after another.

The facts a user of such a map needs: insertion keeps the list sorted, and inserting the
entries of a sorted list one by one rebuilds the list. The second is what makes writing a
map out in order and reading it back the identity.
-/

set_option autoImplicit false

namespace SortedMap

variable {κ ν : Type} [Ord κ]

/-- The entries stand in strictly increasing key order. -/
def Sorted (m : List (κ × ν)) : Prop :=
  m.Pairwise fun a b => compare a.1 b.1 = .lt

def insert (k : κ) (v : ν) : List (κ × ν) → List (κ × ν)
  | [] => [(k, v)]
  | (k', v') :: m =>
    match compare k k' with
    | .lt => (k, v) :: (k', v') :: m
    | .eq => (k, v) :: m
    | .gt => (k', v') :: insert k v m

def extend (m : List (κ × ν)) (entries : List (κ × ν)) : List (κ × ν) :=
  entries.foldl (fun m e => insert e.1 e.2 m) m

def lookup (k : κ) : List (κ × ν) → Option ν
  | [] => none
  | (k', v) :: m => if compare k k' = .eq then some v else lookup k m

attribute [local simp] SortedMap.insert lookup

theorem Sorted.nil : Sorted ([] : List (κ × ν)) := List.Pairwise.nil

theorem insert_ne_nil (k : κ) (v : ν) (m : List (κ × ν)) : insert k v m ≠ [] := by
  cases m with
  | nil => simp [insert]
  | cons e m => rw [insert]; split <;> simp

theorem mem_insert {k : κ} {v : ν} {m : List (κ × ν)} {e : κ × ν} (h : e ∈ insert k v m) :
    e = (k, v) ∨ e ∈ m := by
  induction m with
  | nil => exact Or.inl (by simpa [insert] using h)
  | cons e' m ih =>
    rw [insert] at h
    split at h
    · simpa using h
    · rcases List.mem_cons.mp h with h | h
      · exact Or.inl h
      · exact Or.inr (List.mem_cons_of_mem _ h)
    · rcases List.mem_cons.mp h with h | h
      · exact Or.inr (h ▸ List.mem_cons_self)
      · exact (ih h).imp id (List.mem_cons_of_mem _)

section Order

variable [Std.TransOrd κ]

theorem Sorted.insert {k : κ} {v : ν} {m : List (κ × ν)} (h : Sorted m) :
    Sorted (insert k v m) := by
  induction m with
  | nil => exact List.pairwise_singleton _ _
  | cons e m ih =>
    obtain ⟨he, hm⟩ := List.pairwise_cons.mp h
    rw [SortedMap.insert]
    split
    · rename_i hlt
      refine List.pairwise_cons.mpr ⟨fun e' he' => ?_, h⟩
      rcases List.mem_cons.mp he' with rfl | he'
      · exact hlt
      · exact Std.TransCmp.lt_trans hlt (he e' he')
    · rename_i heq
      exact List.pairwise_cons.mpr
        ⟨fun e' he' => Std.TransCmp.lt_of_eq_of_lt heq (he e' he'), hm⟩
    · rename_i hgt
      refine List.pairwise_cons.mpr ⟨fun e' he' => ?_, ih hm⟩
      rcases mem_insert he' with rfl | he'
      · exact Std.OrientedCmp.lt_of_gt hgt
      · exact he e' he'

theorem Sorted.extend {m : List (κ × ν)} (h : Sorted m) (entries : List (κ × ν)) :
    Sorted (extend m entries) := by
  induction entries generalizing m with
  | nil => exact h
  | cons e entries ih => exact ih h.insert

/-- A key above all others goes to the end. -/
theorem insert_last {k : κ} {v : ν} {m : List (κ × ν)}
    (h : ∀ e ∈ m, compare e.1 k = .lt) : SortedMap.insert k v m = m ++ [(k, v)] := by
  induction m with
  | nil => rfl
  | cons e m ih =>
    have hgt : compare k e.1 = .gt := Std.OrientedCmp.gt_of_lt (h e List.mem_cons_self)
    rw [SortedMap.insert, hgt]
    simp only [List.cons_append]
    rw [ih fun e' he' => h e' (List.mem_cons_of_mem _ he')]

/-- **Inserting the entries of a sorted list in order rebuilds it.** -/
theorem extend_sorted {m entries : List (κ × ν)} (h : Sorted (m ++ entries)) :
    SortedMap.extend m entries = m ++ entries := by
  induction entries generalizing m with
  | nil => simp [SortedMap.extend]
  | cons e entries ih =>
    have hlast : SortedMap.insert e.1 e.2 m = m ++ [e] :=
      insert_last fun e' he' => (List.pairwise_append.mp h).2.2 e' he' e List.mem_cons_self
    have hsorted : Sorted ((m ++ [e]) ++ entries) := by simpa using h
    have hstep := ih hsorted
    simp only [SortedMap.extend, List.foldl_cons, hlast] at hstep ⊢
    simpa using hstep

end Order

theorem mem_extend {m entries : List (κ × ν)} {e : κ × ν} (h : e ∈ extend m entries) :
    e ∈ m ∨ e ∈ entries := by
  induction entries generalizing m with
  | nil => exact Or.inl h
  | cons e' entries ih =>
    rcases ih h with h | h
    · rcases mem_insert h with rfl | h
      · exact Or.inr List.mem_cons_self
      · exact Or.inl h
    · exact Or.inr (List.mem_cons_of_mem _ h)

/-! ## Lookups -/

section Lookup

variable [Std.LawfulEqOrd κ]

theorem mem_of_lookup {k : κ} {v : ν} {m : List (κ × ν)} (h : lookup k m = some v) :
    (k, v) ∈ m := by
  induction m with
  | nil => cases h
  | cons e m ih =>
    rw [lookup] at h
    split at h
    · rename_i heq
      obtain rfl := Std.LawfulEqOrd.eq_of_compare heq
      cases h
      exact List.mem_cons_self
    · exact List.mem_cons_of_mem _ (ih h)

theorem compare_eq_iff {a b : κ} : compare a b = .eq ↔ a = b := by
  constructor
  · exact Std.LawfulEqOrd.eq_of_compare
  · intro h
    rw [h]
    exact Std.ReflCmp.compare_self

section Decidable

variable [DecidableEq κ]

theorem lookup_cons (k : κ) (e : κ × ν) (m : List (κ × ν)) :
    lookup k (e :: m) = if k = e.1 then some e.2 else lookup k m := by
  rw [lookup]
  simp only [compare_eq_iff]

theorem lookup_insert {m : List (κ × ν)} (k key : κ) (v : ν) :
    lookup k (insert key v m) = if k = key then some v else lookup k m := by
  induction m with
  | nil => exact lookup_cons k (key, v) []
  | cons e m ih =>
    rw [insert]
    split
    · exact lookup_cons k (key, v) (e :: m)
    · rename_i heq
      -- the key is there already, and its value gives way
      have hkey : key = e.1 := compare_eq_iff.mp heq
      rw [lookup_cons, lookup_cons, ← hkey]
      by_cases h : k = key
      · rw [if_pos h, if_pos h]
      · rw [if_neg h, if_neg h, if_neg h]
    · rename_i hgt
      rw [lookup_cons, lookup_cons, ih]
      by_cases h : k = e.1
      · have hne : k ≠ key := by
          intro hk
          rw [compare_eq_iff.mpr (hk.symm.trans h)] at hgt
          cases hgt
        rw [if_pos h, if_neg hne, if_pos h]
      · rw [if_neg h, if_neg h]

/-- What a map holds under a key is the last entry with that key. -/
theorem lookup_extend {m entries : List (κ × ν)} (k : κ) :
    lookup k (extend m entries) =
      ((entries.reverse.find? fun e => decide (e.1 = k)).map Prod.snd).or (lookup k m) := by
  induction entries generalizing m with
  | nil => rfl
  | cons e entries ih =>
    show lookup k (extend (insert e.1 e.2 m) entries) = _
    rw [ih, lookup_insert, List.reverse_cons, List.find?_append]
    cases hfound : entries.reverse.find? fun e => decide (e.1 = k) with
    | some found => rfl
    | none =>
      by_cases h : k = e.1
      · rw [if_pos h, List.find?_singleton, if_pos (decide_eq_true h.symm)]
        rfl
      · rw [if_neg h, List.find?_singleton, if_neg fun hk => h (of_decide_eq_true hk).symm]
        rfl

theorem lookup_eq_find? {m : List (κ × ν)} (k : κ) :
    lookup k m = (m.find? fun e => decide (e.1 = k)).map Prod.snd := by
  induction m with
  | nil => rfl
  | cons e m ih =>
    rw [lookup_cons, List.find?_cons]
    by_cases h : k = e.1
    · rw [if_pos h, decide_eq_true h.symm]
      rfl
    · rw [if_neg h, decide_eq_false fun hk => h hk.symm, ih]

end Decidable

theorem insert_perm {k : κ} {v : ν} {m : List (κ × ν)} (h : ∀ e ∈ m, e.1 ≠ k) :
    (insert k v m).Perm ((k, v) :: m) := by
  induction m with
  | nil => exact List.Perm.refl _
  | cons e m ih =>
    rw [insert]
    split
    · exact List.Perm.refl _
    · rename_i heq
      exact absurd (Std.LawfulEqOrd.eq_of_compare heq).symm (h e List.mem_cons_self)
    · have hperm := ih fun e' he' => h e' (List.mem_cons_of_mem _ he')
      exact (hperm.cons e).trans (List.Perm.swap (k, v) e m)

/-- The entries of a map built from distinct keys are those it was built from. -/
theorem extend_perm {m entries : List (κ × ν)} (h : ((m ++ entries).map Prod.fst).Nodup) :
    (extend m entries).Perm (m ++ entries) := by
  induction entries generalizing m with
  | nil =>
    rw [List.append_nil]
    exact List.Perm.refl _
  | cons e entries ih =>
    have hmoved : (m ++ e :: entries).Perm ((e :: m) ++ entries) := List.perm_middle
    have hnodup := (hmoved.map Prod.fst).nodup_iff.mp h
    have hfresh : ∀ e' ∈ m, e'.1 ≠ e.1 := by
      intro e' he' hkey
      apply (List.nodup_cons.mp hnodup).1
      rw [← hkey]
      exact List.mem_map_of_mem (List.mem_append_left _ he')
    have hinsert : (insert e.1 e.2 m).Perm (e :: m) := insert_perm hfresh
    have hstep := ih (m := insert e.1 e.2 m) <| by
      apply ((hinsert.append_right entries).map Prod.fst).nodup_iff.mpr
      exact hnodup
    exact hstep.trans ((hinsert.append_right entries).trans hmoved.symm)

theorem Sorted.nodup_keys {m : List (κ × ν)} (h : Sorted m) : (m.map Prod.fst).Nodup := by
  apply List.pairwise_map.mpr
  apply h.imp
  intro a b hlt heq
  have hsame : compare b.1 b.1 = .eq := Std.ReflCmp.compare_self
  rw [heq, hsame] at hlt
  cases hlt

/-- **A map does not remember the order in which it was filled.** -/
theorem extend_of_perm [Std.TransOrd κ] {m entries : List (κ × ν)} (h : Sorted m)
    (hperm : entries.Perm m) : extend [] entries = m := by
  have hnodup : (entries.map Prod.fst).Nodup := (hperm.map Prod.fst).nodup_iff.mpr h.nodup_keys
  have hfilled : (extend [] entries).Perm m := (extend_perm hnodup).trans hperm
  apply List.Perm.eq_of_pairwise _ (Sorted.nil.extend entries) h hfilled
  intro a b _ _ hab hba
  rw [Std.OrientedCmp.gt_of_lt hab] at hba
  cases hba

end Lookup

end SortedMap
