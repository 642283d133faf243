import Ytsaurus.Client.Path
import Ytsaurus.Lib.Tuples

/-!
# `Proof/Client/Path.lean` — which key ranges are refused

`Limit.holdsBelow` and `Limit.holdsAbove` are what the documentation of `RowRange::keys` says the
two kinds of limit select. Every refused range is empty but one kind: the range that begins inside
the group of rows at whose end it stops (`EndsWithin`).

The client refuses a range before the cluster sees it, by comparing the two keys as far as it can
tell how they compare. It does not know how values of different types are ordered, so neither does
the statement: a `KeyOrder` is any order that agrees with the client where the client has an
opinion. What is refused wrongly is refused wrongly for every such order, and what is refused
rightly is empty for every one.

A bound that is a prefix of longer keys names all the rows that begin with it. `key_bound`
truncates the row's key for that, and the comparison of the client does not: to it a longer key is
behind its own prefix.
-/

set_option autoImplicit false

namespace Ytsaurus.Client

open Yson (YsonValue YsonNode F64)
open Utf8 (asBytes)

/-! ## What the limits select -/

/-- How the cluster orders key values, as far as the client relies on it: some order that agrees
with the comparison of two components of one type. -/
structure KeyOrder where
  cmp : YsonValue → YsonValue → Ordering
  trans : Std.TransCmp cmp
  agrees : ∀ {lower upper : YsonValue} {ordering : Ordering}, lower.attributes = none →
    upper.attributes = none → componentOrdering lower.node upper.node = some ordering →
    cmp lower upper = ordering

instance (order : KeyOrder) : Std.TransCmp order.cmp := order.trans

/-- Whole keys, the shorter tuple smaller. -/
def KeyOrder.tuples (order : KeyOrder) : Key → Key → Ordering := List.compareLex order.cmp

instance (order : KeyOrder) : Std.TransCmp order.tuples :=
  inferInstanceAs (Std.TransCmp (List.compareLex order.cmp))

/-- A `key_bound` compares the row's key truncated to the length of the bound. -/
def Relation.holds (order : KeyOrder) (relation : Relation) (row bound : Key) : Prop :=
  match relation with
  | .greater => order.tuples (row.take bound.length) bound = .gt
  | .lessOrEqual => (order.tuples (row.take bound.length) bound).isLE

/-- The rows a lower limit leaves. -/
def Limit.holdsBelow (order : KeyOrder) (row : Key) : Limit → Prop
  | .rowIndex _ => True
  | .key tuple => (order.tuples tuple row).isLE
  | .keyBound relation tuple => relation.holds order row tuple

/-- The rows an upper limit leaves. -/
def Limit.holdsAbove (order : KeyOrder) (row : Key) : Limit → Prop
  | .rowIndex _ => True
  | .key tuple => order.tuples row tuple = .lt
  | .keyBound relation tuple => relation.holds order row tuple

/-- A row satisfies both limits of a range of keys. -/
def RowRange.Selects (range : RowRange) (order : KeyOrder) (row : Key) : Prop :=
  (∀ limit, range.lower = some limit → limit.holdsBelow order row) ∧
    ∀ limit, range.upper = some limit → limit.holdsAbove order row

/-! ## What the client compares -/

theorem tuples_of_keyOrdering (order : KeyOrder) {lower upper : Key} {ordering : Ordering}
    (h : keyOrdering lower upper = some ordering) : order.tuples lower upper = ordering := by
  induction lower generalizing upper with
  | nil =>
    cases upper with
    | nil =>
      cases h
      rfl
    | cons x upper =>
      have hlt : compare 0 (upper.length + 1) = Ordering.lt :=
        Nat.compare_eq_lt.mpr (Nat.succ_pos _)
      cases hlt.symm.trans (Option.some.inj h)
      rfl
  | cons x lower ih =>
    cases upper with
    | nil =>
      have hgt : compare (lower.length + 1) 0 = Ordering.gt :=
        Nat.compare_eq_gt.mpr (Nat.succ_pos _)
      cases hgt.symm.trans (Option.some.inj h)
      rfl
    | cons y upper =>
      unfold keyOrdering at h
      by_cases hattributes : (x.attributes.isSome || y.attributes.isSome) = true
      · cases (if_pos hattributes).symm.trans h
      · replace h := (if_neg hattributes).symm.trans h
        have hx : x.attributes = none := by
          cases hx : x.attributes with
          | none => rfl
          | some _ => simp [hx] at hattributes
        have hy : y.attributes = none := by
          cases hy : y.attributes with
          | none => rfl
          | some _ => simp [hy] at hattributes
        unfold KeyOrder.tuples
        rw [List.compareLex_cons_cons]
        cases hcomponent : componentOrdering x.node y.node with
        | none =>
          rw [hcomponent] at h
          cases h
        | some first =>
          rw [order.agrees hx hy hcomponent]
          rw [hcomponent] at h
          cases first with
          | lt =>
            cases h
            rfl
          | gt =>
            cases h
            rfl
          | eq => exact ih h

/-- A key orders behind another in a component they both have, or it goes on where the other
ends. -/
theorem keyOrdering_gt_iff {lower upper : Key} :
    keyOrdering lower upper = some .gt ↔
      keyOrdering (lower.take upper.length) upper = some .gt ∨
        keyOrdering (lower.take upper.length) upper = some .eq ∧ upper.length < lower.length := by
  induction lower generalizing upper with
  | nil =>
    rw [List.take_nil]
    constructor
    · exact .inl
    · rintro (h | ⟨_, hlt⟩)
      · exact h
      · exact absurd hlt (Nat.not_lt_zero _)
  | cons x lower ih =>
    cases upper with
    | nil =>
      have hgt : compare (lower.length + 1) 0 = Ordering.gt :=
        Nat.compare_eq_gt.mpr (Nat.succ_pos _)
      exact ⟨fun _ => .inr ⟨rfl, Nat.succ_pos _⟩, fun _ => congrArg some hgt⟩
    | cons y upper =>
      rw [List.length_cons, List.take_succ_cons, List.length_cons]
      unfold keyOrdering
      by_cases hattributes : (x.attributes.isSome || y.attributes.isSome) = true
      · rw [if_pos hattributes, if_pos hattributes]
        simp
      · rw [if_neg hattributes, if_neg hattributes]
        cases componentOrdering x.node y.node with
        | none => simp
        | some first =>
          cases first with
          | lt => simp
          | gt => simp
          | eq =>
            dsimp only
            rw [ih, Nat.succ_lt_succ_iff]

/-- The key of a bound. -/
def Bound.value {α : Type} : Bound α → Option α
  | .included value | .excluded value => some value
  | .unbounded => none

theorem refusal_keys (start stop : Bound Key) :
    (RowRange.keys start stop).refusal.isSome ↔
      ∃ lower upper, start.value = some lower ∧ stop.value = some upper ∧
        keyOrdering lower upper = some .gt := by
  have hkeys : ∀ lower upper : Key,
      (if keyOrdering lower upper = some .gt then
        some ("the key range starts after it ends, the same mistake as " ++
          "`&rows[5..3]`; the cluster answers it with 200 and no rows rather " ++
          "than with an error") else none : Option String).isSome ↔
        keyOrdering lower upper = some .gt := by
    intro lower upper
    split
    · simp [*]
    · simp [*]
  cases start with
  | unbounded => cases stop <;> simp [RowRange.keys, RowRange.refusal, RowRange.negativeIndex,
      RowRange.backwardsRows, RowRange.backwardsKeys, Bound.value]
  | included lower =>
    cases stop with
    | unbounded => simp [RowRange.keys, RowRange.refusal, RowRange.negativeIndex,
        RowRange.backwardsRows, RowRange.backwardsKeys, Bound.value]
    | included upper | excluded upper =>
      refine (hkeys lower upper).trans ⟨fun h => ⟨lower, upper, rfl, rfl, h⟩, ?_⟩
      rintro ⟨_, _, ⟨⟩, ⟨⟩, h⟩
      exact h
  | excluded lower =>
    cases stop with
    | unbounded => simp [RowRange.keys, RowRange.refusal, RowRange.negativeIndex,
        RowRange.backwardsRows, RowRange.backwardsKeys, Bound.value]
    | included upper | excluded upper =>
      refine (hkeys lower upper).trans ⟨fun h => ⟨lower, upper, rfl, rfl, h⟩, ?_⟩
      rintro ⟨_, _, ⟨⟩, ⟨⟩, h⟩
      exact h

/-! ## Which refused ranges are empty -/

section

variable {order : KeyOrder} {row lower upper : Key}

/-- What a lower limit leaves is not below its key. -/
theorem above_of_holdsBelow {start : Bound Key} (hstart : start.value = some lower)
    (h : ∀ limit, (RowRange.keys start .unbounded).lower = some limit →
      limit.holdsBelow order row) : (order.tuples lower row).isLE := by
  cases start with
  | included tuple =>
    cases hstart
    exact h _ rfl
  | excluded tuple =>
    cases hstart
    -- the truncated key is above the bound, and the key is not below what is left of it
    have hgt : order.tuples (row.take lower.length) lower = .gt := h _ rfl
    have hle : (order.tuples lower (row.take lower.length)).isLE := by
      rw [Std.OrientedCmp.lt_of_gt hgt]
      rfl
    exact Std.TransCmp.isLE_trans hle (Tuples.isLE_take _ _)
  | unbounded => cases hstart

/-- A range whose ends differ in a component is empty. -/
theorem empty_of_component (hgt : keyOrdering (lower.take upper.length) upper = some .gt)
    (hbelow : (order.tuples lower row).isLE) :
    order.tuples (row.take upper.length) upper = .gt := by
  have hcut : (order.tuples (lower.take upper.length) (row.take upper.length)).isLE :=
    Tuples.take_isLE_take hbelow _
  have hlower := Std.OrientedCmp.lt_of_gt (tuples_of_keyOrdering order hgt)
  exact Std.OrientedCmp.gt_of_lt (Std.TransCmp.lt_of_lt_of_isLE hlower hcut)

/-- A key that is above another one when it is cut is above it as a whole. -/
theorem gt_of_take_gt (h : order.tuples (row.take upper.length) upper = .gt) :
    order.tuples row upper = .gt :=
  Std.OrientedCmp.gt_of_lt (Std.TransCmp.lt_of_lt_of_isLE (Std.OrientedCmp.lt_of_gt h)
    (Tuples.isLE_take _ _))

end

/-- A row above an exclusive lower bound, in the group that the upper bound names, is above the
lower bound behind the end of the upper one. -/
theorem exists_above {order : KeyOrder} {row lower upper : Key}
    (habove : order.tuples (row.take lower.length) lower = .gt)
    (hle : (order.tuples (row.take upper.length) upper).isLE)
    (hcut : order.tuples (lower.take upper.length) upper = .eq)
    (hlonger : upper.length < lower.length) :
    ∃ (j : Nat) (value above : YsonValue), upper.length ≤ j ∧ lower[j]? = some value ∧
      order.cmp above value = .gt := by
  have htake : (row.take lower.length).take upper.length = row.take upper.length := by
    rw [List.take_take, Nat.min_eq_left (Nat.le_of_lt hlonger)]
  have hbelow : (order.tuples lower (row.take lower.length)).isLE := by
    rw [Std.OrientedCmp.lt_of_gt habove]
    rfl
  -- cut at the end of the upper bound, the two are one key
  have hdown : (order.tuples (row.take upper.length) (lower.take upper.length)).isLE := by
    rw [Std.TransCmp.congr_right hcut]
    exact hle
  have hup : (order.tuples (lower.take upper.length) (row.take upper.length)).isLE := by
    rw [← htake]
    exact Tuples.take_isLE_take hbelow _
  have hsame : order.tuples ((row.take lower.length).take upper.length)
      (lower.take upper.length) = .eq := by
    rw [htake]
    exact Std.OrientedCmp.isLE_antisymm hdown hup
  obtain ⟨j, above, value, _, hvalue, hgt⟩ := Tuples.exists_gt (Tuples.drop_gt habove hsame) (by
    rw [List.length_drop, List.length_drop]
    exact Nat.sub_le_sub_right (List.length_take_le _ _) _)
  rw [List.getElem?_drop] at hvalue
  exact ⟨upper.length + j, value, above, Nat.le_add_right _ _, hvalue, hgt⟩

/-- The range begins inside the group of rows whose key starts with the upper bound, and it stops
at the end of that group; an exclusive lower bound leaves a key of the group above it. -/
def EndsWithin (order : KeyOrder) (start stop : Bound Key) : Prop :=
  ∃ lower upper, stop = .included upper ∧
    keyOrdering (lower.take upper.length) upper = some .eq ∧ upper.length < lower.length ∧
    (start = .included lower ∨
      start = .excluded lower ∧ ∃ (j : Nat) (value above : YsonValue), upper.length ≤ j ∧
        lower[j]? = some value ∧ order.cmp above value = .gt)

/-- Such a range has a row. -/
theorem selects_of_endsWithin {order : KeyOrder} {start stop : Bound Key}
    (h : EndsWithin order start stop) : ∃ row, (RowRange.keys start stop).Selects order row := by
  obtain ⟨lower, upper, rfl, heq, _, hstart⟩ := h
  have hcut := tuples_of_keyOrdering order heq
  rcases hstart with rfl | ⟨rfl, j, value, above, hj, hvalue, habove⟩
  · refine ⟨lower, ?_, ?_⟩
    · rintro _ ⟨⟩
      have hself : order.tuples lower lower = .eq := Std.ReflCmp.compare_self
      show (order.tuples lower lower).isLE
      rw [hself]
      rfl
    · rintro _ ⟨⟩
      show (order.tuples (lower.take upper.length) upper).isLE
      rw [hcut]
      rfl
  · refine ⟨lower.set j above, ?_, ?_⟩
    · rintro _ ⟨⟩
      show order.tuples ((lower.set j above).take lower.length) lower = .gt
      rw [List.take_of_length_le (Nat.le_of_eq List.length_set)]
      exact Tuples.set_gt hvalue habove
    · rintro _ ⟨⟩
      show (order.tuples ((lower.set j above).take upper.length) upper).isLE
      rw [List.take_set_of_le hj, hcut]
      rfl

/-- **A refused range of keys is empty, unless it ends within the group it begins in.** -/
theorem refused_range_empty_iff (order : KeyOrder) (start stop : Bound Key) :
    ((RowRange.keys start stop).refusal.isSome →
        ∀ row, ¬ (RowRange.keys start stop).Selects order row) ↔
      ¬ EndsWithin order start stop := by
  constructor
  · intro h hends
    obtain ⟨row, hrow⟩ := selects_of_endsWithin hends
    refine h ?_ row hrow
    obtain ⟨lower, upper, rfl, heq, hlonger, hstart⟩ := hends
    refine (refusal_keys _ _).mpr ⟨lower, upper, ?_, rfl, ?_⟩
    · rcases hstart with rfl | ⟨rfl, _⟩ <;> rfl
    · exact keyOrdering_gt_iff.mpr (.inr ⟨heq, hlonger⟩)
  · intro hends hrefused row hrow
    obtain ⟨lower, upper, hstart, hstop, hgt⟩ := (refusal_keys _ _).mp hrefused
    have hbelow : (order.tuples lower row).isLE := above_of_holdsBelow hstart hrow.1
    rcases keyOrdering_gt_iff.mp hgt with hcomponent | ⟨heq, hlonger⟩
    · -- the ends differ in a component
      have hcut := empty_of_component hcomponent hbelow
      cases stop with
      | included _ =>
        cases hstop
        have hle : (order.tuples (row.take upper.length) upper).isLE := hrow.2 _ rfl
        rw [hcut] at hle
        cases hle
      | excluded _ =>
        cases hstop
        have hlt : order.tuples row upper = .lt := hrow.2 _ rfl
        cases (gt_of_take_gt hcut).symm.trans hlt
      | unbounded => cases hstop
    · -- the lower key goes on where the upper one ends
      have hcut := tuples_of_keyOrdering order heq
      cases stop with
      | excluded _ =>
        cases hstop
        have hlt : order.tuples row upper = .lt := hrow.2 _ rfl
        have hupper : order.tuples lower upper = .gt := tuples_of_keyOrdering order hgt
        have hless := Std.TransCmp.lt_of_isLE_of_lt hbelow hlt
        cases hupper.symm.trans hless
      | unbounded => cases hstop
      | included _ =>
        cases hstop
        cases start with
        | unbounded => cases hstart
        | included _ =>
          cases hstart
          exact hends ⟨lower, upper, rfl, heq, hlonger, .inl rfl⟩
        | excluded _ =>
          cases hstart
          have habove : order.tuples (row.take lower.length) lower = .gt := hrow.1 _ rfl
          have hle : (order.tuples (row.take upper.length) upper).isLE := hrow.2 _ rfl
          exact hends ⟨lower, upper, rfl, heq, hlonger,
            .inr ⟨rfl, exists_above habove hle hcut hlonger⟩⟩

/-! ## A range that ends within the group it begins in -/

namespace TypeOrder

/-- Values of different types order by their types, null first. -/
def rank (value : YsonValue) : Nat :=
  match value.node with
  | .entity => 0
  | .int64 _ => 1
  | .uint64 _ => 2
  | .double _ => 3
  | .boolean _ => 4
  | .string _ => 5
  | .list _ | .map _ => 6

def int64 (value : YsonValue) : Int64 :=
  match value.node with
  | .int64 v => v
  | _ => 0

def uint64 (value : YsonValue) : UInt64 :=
  match value.node with
  | .uint64 v => v
  | _ => 0

def double (value : YsonValue) : Int :=
  match value.node with
  | .double v => v.signedMagnitude
  | _ => 0

def boolean (value : YsonValue) : Bool :=
  match value.node with
  | .boolean v => v
  | _ => false

def text (value : YsonValue) : List UInt8 :=
  match value.node with
  | .string bytes => bytes
  | _ => []

def cmp : YsonValue → YsonValue → Ordering :=
  compareLex (compareOn rank) (compareLex (compareOn int64) (compareLex (compareOn uint64)
    (compareLex (compareOn double) (compareLex (compareOn boolean) (compareOn text)))))

theorem agrees {lower upper : YsonValue} {ordering : Ordering}
    (h : componentOrdering lower.node upper.node = some ordering) : cmp lower upper = ordering := by
  obtain ⟨_, lower⟩ := lower
  obtain ⟨_, upper⟩ := upper
  have hzero : compare (0 : Int64) 0 = .eq := rfl
  have hzero' : compare (0 : UInt64) 0 = .eq := rfl
  cases lower <;> cases upper <;> try cases h
  case boolean.boolean | int64.int64 | uint64.uint64 | string.string =>
    simp [cmp, compareLex, compareOn, rank, int64, uint64, double, boolean, text]
  case double.double lower upper =>
    have hordered : lower.isNan = false ∧ upper.isNan = false := by
      by_cases hnan : (lower.isNan || upper.isNan) = true
      · cases (if_pos hnan).symm.trans h
      · simpa using hnan
    have hcompare : some (compare lower.signedMagnitude upper.signedMagnitude) = some ordering := by
      refine Eq.trans (if_neg ?_).symm h
      simp [hordered]
    cases hcompare
    simp [cmp, compareLex, compareOn, rank, int64, uint64, double, boolean, text]

/-- Values order by type and then by value. -/
def keyOrder : KeyOrder where
  cmp := cmp
  trans := by
    unfold cmp
    infer_instance
  agrees _ _ h := agrees h

end TypeOrder

/-- From `[b; 1]` to the end of the group `[b]`. -/
def withinGroup : RowRange :=
  .keys (.included [YsonBuild.string "b", YsonBuild.int 1]) (.included [YsonBuild.string "b"])

/-- The range is refused, and its first key is a row of it. -/
theorem withinGroup_refused : withinGroup.refusal.isSome ∧
    withinGroup.Selects TypeOrder.keyOrder [YsonBuild.string "b", YsonBuild.int 1] := by
  refine ⟨by decide +kernel, ?_, ?_⟩
  · rintro _ ⟨⟩
    show Ordering.isLE _ = true
    decide +kernel
  · rintro _ ⟨⟩
    show Ordering.isLE _ = true
    decide +kernel

end Ytsaurus.Client
