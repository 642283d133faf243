import Ytsaurus.Grammar.Doc

/-!
# `Grammar/Levels.lean` — which documents have a value

Two things only stop the decoder on a document: it nests deeper than the limit
(`Doc.levels`), or a map in it carries `$value` beside a plain key (`Doc.OneBody`); that nothing
else does is `Doc.value_ok_iff`, in `Proof/Value.lean`. What is here is proved by the induction that
follows the entries the decoder is offered (`Doc.entries_induction`), in which the map behind an
attribute block is no level of its own.
-/

set_option autoImplicit false

namespace Ytsaurus.Yson

/-- A key of a map that is neither an attribute nor the body. -/
def isPlainKey (key : List UInt8) : Bool := key.head? != some 0x40 && key != valueKey

theorem isPlainKey_iff {key : List UInt8} :
    isPlainKey key ↔ (∀ name, key ≠ 0x40 :: name) ∧ key ≠ valueKey := by
  cases key with
  | nil => simp [isPlainKey]
  | cons b key => simp [isPlainKey]

/-! ## Induction over the entries -/

/-- Induction on a document by the values it offers the decoder. -/
theorem Doc.entries_induction {P : Doc → Prop} (scalar : ∀ s, P (.scalar s)) (entity : P .entity)
    (list : ∀ items trail, (∀ p ∈ items, P p.2) → P (.list items trail))
    (map : ∀ pairs trail, (∀ e ∈ mapEntries pairs, P e.2) → P (.map pairs trail))
    (attributed : ∀ pairs trail body,
      (∀ e ∈ attributeEntries pairs ++ bodyEntries body, P e.2) → P (.attributed pairs trail body))
    (d : Doc) : P d := by
  induction hn : d.toks.length using Nat.strong_induction_on generalizing d with
  | _ n ih =>
    subst hn
    cases d with
    | scalar s => exact scalar s
    | entity => exact entity
    | list items trail =>
      refine list items trail fun p hp => ih _ ?_ _ rfl
      have := mem_items_length hp
      simp only [Doc.toks, List.length_cons, List.length_append]
      omega
    | map pairs trail => exact map pairs trail fun e he => ih _ (mem_mapEntries_length he) _ rfl
    | attributed pairs trail body =>
      exact attributed pairs trail body fun e he => ih _ (mem_attributed_length he) _ rfl

/-! ## Levels -/

mutual

/-- How many levels of nesting the decoder counts in a document. The map that is the body of
an attributed value (`whole` is false there) is read by the same access object as the
attributes and counts for nothing. -/
def Doc.levelsIn : Bool → Doc → Nat
  | _, .scalar _ => 0
  | _, .entity => 0
  | _, .list items _ => itemsLevels items + 1
  | whole, .map pairs _ => pairsLevels pairs + if whole then 1 else 0
  | _, .attributed pairs _ body => max (pairsLevels pairs) (Doc.levelsIn false body) + 1

def itemsLevels : List (Nat × Doc) → Nat
  | [] => 0
  | (_, d) :: items => max (Doc.levelsIn true d) (itemsLevels items)

def pairsLevels : List (Nat × List UInt8 × Doc) → Nat
  | [] => 0
  | (_, _, d) :: pairs => max (Doc.levelsIn true d) (pairsLevels pairs)

end

abbrev Doc.levels (d : Doc) : Nat := d.levelsIn true

/-- The document nests within `limit` when it starts at `depth`. -/
def Doc.Fits (limit depth : Nat) (d : Doc) : Prop := depth + d.levels ≤ limit

theorem itemsLevels_le_iff {items : List (Nat × Doc)} {n : Nat} :
    itemsLevels items ≤ n ↔ ∀ p ∈ items, p.2.levels ≤ n := by
  induction items with
  | nil => simp [itemsLevels]
  | cons p items ih => simp [itemsLevels, ih]

theorem pairsLevels_le_iff {pairs : List (Nat × List UInt8 × Doc)} {n : Nat} :
    pairsLevels pairs ≤ n ↔ ∀ e ∈ mapEntries pairs, e.2.levels ≤ n := by
  induction pairs with
  | nil => simp [pairsLevels, mapEntries]
  | cons p pairs ih =>
    simp only [mapEntries, List.map_cons, List.mem_cons, forall_eq_or_imp, pairsLevels,
      Nat.max_le] at ih ⊢
    rw [ih]

theorem bodyLevels_le_iff {body : Doc} {n : Nat} :
    body.levelsIn false ≤ n ↔ ∀ e ∈ bodyEntries body, e.2.levels ≤ n := by
  cases body with
  | map pairs trail => simpa [Doc.levelsIn, bodyEntries] using pairsLevels_le_iff
  | entity => simp [Doc.levelsIn, bodyEntries]
  | _ => simp [Doc.levelsIn, bodyEntries, Doc.levels]

theorem Doc.fits_list {limit depth : Nat} {items : List (Nat × Doc)} {trail : Nat} :
    (Doc.list items trail).Fits limit depth ↔
      depth + 1 ≤ limit ∧ ∀ p ∈ items, p.2.Fits limit (depth + 1) := by
  have hbound : (Doc.list items trail).Fits limit depth ↔
      depth + 1 ≤ limit ∧ itemsLevels items ≤ limit - (depth + 1) := by
    simp only [Fits, levels, levelsIn]
    omega
  rw [hbound, itemsLevels_le_iff]
  refine and_congr_right fun h => forall₂_congr fun p _ => ?_
  simp only [Fits]
  omega

/-- The entries nest within what the level around them leaves. -/
theorem entries_fit {limit depth : Nat} {E : List (List UInt8 × Doc)} (h : depth + 1 ≤ limit) :
    (∀ e ∈ E, e.2.levels ≤ limit - (depth + 1)) ↔ ∀ e ∈ E, e.2.Fits limit (depth + 1) := by
  refine forall₂_congr fun e _ => ?_
  simp only [Doc.Fits]
  omega

theorem Doc.fits_map {limit depth : Nat} {pairs : List (Nat × List UInt8 × Doc)} {trail : Nat} :
    (Doc.map pairs trail).Fits limit depth ↔
      depth + 1 ≤ limit ∧ ∀ e ∈ mapEntries pairs, e.2.Fits limit (depth + 1) := by
  have hbound : (Doc.map pairs trail).Fits limit depth ↔
      depth + 1 ≤ limit ∧ pairsLevels pairs ≤ limit - (depth + 1) := by
    simp only [Fits, levels, levelsIn, if_true]
    omega
  rw [hbound, pairsLevels_le_iff]
  exact and_congr_right entries_fit

theorem Doc.fits_attributed {limit depth : Nat} {pairs : List (Nat × List UInt8 × Doc)}
    {trail : Nat} {body : Doc} :
    (Doc.attributed pairs trail body).Fits limit depth ↔ depth + 1 ≤ limit ∧
      ∀ e ∈ attributeEntries pairs ++ bodyEntries body, e.2.Fits limit (depth + 1) := by
  have hbound : (Doc.attributed pairs trail body).Fits limit depth ↔ depth + 1 ≤ limit ∧
      pairsLevels pairs ≤ limit - (depth + 1) ∧ body.levelsIn false ≤ limit - (depth + 1) := by
    simp only [Fits, levels, levelsIn]
    omega
  have hattr : (∀ e ∈ mapEntries pairs, e.2.levels ≤ limit - (depth + 1)) ↔
      ∀ e ∈ attributeEntries pairs, e.2.levels ≤ limit - (depth + 1) := by
    simp only [mapEntries, attributeEntries, List.forall_mem_map]
  rw [hbound, pairsLevels_le_iff, bodyLevels_le_iff, hattr]
  refine and_congr_right fun h => ?_
  rw [← entries_fit h]
  simp only [List.mem_append, or_imp, forall_and]

/-! ## One body -/

mutual

/-- No map carries `$value` beside a plain key. -/
def Doc.OneBody : Doc → Prop
  | .scalar _ => True
  | .entity => True
  | .list items _ => itemsOneBody items
  | .map pairs _ =>
    ¬ ((∃ p ∈ pairs, p.2.1 = valueKey) ∧ ∃ p ∈ pairs, isPlainKey p.2.1) ∧ pairsOneBody pairs
  | .attributed pairs _ body => pairsOneBody pairs ∧ body.OneBody

def itemsOneBody : List (Nat × Doc) → Prop
  | [] => True
  | (_, d) :: items => d.OneBody ∧ itemsOneBody items

def pairsOneBody : List (Nat × List UInt8 × Doc) → Prop
  | [] => True
  | (_, _, d) :: pairs => d.OneBody ∧ pairsOneBody pairs

end

/-- Among the keys of these entries is not both `$value` and a plain key. -/
def OneBodyKeys (E : List (List UInt8 × Doc)) : Prop :=
  ¬ ((∃ e ∈ E, e.1 = valueKey) ∧ ∃ e ∈ E, isPlainKey e.1)

theorem itemsOneBody_iff {items : List (Nat × Doc)} :
    itemsOneBody items ↔ ∀ p ∈ items, p.2.OneBody := by
  induction items with
  | nil => simp [itemsOneBody]
  | cons p items ih => simp [itemsOneBody, ih]

theorem pairsOneBody_iff {pairs : List (Nat × List UInt8 × Doc)} :
    pairsOneBody pairs ↔ ∀ e ∈ mapEntries pairs, e.2.OneBody := by
  induction pairs with
  | nil => simp [pairsOneBody, mapEntries]
  | cons p pairs ih =>
    simp only [mapEntries, List.map_cons, List.mem_cons, forall_eq_or_imp, pairsOneBody] at ih ⊢
    rw [ih]

theorem Doc.oneBody_map {pairs : List (Nat × List UInt8 × Doc)} {trail : Nat} :
    (Doc.map pairs trail).OneBody ↔
      OneBodyKeys (mapEntries pairs) ∧ ∀ e ∈ mapEntries pairs, e.2.OneBody := by
  rw [OneBody, pairsOneBody_iff, OneBodyKeys]
  simp only [mapEntries, List.mem_map, exists_exists_and_eq_and]

theorem valueKey_not_plain : isPlainKey valueKey = false := by decide +kernel

theorem attributeKey_ne_value (k : List UInt8) : 0x40 :: k ≠ valueKey := by
  intro h
  have hhead : valueKey.head? = some 0x24 := by decide +kernel
  rw [← h] at hhead
  cases hhead

theorem oneBody_body {body : Doc} :
    body.OneBody ↔ OneBodyKeys (bodyEntries body) ∧ ∀ e ∈ bodyEntries body, e.2.OneBody := by
  cases body with
  | map pairs trail => exact Doc.oneBody_map
  | entity => simp [bodyEntries, Doc.OneBody, OneBodyKeys]
  | _ => simp [bodyEntries, OneBodyKeys, valueKey_not_plain, Doc.OneBody]

theorem Doc.oneBody_attributed {pairs : List (Nat × List UInt8 × Doc)} {trail : Nat} {body : Doc} :
    (Doc.attributed pairs trail body).OneBody ↔
      OneBodyKeys (attributeEntries pairs ++ bodyEntries body) ∧
        ∀ e ∈ attributeEntries pairs ++ bodyEntries body, e.2.OneBody := by
  have hattr : (∀ e ∈ mapEntries pairs, e.2.OneBody) ↔
      ∀ e ∈ attributeEntries pairs, e.2.OneBody := by
    simp only [mapEntries, attributeEntries, List.forall_mem_map]
  have hkeys : ∀ e ∈ attributeEntries pairs, e.1 ≠ valueKey ∧ isPlainKey e.1 = false := by
    intro e he
    obtain ⟨p, _, rfl⟩ := List.mem_map.mp he
    exact ⟨attributeKey_ne_value _, rfl⟩
  have hone : OneBodyKeys (attributeEntries pairs ++ bodyEntries body) ↔
      OneBodyKeys (bodyEntries body) := by
    simp only [OneBodyKeys, List.mem_append]
    grind
  rw [OneBody, pairsOneBody_iff, oneBody_body, hattr, hone]
  simp only [List.mem_append, or_imp, forall_and]
  tauto

end Ytsaurus.Yson
