import Ytsaurus.Grammar.Levels
import Ytsaurus.Yson.Ser

/-!
# `Grammar/Canon.lean` — dynamic values as documents

`YsonValue.doc` is the document the serializer writes for a value. Read back it is
`YsonValue.collapse` of the value: an empty map with attributes comes back as an entity with
attributes, because between `>` and the end of `{}` the decoder sees no entry at all.

What is said of every value inside a value is said with `YsonValue.All`.
-/

set_option autoImplicit false

namespace Ytsaurus.Yson

/-- Separators as the serializer writes them: a `;` before every entry but the first. -/
def spaced {α : Type} : Bool → List α → List (Nat × α)
  | _, [] => []
  | first, x :: xs => (if first then 0 else 1, x) :: spaced false xs

theorem spaced_map_snd {α : Type} (first : Bool) (xs : List α) :
    (spaced first xs).map Prod.snd = xs := by
  induction xs generalizing first with
  | nil => rfl
  | cons x xs ih => rw [spaced, List.map_cons, ih]

theorem mapEntries_spaced (first : Bool) (es : List (List UInt8 × Doc)) :
    mapEntries (spaced first es) = es :=
  spaced_map_snd first es

theorem attributeEntries_spaced (first : Bool) (es : List (List UInt8 × Doc)) :
    attributeEntries (spaced first es) = es.map fun e => (0x40 :: e.1, e.2) := by
  have h : attributeEntries (spaced first es)
      = (mapEntries (spaced first es)).map fun e => (0x40 :: e.1, e.2) := by
    simp only [attributeEntries, mapEntries, List.map_map, Function.comp_def]
  rw [h, mapEntries_spaced]

theorem spaced_le_one {α : Type} (first : Bool) (xs : List α) :
    ∀ p ∈ spaced first xs, p.1 ≤ 1 := by
  induction xs generalizing first with
  | nil => simp [spaced]
  | cons x xs ih =>
    intro p hp
    rcases List.mem_cons.mp hp with rfl | hp
    · cases first <;> simp
    · exact ih false p hp

theorem separated_spaced {es : List (List UInt8 × Doc)} (h : pairsSeparated (spaced true es)) :
    (Doc.map (spaced true es) 0).SingleSep :=
  ⟨fun _ => ⟨Nat.zero_le 1, spaced_le_one true es⟩, h⟩

theorem separated_single {k : List UInt8} {d : Doc} (h : d.SingleSep) :
    (Doc.map [(0, k, d)] 0).SingleSep :=
  @separated_spaced [(k, d)] ⟨h, trivial⟩

/-! ## The values inside a value -/

def YsonNode.children : YsonNode → List YsonValue
  | .list items => items
  | .map entries => entries.map Prod.snd
  | _ => []

/-- The attribute blocks of a value are not values of their own; their entries are. -/
def YsonValue.attributeList (v : YsonValue) : List (List UInt8 × YsonValue) :=
  v.attributes.getD []

def YsonValue.children (v : YsonValue) : List YsonValue :=
  v.attributeList.map Prod.snd ++ v.node.children

theorem YsonValue.sizeOf_children {v w : YsonValue} (h : w ∈ v.children) :
    sizeOf w < sizeOf v := by
  obtain ⟨attributes, node⟩ := v
  have hentries : ∀ es : List (List UInt8 × YsonValue), w ∈ es.map Prod.snd →
      sizeOf w < sizeOf es := by
    intro es hw
    obtain ⟨⟨k, u⟩, he, rfl⟩ := List.mem_map.mp hw
    have := List.sizeOf_lt_of_mem he
    simp only [Prod.mk.sizeOf_spec] at this ⊢
    omega
  rcases List.mem_append.mp h with h | h
  · cases attributes with
    | none => cases h
    | some es =>
      have := hentries es h
      simp only [mk.sizeOf_spec, Option.some.sizeOf_spec]
      omega
  · cases node with
    | list items =>
      have := List.sizeOf_lt_of_mem (show w ∈ items from h)
      simp only [mk.sizeOf_spec, YsonNode.list.sizeOf_spec]
      omega
    | map es =>
      have := hentries es h
      simp only [mk.sizeOf_spec, YsonNode.map.sizeOf_spec]
      omega
    | _ => cases h

/-- Induction on a value by the values inside it. -/
theorem YsonValue.children_induction {P : YsonValue → Prop}
    (h : ∀ v, (∀ w ∈ v.children, P w) → P v) (v : YsonValue) : P v :=
  h v fun w _ => YsonValue.children_induction h w
termination_by sizeOf v
decreasing_by exact YsonValue.sizeOf_children ‹_›

/-- `P` holds of the value and of every value inside it. -/
inductive YsonValue.All (P : YsonValue → Prop) : YsonValue → Prop where
  | intro {v : YsonValue} : P v → (∀ w ∈ v.children, YsonValue.All P w) → YsonValue.All P v

theorem YsonValue.All.here {P : YsonValue → Prop} {v : YsonValue} (h : v.All P) : P v := by
  cases h with | intro h _ => exact h

theorem YsonValue.All.inside {P : YsonValue → Prop} {v : YsonValue} (h : v.All P) :
    ∀ w ∈ v.children, w.All P := by
  cases h with | intro _ h => exact h

theorem YsonValue.all_iff {P : YsonValue → Prop} {v : YsonValue} :
    v.All P ↔ P v ∧ ∀ w ∈ v.children, w.All P :=
  ⟨fun h => ⟨h.here, h.inside⟩, fun h => .intro h.1 h.2⟩

theorem YsonValue.mem_attributes_children {v : YsonValue} {e : List UInt8 × YsonValue}
    (h : e ∈ v.attributeList) : e.2 ∈ v.children :=
  List.mem_append_left _ (List.mem_map.mpr ⟨e, h, rfl⟩)

theorem YsonValue.mem_node_children {v w : YsonValue} (h : w ∈ v.node.children) :
    w ∈ v.children :=
  List.mem_append_right _ h

/-! ## What a value is -/

/-- A `BTreeMap` keeps its entries in key order, and its keys fit in memory. -/
structure IsBTreeMap (es : List (List UInt8 × YsonValue)) : Prop where
  sorted : SortedMap.Sorted es
  keys : ∀ e ∈ es, e.1.length ≤ isizeMax

/-- What the types of the fields promise of a value by itself. -/
structure YsonValue.Valid (v : YsonValue) : Prop where
  attributes : IsBTreeMap v.attributeList
  map : ∀ es, v.node = .map es → IsBTreeMap es
  string : ∀ s, v.node = .string s → s.length ≤ isizeMax

/-- Written out, the value says what it is: attributes are absent rather than empty, and no
map key has a meaning of its own. -/
structure YsonValue.Unambiguous (v : YsonValue) : Prop where
  attributes : v.attributes ≠ some []
  keys : ∀ es, v.node = .map es → ∀ e ∈ es, isPlainKey e.1

def YsonValue.NotNan (v : YsonValue) : Prop := ∀ d, v.node = .double d → d.isNan = false

/-- Not an empty map with attributes. -/
def YsonValue.NotHollow (v : YsonValue) : Prop := v.attributes = none ∨ v.node ≠ .map []

/-! ## The document of a value -/

mutual

def YsonValue.doc : YsonValue → Doc
  | ⟨some (e :: es), node⟩ => .attributed (spaced true (entriesDoc (e :: es))) 0 node.doc
  | ⟨_, node⟩ => node.doc

def YsonNode.doc : YsonNode → Doc
  | .entity => .entity
  | .boolean v => .scalar (.boolean v)
  | .int64 v => .scalar (.int64 v)
  | .uint64 v => .scalar (.uint64 v)
  | .double v => .scalar (.double v)
  | .string s => .scalar (.string s)
  | .list items => .list (spaced true (itemsDoc items)) 0
  | .map es => .map (spaced true (entriesDoc es)) 0

def itemsDoc : List YsonValue → List Doc
  | [] => []
  | v :: vs => v.doc :: itemsDoc vs

def entriesDoc : List (List UInt8 × YsonValue) → List (List UInt8 × Doc)
  | [] => []
  | (k, v) :: es => (k, v.doc) :: entriesDoc es

end

theorem itemsDoc_eq (vs : List YsonValue) : itemsDoc vs = vs.map YsonValue.doc := by
  induction vs with
  | nil => rfl
  | cons v vs ih => rw [itemsDoc, ih, List.map_cons]

theorem entriesDoc_eq (es : List (List UInt8 × YsonValue)) :
    entriesDoc es = es.map fun e => (e.1, e.2.doc) := by
  induction es with
  | nil => rfl
  | cons e es ih =>
    obtain ⟨k, v⟩ := e
    rw [entriesDoc, ih, List.map_cons]

/-! ## What comes back -/

mutual

def YsonValue.collapse : YsonValue → YsonValue
  | ⟨none, node⟩ => ⟨none, node.collapse false⟩
  | ⟨some es, node⟩ => ⟨some (collapseEntries es), node.collapse true⟩

/-- The flag says whether the node has attributes. -/
def YsonNode.collapse : Bool → YsonNode → YsonNode
  | _, .list items => .list (collapseItems items)
  | attributed, .map es =>
    if attributed && es.isEmpty then .entity else .map (collapseEntries es)
  | _, node => node

def collapseItems : List YsonValue → List YsonValue
  | [] => []
  | v :: vs => v.collapse :: collapseItems vs

def collapseEntries : List (List UInt8 × YsonValue) → List (List UInt8 × YsonValue)
  | [] => []
  | (k, v) :: es => (k, v.collapse) :: collapseEntries es

end

theorem collapseItems_eq (vs : List YsonValue) : collapseItems vs = vs.map YsonValue.collapse := by
  induction vs with
  | nil => rfl
  | cons v vs ih => rw [collapseItems, ih, List.map_cons]

theorem collapseEntries_eq (es : List (List UInt8 × YsonValue)) :
    collapseEntries es = es.map fun e => (e.1, e.2.collapse) := by
  induction es with
  | nil => rfl
  | cons e es ih =>
    obtain ⟨k, v⟩ := e
    rw [collapseEntries, ih, List.map_cons]

theorem map_eq_self_iff {α : Type} {f : α → α} {xs : List α} :
    xs.map f = xs ↔ ∀ x ∈ xs, f x = x := by
  induction xs with
  | nil => simp
  | cons x xs ih => simp [ih]

theorem collapseEntries_eq_self_iff {es : List (List UInt8 × YsonValue)} :
    collapseEntries es = es ↔ ∀ w ∈ es.map Prod.snd, w.collapse = w := by
  rw [collapseEntries_eq, map_eq_self_iff]
  simp only [List.forall_mem_map]
  exact forall₂_congr fun e _ => by
    obtain ⟨k, v⟩ := e
    simp

theorem YsonNode.collapse_eq_self_iff {attributed : Bool} {node : YsonNode} :
    node.collapse attributed = node ↔
      (attributed = false ∨ node ≠ .map []) ∧ ∀ w ∈ node.children, w.collapse = w := by
  cases node with
  | list items => simp [collapse, children, collapseItems_eq, map_eq_self_iff]
  | map es =>
    have hes := @collapseEntries_eq_self_iff es
    cases es with
    | nil => cases attributed <;> simp [collapse, children, collapseEntries]
    | cons e es => simpa [collapse, children] using hes
  | _ => simp [collapse, children]

/-- **A value comes back as it was unless an empty map with attributes is in it.** -/
theorem YsonValue.collapse_eq_self_iff (v : YsonValue) : v.collapse = v ↔ v.All NotHollow := by
  induction v using YsonValue.children_induction with
  | h v ih =>
    rw [all_iff, ← forall₂_congr ih]
    obtain ⟨attributes, node⟩ := v
    cases attributes with
    | none =>
      simp [collapse, YsonNode.collapse_eq_self_iff, NotHollow, children, attributeList]
    | some es =>
      simp only [collapse, mk.injEq, Option.some.injEq, collapseEntries_eq_self_iff,
        YsonNode.collapse_eq_self_iff, NotHollow, children, attributeList, Option.getD_some,
        List.mem_append, or_imp, forall_and]
      simp only [Bool.true_eq_false, reduceCtorEq, false_or]
      tauto

/-! ## Collapsing is done once -/

mutual

theorem YsonValue.collapse_collapse : ∀ v : YsonValue, v.collapse.collapse = v.collapse
  | ⟨none, node⟩ => by
    rw [YsonValue.collapse, YsonValue.collapse, YsonNode.collapse_collapse]
  | ⟨some es, node⟩ => by
    rw [YsonValue.collapse, YsonValue.collapse, YsonNode.collapse_collapse, collapseEntries_twice]

theorem YsonNode.collapse_collapse : ∀ (attributed : Bool) (node : YsonNode),
    (node.collapse attributed).collapse attributed = node.collapse attributed
  | _, .list items => by
    rw [YsonNode.collapse, YsonNode.collapse, collapseItems_twice]
  | attributed, .map es => by
    rw [YsonNode.collapse]
    split
    · rfl
    · rename_i h
      rw [YsonNode.collapse, collapseEntries_twice, if_neg]
      cases es with
      | nil => exact h
      | cons e es => simp [collapseEntries]
  | _, .entity | _, .boolean _ | _, .int64 _ | _, .uint64 _ | _, .double _ | _, .string _ => rfl

theorem collapseItems_twice : ∀ vs : List YsonValue,
    collapseItems (collapseItems vs) = collapseItems vs
  | [] => rfl
  | v :: vs => by
    rw [collapseItems, collapseItems, v.collapse_collapse, collapseItems_twice]

theorem collapseEntries_twice : ∀ es : List (List UInt8 × YsonValue),
    collapseEntries (collapseEntries es) = collapseEntries es
  | [] => rfl
  | (k, v) :: es => by
    rw [collapseEntries, collapseEntries, v.collapse_collapse, collapseEntries_twice]

end

end Ytsaurus.Yson
