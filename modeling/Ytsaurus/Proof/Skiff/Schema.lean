import Ytsaurus.Lib.ExceptList
import Ytsaurus.Grammar.SkiffWire

/-!
# `Proof/Skiff/Schema.lean` — induction over a schema, and what a checked one guarantees

Everything that walks a schema does the same thing to its children, one after another or one
chosen by a tag. The facts here are what those walks share: the induction principle, the
child a tag selects, and the child counts that `Schema::validate` lets through.

A schema is a tree in which a node holds a list of nodes, so the induction that Lean offers is about
nodes and lists together; `Schema.induction` is the one that the proofs want, with the hypothesis
for every child of a node. `tagLimit` is how many children the tag of a wire type can tell apart.
A repeated variant has one tag less for its children, since one value of the tag ends the list.
-/

set_option autoImplicit false

namespace Ytsaurus
namespace Skiff

/-- A property of a node may be proved from the same property of its children. -/
theorem Schema.induction {P : Schema → Prop}
    (node : ∀ (wireType : WireType) (name : Option String) (children : List Schema),
      (∀ child ∈ children, P child) → P ⟨wireType, name, children⟩) :
    ∀ schema, P schema := by
  intro schema
  refine @Schema.rec P (fun children => ∀ child ∈ children, P child) node ?_ ?_ schema
  · intro child hchild
    cases hchild
  · intro head tail hhead htail child hchild
    rcases List.mem_cons.mp hchild with rfl | hchild
    · exact hhead
    · exact htail child hchild

/-! ## The child a tag selects -/

section Child

variable {α β : Type} {wireType : WireType} {children : List α} {tag : BitVec 16} {child : α}

theorem variantChild_mem (h : variantChild wireType children tag = .ok child) :
    child ∈ children := by
  unfold variantChild at h
  split at h
  · rename_i found
    cases h
    exact List.mem_of_getElem? found
  · cases h

theorem variantChild_lt (h : variantChild wireType children tag = .ok child) :
    tag.toNat < children.length := by
  unfold variantChild at h
  split at h
  · rename_i found
    exact (List.getElem?_eq_some_iff.mp found).1
  · cases h

theorem variantChild_map (f : α → β) :
    variantChild wireType (children.map f) tag = (variantChild wireType children tag).map f := by
  unfold variantChild
  rw [List.getElem?_map, List.length_map]
  cases children[tag.toNat]? <;> rfl

end Child

/-! ## The readers of the children -/

namespace Decode

variable [ValueLayout]

theorem decodeAll_eq_map (children : List Schema) :
    decodeAll children = children.map decodeValue := by
  induction children with
  | nil => rfl
  | cons child children ih => rw [decodeAll, ih, List.map_cons]

theorem skipAll_eq_map (children : List Schema) : skipAll children = children.map skipValue := by
  induction children with
  | nil => rfl
  | cons child children ih => rw [skipAll, ih, List.map_cons]

/-- `decode_value` at a node: the charge, and then the node. -/
theorem decodeValue_node (wireType : WireType) (name : Option String) (children : List Schema) :
    decodeValue ⟨wireType, name, children⟩ =
      charge ValueLayout.sizeOfValue >>= fun _ =>
        decodeNode wireType (children.map decodeValue) := by
  rw [decodeValue, decodeAll_eq_map]

theorem skipValue_node (wireType : WireType) (name : Option String) (children : List Schema) :
    skipValue ⟨wireType, name, children⟩ =
      charge ValueLayout.sizeOfValue >>= fun _ => skipNode wireType (children.map skipValue) := by
  rw [skipValue, skipAll_eq_map]

end Decode

/-! ## What `Schema::validate` guarantees -/

namespace Schema

theorem validateAll_eq_ok {children : List Schema} :
    validateAll children = .ok () ↔ ∀ child ∈ children, child.validate = .ok () := by
  induction children with
  | nil =>
    constructor
    · intro _ child h
      cases h
    · intro _
      rfl
  | cons child children ih =>
    rw [validateAll, ExceptList.bind_eq_ok, List.forall_mem_cons]
    constructor
    · intro h
      obtain ⟨_, hchild, hrest⟩ := h
      exact ⟨hchild, ih.mp hrest⟩
    · intro h
      exact ⟨(), h.1, ih.mpr h.2⟩

theorem validate_node {wireType : WireType} {name : Option String} {children : List Schema} :
    validate ⟨wireType, name, children⟩ = .ok () ↔
      checkChildren wireType children.length = .ok () ∧
        ∀ child ∈ children, child.validate = .ok () := by
  rw [validate, ExceptList.bind_eq_ok, ← validateAll_eq_ok]
  constructor
  · intro h
    obtain ⟨_, hcount, hrest⟩ := h
    exact ⟨hcount, hrest⟩
  · intro h
    exact ⟨(), h.1, h.2⟩

theorem checkMaximum_eq_ok {wireType : WireType} {count maximum : Nat} :
    checkMaximum wireType count maximum = .ok () ↔ count ≤ maximum := by
  unfold checkMaximum
  by_cases h : count > maximum
  · rw [if_pos h]
    constructor
    · intro h'
      cases h'
    · intro h'
      exact absurd h (Nat.not_lt.mpr h')
  · rw [if_neg h]
    exact ⟨fun _ => Nat.not_lt.mp h, fun _ => rfl⟩

/-- A variant has a tag left for every child; a repeated one has the end tag besides. -/
theorem children_le_tagLimit {wireType : WireType} {count : Nat}
    (hwire : wireType = .variant8 ∨ wireType = .variant16 ∨ wireType = .repeatedVariant8 ∨
      wireType = .repeatedVariant16)
    (h : checkChildren wireType count = .ok ()) : count ≤ tagLimit wireType := by
  rcases hwire with rfl | rfl | rfl | rfl <;> exact checkMaximum_eq_ok.mp h

end Schema

end Skiff
end Ytsaurus
