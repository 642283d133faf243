import Ytsaurus.Lib.StateExcept
import Ytsaurus.Proof.Skiff.Schema

/-!
# `Proof/Skiff/Skip.lean` — skipping a value is decoding it and throwing it away

`skip_value` is a second recursion over the schema, with a width table and a blob reader of
its own. It has the effect of `decode_value`: on every input, under every budget, the two
fail with the same error or go on from the same place with the same budget. The induction
follows the schema; every node is settled by the lemma about its own kind.

That the budget is the same is not obvious, because a skipped value takes no memory. The source
charges it all the same, so that the two accept the same rows; a skip that charged less would go
past a row at which a read stops.
`SameEffect` forgets the result and keeps everything else, and is kept by sequencing as long as
what comes next does not depend on the result.
-/

set_option autoImplicit false

namespace Ytsaurus
namespace Skiff

open StateExcept

namespace Decode

/-! ## Leaves -/

theorem readArray_state (count : Nat) (context : String) (s : Cursor) :
    (readArray count context s).map Prod.snd =
      if count ≤ s.input.length then .ok { s with input := s.input.drop count }
      else .error (.truncated context) := by
  unfold readArray takeExact
  split <;> rfl

theorem skipExact_sameEffect (count : Nat) (context : String) :
    SameEffect (skipExact count context) (readArray count context) := by
  intro s
  rw [readArray_state]
  unfold skipExact
  by_cases h : count ≤ s.input.length
  · rw [if_neg (not_not_intro (List.length_take_of_le h)), if_pos h]
    rfl
  · have hshort : (s.input.take count).length ≠ count := by
      rw [List.length_take]
      omega
    rw [if_pos hshort, if_neg h]
    rfl

/-- A fixed-width value, whatever is made of its bytes. -/
theorem skipExact_array (count : Nat) (context : String) (f : Bytes count → Value) :
    SameEffect (skipExact count context) (do return f (← readArray count context)) := by
  apply SameEffect.bind_pure
  exact skipExact_sameEffect count context

theorem skipExact_word (width : Nat) (context : String) (f : BitVec (8 * width) → Value) :
    SameEffect (skipExact width context) (do return f (← readWord width context)) := by
  apply SameEffect.bind_pure
  apply SameEffect.bind_pure
  exact skipExact_sameEffect width context

theorem skipBlob_sameEffect (wireType : WireType) (f : List UInt8 → Value) :
    SameEffect (skipBlob wireType) (do return f (← readBlob wireType)) := by
  apply SameEffect.bind_pure
  unfold skipBlob readBlob
  apply SameEffect.bind_same
  intro length
  apply SameEffect.bind_same
  intro s
  apply SameEffect.bind_same
  intro _
  apply SameEffect.bind_same
  intro _
  apply SameEffect.bind_pure
  exact skipExact_sameEffect length.toNat "blob payload"

/-! ## Nodes with children -/

variable [ValueLayout]

/-- Skipping each child has the effect of decoding it. -/
def Childwise (children : List Schema) : Prop :=
  ∀ child ∈ children, SameEffect (skipValue child) (decodeValue child)

/-- The same tag selects the same child, or none. -/
theorem variantChild_sameEffect {children : List Schema} (h : Childwise children)
    (wireType : WireType) (tag : BitVec 16) {k : Decode Unit → Decode Unit} {α : Type}
    {l : Decode Value → Decode α}
    (hk : ∀ child ∈ children, SameEffect (skipValue child) (decodeValue child) →
      SameEffect (k (skipValue child)) (l (decodeValue child))) :
    SameEffect (lift (variantChild wireType (children.map skipValue) tag) >>= k)
      (lift (variantChild wireType (children.map decodeValue) tag) >>= l) := by
  intro s
  rw [variantChild_map, variantChild_map]
  cases hchild : variantChild wireType children tag with
  | error e => rfl
  | ok child =>
    have hmem := variantChild_mem hchild
    exact hk child hmem (h child hmem) s

theorem skipItems_sameEffect {children : List Schema} (h : Childwise children)
    (wireType : WireType) (fuel : Nat) :
    SameEffect (skipItems wireType (children.map skipValue) fuel)
      (decodeItems wireType (children.map decodeValue) fuel) := by
  induction fuel with
  | zero => exact SameEffect.throw _
  | succ fuel ih =>
    unfold skipItems decodeItems
    apply SameEffect.bind_same
    intro tag
    apply SameEffect.bind_same
    intro atEnd
    by_cases hend : atEnd
    · rw [if_pos hend, if_pos hend]
      exact SameEffect.pure _ _
    · rw [if_neg hend, if_neg hend]
      apply variantChild_sameEffect h
      intro child _ hchild
      apply SameEffect.bind hchild
      intro _ value
      apply SameEffect.bind_pure
      exact ih

theorem skipFields_sameEffect {children : List Schema} (h : Childwise children) :
    SameEffect (skipFields (children.map skipValue)) (decodeFields (children.map decodeValue)) := by
  induction children with
  | nil => exact SameEffect.pure _ _
  | cons child children ih =>
    apply SameEffect.bind (h child List.mem_cons_self)
    intro _ value
    apply SameEffect.bind_pure
    apply ih
    intro other hother
    exact h other (List.mem_cons_of_mem _ hother)

theorem skipVariant_sameEffect {children : List Schema} (h : Childwise children)
    (wireType : WireType) :
    SameEffect
      (do
        let tag ← readVariantTag wireType
        let child ← lift (variantChild wireType (children.map skipValue) tag)
        child)
      (do
        let tag ← readVariantTag wireType
        let child ← lift (variantChild wireType (children.map decodeValue) tag)
        let value ← child
        return Value.variant tag value) := by
  apply SameEffect.bind_same
  intro tag
  apply variantChild_sameEffect h
  intro child _ hchild
  exact SameEffect.bind_pure hchild

theorem skipRepeated_sameEffect {children : List Schema} (h : Childwise children)
    (wireType : WireType) :
    SameEffect
      (do
        let s ← get
        skipItems wireType (children.map skipValue) (s.input.length + 1))
      (do
        let s ← get
        return Value.repeatedVariants
          (← decodeItems wireType (children.map decodeValue) (s.input.length + 1))) := by
  apply SameEffect.bind_same
  intro s
  apply SameEffect.bind_pure
  exact skipItems_sameEffect h wireType (s.input.length + 1)

theorem skipNode_sameEffect {children : List Schema} (h : Childwise children)
    (wireType : WireType) :
    SameEffect (skipNode wireType (children.map skipValue))
      (decodeNode wireType (children.map decodeValue)) := by
  cases wireType with
  | nothing => exact SameEffect.pure _ _
  | boolean => exact skipExact_word 1 "boolean" fun v => .boolean (v != 0)
  | int8 => exact skipExact_word 1 "int8" .int8
  | int16 => exact skipExact_word 2 "int16" .int16
  | int32 => exact skipExact_word 4 "int32" .int32
  | int64 => exact skipExact_word 8 "int64" .int64
  | int128 => exact skipExact_word 16 "int128" .int128
  | int256 => exact skipExact_array 32 "int256" .int256
  | uint8 => exact skipExact_word 1 "uint8" .uint8
  | uint16 => exact skipExact_word 2 "uint16" .uint16
  | uint32 => exact skipExact_word 4 "uint32" .uint32
  | uint64 => exact skipExact_word 8 "uint64" .uint64
  | double => exact skipExact_word 8 "double" .double
  | string32 => exact skipBlob_sameEffect .string32 .bytes
  | yson32 => exact skipBlob_sameEffect .yson32 .yson
  | variant8 => exact skipVariant_sameEffect h .variant8
  | variant16 => exact skipVariant_sameEffect h .variant16
  | repeatedVariant8 => exact skipRepeated_sameEffect h .repeatedVariant8
  | repeatedVariant16 => exact skipRepeated_sameEffect h .repeatedVariant16
  | tuple =>
    apply SameEffect.bind_pure
    exact skipFields_sameEffect h

/-- **Skipping a value has the effect of decoding it.** -/
theorem skipValue_sameEffect (schema : Schema) :
    SameEffect (skipValue schema) (decodeValue schema) := by
  induction schema using Schema.induction with
  | node wireType name children ih =>
    rw [skipValue_node, decodeValue_node]
    apply SameEffect.bind_same
    intro _
    exact skipNode_sameEffect ih wireType

end Decode

end Skiff
end Ytsaurus
