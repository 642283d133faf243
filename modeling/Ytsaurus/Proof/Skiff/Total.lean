import Ytsaurus.Lib.StateExcept
import Ytsaurus.Proof.Skiff.Schema

/-!
# `Proof/Skiff/Total.lean` — decoding ends, and never panics

Every turn of a repeated variant takes a tag off the input, so the loop ends before its fuel
does; and the arms the source marks unreachable are not reached. What is left is a decoder
that answers on every input, with a row or with an error of the wire.

The source's `unreachable!` are in the reader of tags, which is called for the four wire types that
carry one; in the model they are an error of their own, which `Genuine` excludes together with
the model's own `outOfFuel`. `TotalAt` says of one reader and one state that the input does not
grow and that an error is genuine, and it is kept by everything that readers are made of; for the
loop the first half has to be strict, since the fuel is counted in bytes
(`readVariantTag_lt`, `decodeItems_total`).
-/

set_option autoImplicit false

namespace Ytsaurus
namespace Skiff

open StateExcept

/-- An error the source reports: no panic, and no loop cut short. -/
def CodecError.Genuine (e : CodecError) : Prop := e ≠ .unreachable ∧ e ≠ .outOfFuel

/-- What is left of a budget after a charge. -/
def RowBudget.spend (budget : RowBudget) (bytes : Nat) : RowBudget :=
  { budget with remaining := budget.remaining - bytes }

theorem RowBudget.spend_spend (budget : RowBudget) (first second : Nat) :
    (budget.spend first).spend second = budget.spend (first + second) := by
  unfold spend
  rw [Nat.sub_sub]

namespace Decode

variable {α β : Type}

/-- At this state the input does not grow, and an error is genuine. -/
structure TotalAt (x : Decode α) (s : Cursor) : Prop where
  shrinks : ∀ {a : α} {s' : Cursor}, x s = .ok (a, s') → s'.input.length ≤ s.input.length
  genuine : ∀ {e : CodecError}, x s = .error e → e.Genuine

def Total (x : Decode α) : Prop := ∀ s, TotalAt x s

theorem TotalAt.pure (a : α) (s : Cursor) : TotalAt (Pure.pure a : Decode α) s where
  shrinks h := by cases h; exact Nat.le_refl _
  genuine h := by cases h

theorem TotalAt.bind {x : Decode α} {f : α → Decode β} {s : Cursor} (hx : TotalAt x s)
    (hf : ∀ a s', x s = .ok (a, s') → TotalAt (f a) s') : TotalAt (x >>= f) s where
  shrinks h := by
    obtain ⟨a, s', hxs, hfs⟩ := bind_eq_ok.mp h
    exact Nat.le_trans ((hf a s' hxs).shrinks hfs) (hx.shrinks hxs)
  genuine h := by
    rcases bind_eq_error.mp h with hxs | ⟨a, s', hxs, hfs⟩
    · exact hx.genuine hxs
    · exact (hf a s' hxs).genuine hfs

theorem Total.bind {x : Decode α} {f : α → Decode β} (hx : Total x) (hf : ∀ a, Total (f a)) :
    Total (x >>= f) := fun s => (hx s).bind fun a s' _ => hf a s'

theorem Total.pure (a : α) : Total (Pure.pure a : Decode α) := TotalAt.pure a

theorem Total.get : Total (get : Decode Cursor) := by
  intro s
  constructor
  · intro _ _ h
    cases h
    exact Nat.le_refl _
  · intro _ h
    cases h

theorem Total.lift {x : Except CodecError α} (h : ∀ e, x = .error e → e.Genuine) :
    Total (Decode.lift x) := by
  intro s
  cases x with
  | error e =>
    constructor
    · intro _ _ hx
      cases hx
    · intro _ hx
      cases hx
      exact h e rfl
  | ok a =>
    constructor
    · intro _ _ hx
      cases hx
      exact Nat.le_refl _
    · intro _ hx
      cases hx

/-! ## The readers -/

theorem charge_ok {bytes : Nat} {input : List UInt8} {budget : RowBudget}
    (h : bytes ≤ budget.remaining) :
    charge bytes ⟨input, budget⟩ = .ok ((), ⟨input, budget.spend bytes⟩) := by
  unfold charge RowBudget.charge
  rw [if_pos h]
  rfl

theorem charge_error {bytes : Nat} {s : Cursor} (h : ¬ bytes ≤ s.budget.remaining) :
    charge bytes s = .error (.rowTooLarge s.budget.limit) := by
  unfold charge RowBudget.charge
  rw [if_neg h]
  rfl

theorem charge_total (bytes : Nat) : Total (charge bytes) := by
  intro s
  by_cases hfits : bytes ≤ s.budget.remaining
  · constructor
    · intro _ _ h
      rw [charge_ok hfits] at h
      cases h
      exact Nat.le_refl _
    · intro _ h
      rw [charge_ok hfits] at h
      cases h
  · constructor
    · intro _ _ h
      rw [charge_error hfits] at h
      cases h
    · intro _ h
      rw [charge_error hfits] at h
      cases h
      exact ⟨by simp, by simp⟩

/-- What a successful read left. -/
theorem readArray_eq_ok {count : Nat} {context : String} {s s' : Cursor} {v : Bytes count}
    (h : readArray count context s = .ok (v, s')) :
    s.input = v.val ++ s'.input ∧ s'.budget = s.budget := by
  unfold readArray takeExact at h
  split at h
  · cases h
    exact ⟨(List.take_append_drop count s.input).symm, rfl⟩
  · cases h

theorem readArray_eq_error {count : Nat} {context : String} {s : Cursor} {e : CodecError}
    (h : readArray count context s = .error e) : e = .truncated context := by
  unfold readArray takeExact at h
  split at h
  · cases h
  · cases h
    rfl

theorem readArray_total (count : Nat) (context : String) : Total (readArray count context) := by
  intro s
  constructor
  · intro v s' h
    rw [(readArray_eq_ok h).1, List.length_append]
    exact Nat.le_add_left _ _
  · intro e h
    rw [readArray_eq_error h]
    exact ⟨by simp, by simp⟩

theorem readWord_total (width : Nat) (context : String) : Total (readWord width context) :=
  (readArray_total width context).bind fun _ => .pure _

theorem readWord_lt {width : Nat} {context : String} {s s' : Cursor} {v : BitVec (8 * width)}
    (h : readWord width context s = .ok (v, s')) :
    s'.input.length + width = s.input.length := by
  obtain ⟨bytes, s₁, hread, hpure⟩ := bind_eq_ok.mp h
  cases hpure
  rw [(readArray_eq_ok hread).1, List.length_append, bytes.property, Nat.add_comm]

theorem checkBlobLength_genuine {wireType : WireType} {length maxBlobBytes : Nat} {e : CodecError}
    (h : checkBlobLength wireType length maxBlobBytes = .error e) : e.Genuine := by
  unfold checkBlobLength at h
  split at h
  · cases h
    exact ⟨by simp, by simp⟩
  · cases h

theorem readBlob_total (wireType : WireType) : Total (readBlob wireType) := by
  apply Total.bind (readWord_total 4 "blob length")
  intro length
  apply Total.bind Total.get
  intro s
  apply Total.bind (Total.lift fun _ => checkBlobLength_genuine)
  intro _
  apply Total.bind (charge_total length.toNat)
  intro _
  exact (readArray_total length.toNat "blob payload").bind fun _ => .pure _

/-! ## Tags -/

/-- The wire types that carry a tag. -/
def Tagged (wireType : WireType) : Prop :=
  wireType = .variant8 ∨ wireType = .variant16 ∨ wireType = .repeatedVariant8 ∨
    wireType = .repeatedVariant16

theorem readVariantTag_total {wireType : WireType} (h : Tagged wireType) :
    Total (readVariantTag wireType) := by
  rcases h with rfl | rfl | rfl | rfl
  · exact (readWord_total 1 _).bind fun _ => .pure _
  · exact readWord_total 2 _
  · exact (readWord_total 1 _).bind fun _ => .pure _
  · exact readWord_total 2 _

/-- A tag takes at least a byte. -/
theorem readVariantTag_lt {wireType : WireType} {s s' : Cursor} {tag : BitVec 16}
    (h : readVariantTag wireType s = .ok (tag, s')) : s'.input.length < s.input.length := by
  have hnarrow : ∀ {v : BitVec 16},
      (do return (← readWord 1 "variant8 tag").setWidth 16 : Decode (BitVec 16)) s = .ok (v, s') →
      s'.input.length < s.input.length := by
    intro v hv
    obtain ⟨word, s₁, hread, hpure⟩ := bind_eq_ok.mp hv
    cases hpure
    have := readWord_lt hread
    omega
  cases wireType
  case variant8 => exact hnarrow h
  case repeatedVariant8 => exact hnarrow h
  case variant16 => have := readWord_lt h; omega
  case repeatedVariant16 => have := readWord_lt h; omega
  all_goals cases h

theorem isRepeatedVariantEnd_genuine {wireType : WireType} {tag : BitVec 16} {e : CodecError}
    (hwire : wireType = .repeatedVariant8 ∨ wireType = .repeatedVariant16)
    (h : isRepeatedVariantEnd wireType tag = .error e) : e.Genuine := by
  rcases hwire with rfl | rfl <;> cases h

theorem variantChild_genuine {wireType : WireType} {children : List α} {tag : BitVec 16}
    {e : CodecError} (h : variantChild wireType children tag = .error e) : e.Genuine := by
  unfold variantChild at h
  split at h
  · cases h
  · cases h
    exact ⟨by simp, by simp⟩

/-! ## Nodes -/

variable {children : List (Decode Value)}

theorem decodeVariant_total (h : ∀ child ∈ children, Total child) {wireType : WireType}
    (hwire : Tagged wireType) :
    Total (do
      let tag ← readVariantTag wireType
      let child ← lift (variantChild wireType children tag)
      let value ← child
      return Value.variant tag value) := by
  apply Total.bind (readVariantTag_total hwire)
  intro tag s
  apply TotalAt.bind (Total.lift (fun _ => variantChild_genuine) s)
  intro child s' hchild
  obtain ⟨_, hfound, hstate⟩ := ExceptList.map_eq_ok.mp hchild
  cases hstate
  exact ((h child (variantChild_mem hfound)).bind fun _ => .pure _) s

/-- **The loop ends before its fuel does**: every turn takes a tag. -/
theorem decodeItems_total (h : ∀ child ∈ children, Total child) {wireType : WireType}
    (hwire : wireType = .repeatedVariant8 ∨ wireType = .repeatedVariant16) {fuel : Nat}
    {s : Cursor} (hfuel : s.input.length < fuel) :
    TotalAt (decodeItems wireType children fuel) s := by
  have htagged : Tagged wireType := Or.inr (Or.inr hwire)
  induction fuel generalizing s with
  | zero => exact absurd hfuel (Nat.not_lt_zero _)
  | succ fuel ih =>
    unfold decodeItems
    apply TotalAt.bind (readVariantTag_total htagged s)
    intro tag s₁ htag
    have hlt := readVariantTag_lt htag
    apply TotalAt.bind (Total.lift (fun _ => isRepeatedVariantEnd_genuine hwire) s₁)
    intro atEnd s₂ hatEnd
    obtain ⟨_, _, hstate⟩ := ExceptList.map_eq_ok.mp hatEnd
    cases hstate
    by_cases hend : atEnd
    · rw [if_pos hend]
      exact TotalAt.pure _ _
    · rw [if_neg hend]
      apply TotalAt.bind (Total.lift (fun _ => variantChild_genuine) s₁)
      intro child s₃ hchild
      obtain ⟨_, hfound, hstate⟩ := ExceptList.map_eq_ok.mp hchild
      cases hstate
      have htotal := h child (variantChild_mem hfound) s₁
      apply TotalAt.bind htotal
      intro value s₄ hvalue
      have hle := htotal.shrinks hvalue
      have hrest : s₄.input.length < fuel := by omega
      exact (ih hrest).bind fun _ s₅ _ => TotalAt.pure _ s₅

theorem decodeRepeated_total (h : ∀ child ∈ children, Total child) {wireType : WireType}
    (hwire : wireType = .repeatedVariant8 ∨ wireType = .repeatedVariant16) :
    Total (do
      let s ← get
      return Value.repeatedVariants
        (← decodeItems wireType children (s.input.length + 1))) := by
  intro s
  apply TotalAt.bind (Total.get s)
  intro s₀ s₁ hget
  cases hget
  exact (decodeItems_total h hwire (Nat.lt_succ_self _)).bind fun _ s₂ _ => TotalAt.pure _ s₂

theorem decodeFields_total (h : ∀ child ∈ children, Total child) :
    Total (decodeFields children) := by
  induction children with
  | nil => exact Total.pure _
  | cons child children ih =>
    apply Total.bind (h child List.mem_cons_self)
    intro value
    apply Total.bind
    · apply ih
      intro other hother
      exact h other (List.mem_cons_of_mem _ hother)
    · intro values
      exact Total.pure _

theorem decodeNode_total (h : ∀ child ∈ children, Total child) (wireType : WireType) :
    Total (decodeNode wireType children) := by
  cases wireType
  case nothing => exact Total.pure _
  case int256 => exact (readArray_total 32 _).bind fun _ => .pure _
  case string32 => exact (readBlob_total _).bind fun _ => .pure _
  case yson32 => exact (readBlob_total _).bind fun _ => .pure _
  case variant8 => exact decodeVariant_total h (Or.inl rfl)
  case variant16 => exact decodeVariant_total h (Or.inr (Or.inl rfl))
  case repeatedVariant8 => exact decodeRepeated_total h (Or.inl rfl)
  case repeatedVariant16 => exact decodeRepeated_total h (Or.inr rfl)
  case tuple => exact (decodeFields_total h).bind fun _ => .pure _
  -- The numbers and the boolean.
  all_goals exact (readWord_total _ _).bind fun _ => .pure _

/-- **Decoding a value answers**, on every input and under every budget. -/
theorem decodeValue_total [ValueLayout] (schema : Schema) : Total (decodeValue schema) := by
  induction schema using Schema.induction with
  | node wireType name children ih =>
    rw [decodeValue_node]
    apply Total.bind (charge_total _)
    intro _
    apply decodeNode_total
    intro child hchild
    obtain ⟨inner, hinner, rfl⟩ := List.mem_map.mp hchild
    exact ih inner hinner

end Decode

end Skiff
end Ytsaurus
