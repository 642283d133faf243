import Ytsaurus.Proof.Skiff.Schema

/-!
# `Proof/Skiff/Encode.lean` — the encoder writes spellings

Under a schema that passed its check, the encoder accepts a value exactly when the value has
a spelling and no blob beyond the limit, and then it writes that spelling
(`encodeValue_iff`). The check is what bounds the tags: a tag that selects a child is less
than the number of children, and so fits its width and is not the end tag.

`Spells schema v bytes` is the format itself, one rule for each wire type, and neither the encoder
nor the decoder is mentioned in it. Both are compared with it, and the round trips in
`Proof/Skiff/RoundTrip.lean` are what the two comparisons have in common.

The encoder writes as it goes. When it refuses a value in the middle, what it has written stays
written, so its result is not an `Except` but what was written together with an outcome
(`Lib/Written.lean`). Nothing is claimed here of a refused value's bytes; see
`Proof/Skiff/Refused.lean`.
-/

set_option autoImplicit false

namespace Ytsaurus
namespace Skiff

open LittleEndian

/-! ## Induction over a value -/

/-- A value without children. -/
def Value.IsLeaf : Value → Prop
  | .variant _ _ | .repeatedVariants _ | .tuple _ => False
  | _ => True

theorem Value.induction {P : Value → Prop} (leaf : ∀ v : Value, v.IsLeaf → P v)
    (variant : ∀ (tag : BitVec 16) (v : Value), P v → P (.variant tag v))
    (repeated : ∀ items : List Variant, (∀ item ∈ items, P item.value) →
      P (.repeatedVariants items))
    (tuple : ∀ values : List Value, (∀ v ∈ values, P v) → P (.tuple values)) :
    ∀ v, P v := by
  intro v
  refine @Value.rec P (fun item => P item.value) (fun items => ∀ item ∈ items, P item.value)
    (fun values => ∀ v ∈ values, P v)
    ?_ ?_ ?_ ?_ ?_ ?_ ?_ ?_ ?_ ?_ ?_ ?_ ?_ ?_ ?_ ?_ ?_ ?_ ?_ ?_ ?_ ?_ ?_ v
  case refine_16 => exact variant
  case refine_17 => exact repeated
  case refine_18 => exact tuple
  case refine_19 => exact fun _ _ h => h
  case refine_20 => exact fun _ h => absurd h List.not_mem_nil
  case refine_21 => exact fun _ _ hhead htail => List.forall_mem_cons.mpr ⟨hhead, htail⟩
  case refine_22 => exact fun _ h => absurd h List.not_mem_nil
  case refine_23 => exact fun _ _ hhead htail => List.forall_mem_cons.mpr ⟨hhead, htail⟩
  case refine_1 => exact leaf _ trivial
  all_goals exact fun _ => leaf _ trivial

/-! ## Blobs and tags -/

section Parts

variable {wireType : WireType}

theorem writeBlob_eq_wrote {v bytes : List UInt8} {maxBlobBytes : Nat} :
    writeBlob wireType v maxBlobBytes = .wrote bytes () ↔
      v.length ≤ maxBlobBytes ∧ v.length < 0x100000000 ∧ bytes = leBytes 4 v.length ++ v := by
  unfold writeBlob checkBlobLength
  by_cases hlimit : v.length > maxBlobBytes
  · rw [if_pos hlimit]
    constructor
    · intro h
      cases h
    · intro h
      exact absurd hlimit (Nat.not_lt.mpr h.1)
  · rw [if_neg hlimit]
    by_cases hwidth : v.length < 0x100000000
    · rw [if_pos hwidth]
      constructor
      · intro h
        cases h
        exact ⟨Nat.not_lt.mp hlimit, hwidth, rfl⟩
      · intro h
        obtain ⟨_, _, rfl⟩ := h
        rfl
    · rw [if_neg hwidth]
      constructor
      · intro h
        cases h
      · intro h
        exact absurd h.2.1 hwidth

theorem writeVariantTag_eq {tag : BitVec 16}
    (hwire : wireType = .variant8 ∨ wireType = .variant16 ∨ wireType = .repeatedVariant8 ∨
      wireType = .repeatedVariant16) (htag : tag.toNat < tagLimit wireType) :
    writeVariantTag wireType tag = .wrote (tagBytes wireType tag) () := by
  rcases hwire with rfl | rfl | rfl | rfl
  · exact if_pos (Nat.le_of_lt_succ htag)
  · rfl
  · exact if_pos (Nat.le_of_lt htag)
  · rfl

theorem writeRepeatedVariantEnd_eq
    (hwire : wireType = .repeatedVariant8 ∨ wireType = .repeatedVariant16) :
    writeRepeatedVariantEnd wireType = .wrote (endBytes wireType) () := by
  rcases hwire with rfl | rfl <;> rfl

end Parts

/-! ## What the encoder writes is a spelling -/

section Spelling

variable {m : Nat}

theorem leaf_of_encode {v : Value} (hv : v.IsLeaf) {wireType : WireType} {name : Option String}
    {children : List Schema} {bytes : List UInt8}
    (h : encodeValue m v ⟨wireType, name, children⟩ = .wrote bytes ()) :
    Leaf wireType v bytes ∧ v.BlobsWithin m := by
  cases v
  case bytes v =>
    cases wireType
    case string32 =>
      obtain ⟨hlimit, hwidth, rfl⟩ := writeBlob_eq_wrote.mp h
      exact ⟨.string32 hwidth, hlimit⟩
    all_goals cases h
  case yson v =>
    cases wireType
    case yson32 =>
      obtain ⟨hlimit, hwidth, rfl⟩ := writeBlob_eq_wrote.mp h
      exact ⟨.yson32 hwidth, hlimit⟩
    all_goals cases h
  case variant => cases hv
  case repeatedVariants => cases hv
  case tuple => cases hv
  -- A scalar is written by the node of its own type and refused by every other.
  all_goals
    cases wireType
    all_goals cases h
    all_goals exact ⟨by constructor, trivial⟩

/-- The encoder writes a spelling of `v` wherever it accepts it. -/
def WritesSpelling (m : Nat) (v : Value) : Prop :=
  ∀ {schema : Schema} {bytes : List UInt8}, schema.validate = .ok () →
    encodeValue m v schema = .wrote bytes () → Spells schema v bytes ∧ v.BlobsWithin m

/-- The tag in front of a child, and the child. -/
theorem tag_of_encode {wireType : WireType} {name : Option String} {children : List Schema}
    {tag : BitVec 16} {α : Type} {k : Schema → Unit → Written CodecError α} {bytes : List UInt8}
    {a : α} (hvalid : Schema.validate ⟨wireType, name, children⟩ = .ok ())
    (hwire : wireType = .variant8 ∨ wireType = .variant16 ∨ wireType = .repeatedVariant8 ∨
      wireType = .repeatedVariant16)
    (h : (do
      let child ← Written.lift (variantChild wireType children tag)
      let u ← writeVariantTag wireType tag
      k child u) = .wrote bytes a) :
    ∃ child rest, variantChild wireType children tag = .ok child ∧
      tag.toNat < tagLimit wireType ∧ child.validate = .ok () ∧
      k child () = .wrote rest a ∧ bytes = tagBytes wireType tag ++ rest := by
  obtain ⟨hcount, hchildren⟩ := Schema.validate_node.mp hvalid
  cases hchild : variantChild wireType children tag with
  | error e =>
    rw [hchild] at h
    cases h
  | ok child =>
    have htag : tag.toNat < tagLimit wireType :=
      Nat.lt_of_lt_of_le (variantChild_lt hchild) (Schema.children_le_tagLimit hwire hcount)
    rw [hchild, Written.lift_ok] at h
    obtain ⟨_, nothing, rest, hlift, hrest, rfl⟩ := Written.bind_eq_wrote h
    obtain ⟨rfl, rfl⟩ := Written.wrote_inj.mp hlift
    rw [writeVariantTag_eq hwire htag] at hrest
    obtain ⟨_, first, second, hfirst, hsecond, rfl⟩ := Written.bind_eq_wrote hrest
    obtain ⟨rfl, _⟩ := Written.wrote_inj.mp hfirst
    exact ⟨child, second, rfl, htag, hchildren child (variantChild_mem hchild), hsecond, rfl⟩

theorem items_of_encode {wireType : WireType} {name : Option String} {children : List Schema}
    (hvalid : Schema.validate ⟨wireType, name, children⟩ = .ok ())
    (hwire : wireType = .repeatedVariant8 ∨ wireType = .repeatedVariant16)
    {items : List Variant} (hitems : ∀ item ∈ items, WritesSpelling m item.value)
    {bytes : List UInt8} (h : encodeItems m wireType children items = .wrote bytes ()) :
    SpellsItems wireType children items bytes ∧ Value.ItemsWithin m items := by
  induction items generalizing bytes with
  | nil =>
    cases h
    exact ⟨.nil, trivial⟩
  | cons item items ih =>
    obtain ⟨tag, v⟩ := item
    obtain ⟨hitem, hrest⟩ := List.forall_mem_cons.mp hitems
    rw [encodeItems] at h
    obtain ⟨child, written, hchild, htag, hchildValid, hwritten, rfl⟩ :=
      tag_of_encode hvalid (Or.inr (Or.inr hwire)) h
    obtain ⟨_, first, second, hfirst, hsecond, rfl⟩ := Written.bind_eq_wrote hwritten
    obtain ⟨hspells, hwithin⟩ := hitem hchildValid hfirst
    obtain ⟨hspellsRest, hwithinRest⟩ := ih hrest hsecond
    exact ⟨.cons htag hchild hspells hspellsRest, hwithin, hwithinRest⟩

theorem fields_of_encode {children : List Schema} {values : List Value}
    (hvalid : ∀ child ∈ children, child.validate = .ok ())
    (hlength : values.length = children.length)
    (hvalues : ∀ v ∈ values, WritesSpelling m v) {bytes : List UInt8}
    (h : encodeFields m values children = .wrote bytes ()) :
    SpellsFields children values bytes ∧ Value.AllWithin m values := by
  induction values generalizing children bytes with
  | nil =>
    cases children with
    | nil =>
      cases h
      exact ⟨.nil, trivial⟩
    | cons child children => cases hlength
  | cons v values ih =>
    cases children with
    | nil => cases hlength
    | cons child children =>
      obtain ⟨hchild, hchildren⟩ := List.forall_mem_cons.mp hvalid
      obtain ⟨hv, hrest⟩ := List.forall_mem_cons.mp hvalues
      rw [encodeFields] at h
      obtain ⟨_, first, second, hfirst, hsecond, rfl⟩ := Written.bind_eq_wrote h
      obtain ⟨hspells, hwithin⟩ := hv hchild hfirst
      obtain ⟨hspellsRest, hwithinRest⟩ := ih hchildren (Nat.succ.inj hlength) hrest hsecond
      exact ⟨.cons hspells hspellsRest, hwithin, hwithinRest⟩

theorem variant_of_encode {wireType : WireType} {name : Option String} {children : List Schema}
    (hvalid : Schema.validate ⟨wireType, name, children⟩ = .ok ())
    (hwire : wireType = .variant8 ∨ wireType = .variant16) {tag : BitVec 16} {v : Value}
    (hv : WritesSpelling m v) {bytes : List UInt8}
    (h : (do
      let child ← Written.lift (variantChild wireType children tag)
      writeVariantTag wireType tag
      encodeValue m v child) = .wrote bytes ()) :
    Spells ⟨wireType, name, children⟩ (.variant tag v) bytes ∧ v.BlobsWithin m := by
  have htagged : wireType = .variant8 ∨ wireType = .variant16 ∨ wireType = .repeatedVariant8 ∨
      wireType = .repeatedVariant16 := hwire.imp id Or.inl
  obtain ⟨child, rest, hchild, htag, hchildValid, hrest, rfl⟩ := tag_of_encode hvalid htagged h
  obtain ⟨hspells, hwithin⟩ := hv hchildValid hrest
  exact ⟨.variant hwire htag hchild hspells, hwithin⟩

theorem repeated_of_encode {wireType : WireType} {name : Option String} {children : List Schema}
    (hvalid : Schema.validate ⟨wireType, name, children⟩ = .ok ())
    (hwire : wireType = .repeatedVariant8 ∨ wireType = .repeatedVariant16) {items : List Variant}
    (hitems : ∀ item ∈ items, WritesSpelling m item.value) {bytes : List UInt8}
    (h : (do
      encodeItems m wireType children items
      writeRepeatedVariantEnd wireType) = .wrote bytes ()) :
    Spells ⟨wireType, name, children⟩ (.repeatedVariants items) bytes ∧
      Value.ItemsWithin m items := by
  obtain ⟨_, first, second, hfirst, hsecond, rfl⟩ := Written.bind_eq_wrote h
  rw [writeRepeatedVariantEnd_eq hwire] at hsecond
  obtain ⟨rfl, _⟩ := Written.wrote_inj.mp hsecond
  obtain ⟨hspells, hwithin⟩ := items_of_encode hvalid hwire hitems hfirst
  exact ⟨.repeated hwire hspells, hwithin⟩

theorem writesSpelling (v : Value) : WritesSpelling m v := by
  induction v using Value.induction with
  | leaf v hv =>
    intro schema bytes _ h
    obtain ⟨wireType, name, children⟩ := schema
    obtain ⟨hleaf, hwithin⟩ := leaf_of_encode hv h
    exact ⟨.leaf hleaf, hwithin⟩
  | variant tag v ih =>
    intro schema bytes hvalid h
    obtain ⟨wireType, name, children⟩ := schema
    cases wireType
    case variant8 => exact variant_of_encode hvalid (Or.inl rfl) ih h
    case variant16 => exact variant_of_encode hvalid (Or.inr rfl) ih h
    all_goals cases h
  | repeated items ih =>
    intro schema bytes hvalid h
    obtain ⟨wireType, name, children⟩ := schema
    cases wireType
    case repeatedVariant8 => exact repeated_of_encode hvalid (Or.inl rfl) ih h
    case repeatedVariant16 => exact repeated_of_encode hvalid (Or.inr rfl) ih h
    all_goals cases h
  | tuple values ih =>
    intro schema bytes hvalid h
    obtain ⟨wireType, name, children⟩ := schema
    cases wireType
    case tuple =>
      rw [encodeValue] at h
      by_cases hlength : values.length = children.length
      · rw [if_neg (not_not_intro hlength)] at h
        obtain ⟨_, hchildren⟩ := Schema.validate_node.mp hvalid
        obtain ⟨hspells, hwithin⟩ := fields_of_encode hchildren hlength ih h
        exact ⟨.tuple hspells, hwithin⟩
      · rw [if_pos hlength] at h
        cases h
    all_goals cases h

end Spelling

/-! ## Every spelling is written -/

theorem encode_leaf {m : Nat} {wireType : WireType} {name : Option String}
    {children : List Schema} {v : Value} {bytes : List UInt8} (h : Leaf wireType v bytes)
    (hwithin : v.BlobsWithin m) :
    encodeValue m v ⟨wireType, name, children⟩ = .wrote bytes () := by
  cases h
  case string32 hwidth => exact writeBlob_eq_wrote.mpr ⟨hwithin, hwidth, rfl⟩
  case yson32 hwidth => exact writeBlob_eq_wrote.mpr ⟨hwithin, hwidth, rfl⟩
  all_goals rfl

theorem encode_tag {wireType : WireType} {children : List Schema} {child : Schema}
    {tag : BitVec 16} {α : Type} {k : Schema → Written CodecError α} {rest : List UInt8} {a : α}
    (hwire : wireType = .variant8 ∨ wireType = .variant16 ∨ wireType = .repeatedVariant8 ∨
      wireType = .repeatedVariant16) (htag : tag.toNat < tagLimit wireType)
    (hchild : variantChild wireType children tag = .ok child) (h : k child = .wrote rest a) :
    (do
      let child ← Written.lift (variantChild wireType children tag)
      writeVariantTag wireType tag
      k child) = .wrote (tagBytes wireType tag ++ rest) a := by
  rw [hchild, Written.lift_ok]
  apply Written.bind_wrote_wrote
  rw [writeVariantTag_eq hwire htag]
  exact Written.bind_wrote_wrote h

mutual

/-- Every spelling within the limit is written. -/
theorem encode_of_spells {m : Nat} {schema : Schema} {v : Value} {bytes : List UInt8}
    (h : Spells schema v bytes) (hwithin : v.BlobsWithin m) :
    encodeValue m v schema = .wrote bytes () := by
  cases h with
  | leaf h => exact encode_leaf h hwithin
  | variant hwire htag hchild h =>
    have hvalue := encode_of_spells h hwithin
    rcases hwire with rfl | rfl
    · rw [encodeValue]
      exact encode_tag (Or.inl rfl) htag hchild hvalue
    · rw [encodeValue]
      exact encode_tag (Or.inr (Or.inl rfl)) htag hchild hvalue
  | repeated hwire h =>
    have hitems := encode_items_of_spells (Or.inr (Or.inr hwire)) h hwithin
    rcases hwire with rfl | rfl
    · rw [encodeValue, hitems]
      rfl
    · rw [encodeValue, hitems]
      rfl
  | tuple h =>
    obtain ⟨hlength, hfields⟩ := encode_fields_of_spells h hwithin
    rw [encodeValue, if_neg (not_not_intro hlength)]
    exact hfields

theorem encode_items_of_spells {m : Nat} {wireType : WireType} {children : List Schema}
    {items : List Variant} {bytes : List UInt8}
    (hwire : wireType = .variant8 ∨ wireType = .variant16 ∨ wireType = .repeatedVariant8 ∨
      wireType = .repeatedVariant16)
    (h : SpellsItems wireType children items bytes) (hwithin : Value.ItemsWithin m items) :
    encodeItems m wireType children items = .wrote bytes () := by
  cases h with
  | nil => rfl
  | cons htag hchild h hrest =>
    have hvalue := encode_of_spells h hwithin.1
    have hitems := encode_items_of_spells hwire hrest hwithin.2
    rw [encodeItems]
    apply encode_tag hwire htag hchild
    rw [hvalue]
    exact Written.bind_wrote_wrote hitems

theorem encode_fields_of_spells {m : Nat} {children : List Schema} {values : List Value}
    {bytes : List UInt8} (h : SpellsFields children values bytes)
    (hwithin : Value.AllWithin m values) :
    values.length = children.length ∧ encodeFields m values children = .wrote bytes () := by
  cases h with
  | nil => exact ⟨rfl, rfl⟩
  | cons h hrest =>
    have hvalue := encode_of_spells h hwithin.1
    obtain ⟨hlength, hfields⟩ := encode_fields_of_spells hrest hwithin.2
    refine ⟨congrArg (· + 1) hlength, ?_⟩
    rw [encodeFields, hvalue]
    exact Written.bind_wrote_wrote hfields

end

/-- **The encoder writes the spelling of a value**, when it has one and its blobs fit. -/
theorem encodeValue_iff {m : Nat} {schema : Schema} {v : Value} {bytes : List UInt8}
    (hvalid : schema.validate = .ok ()) :
    encodeValue m v schema = .wrote bytes () ↔ Spells schema v bytes ∧ v.BlobsWithin m := by
  constructor
  · exact writesSpelling v hvalid
  · intro h
    exact encode_of_spells h.1 h.2

end Skiff
end Ytsaurus
