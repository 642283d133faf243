import Ytsaurus.Proof.Skiff.Total

/-!
# `Proof/Skiff/Decode.lean` — the decoder reads spellings back

A spelling is read back as the value it spells, whatever follows it, when the value's charge
is within what is left of the row's budget and its blobs are within the limit; the bytes
behind it are left where they are. The induction follows the derivation of the spelling, and
the budget goes down by exactly what the value is charged.

The decoder takes memory from a budget for each value that it builds, before it builds it. What
`size_of::<Value>()` is depends on the platform and is a parameter (`ValueLayout`); the charge of
a value is defined over it, and everything that is said about budgets is in terms of charges.
A charge is spent in two steps, the value's own size and then what it holds
(`Value.charge_split`), since that is the order in which the decoder spends it.

A repeated variant is the one loop of the decoder: a tag, an item, and again, up to the tag that
ends it. Its fuel is the length of the input, which is enough because every tag takes a byte.
-/

set_option autoImplicit false

namespace Ytsaurus
namespace Skiff

open LittleEndian StateExcept

/-- Every value is charged for its own size, and then for what it holds. -/
theorem Value.charge_split [ValueLayout] (v : Value) :
    ∃ k, v.charge = ValueLayout.sizeOfValue + k := by
  cases v
  case bytes v => exact ⟨v.length, rfl⟩
  case yson v => exact ⟨v.length, rfl⟩
  case variant _ v => exact ⟨v.charge, rfl⟩
  case repeatedVariants items => exact ⟨chargeItems items, rfl⟩
  case tuple values => exact ⟨chargeAll values, rfl⟩
  all_goals exact ⟨0, rfl⟩

theorem tagBytes_length_pos (wireType : WireType) (tag : BitVec 16) :
    0 < (tagBytes wireType tag).length := by
  rw [tagBytes, toLeBytes_length]
  cases wireType <;> decide

namespace Decode

variable {rest : List UInt8} {budget : RowBudget}

/-! ## Words, tags and blobs -/

theorem readArray_append {count : Nat} (context : String) (v : Bytes count) :
    readArray count context ⟨v.val ++ rest, budget⟩ = .ok (v, ⟨rest, budget⟩) := by
  have hlength : v.val.length = count := v.property
  have hle : count ≤ (v.val ++ rest).length := by
    rw [List.length_append, hlength]
    exact Nat.le_add_right _ _
  unfold readArray takeExact
  rw [dif_pos hle]
  have htake : (v.val ++ rest).take count = v.val := List.take_left' hlength
  have hdrop : (v.val ++ rest).drop count = rest := List.drop_left' hlength
  show Except.ok (_, _) = _
  congr 2
  · exact Subtype.ext htake
  · rw [hdrop]

theorem readWord_append (width : Nat) (context : String) (x : BitVec (8 * width)) :
    readWord width context ⟨toLeBytes width x ++ rest, budget⟩ = .ok (x, ⟨rest, budget⟩) := by
  unfold readWord
  rw [bind_ok (readArray_append context ⟨toLeBytes width x, toLeBytes_length width x⟩)]
  show Except.ok (fromLeBytes (8 * width) (toLeBytes width x), _) = _
  rw [fromLeBytes_toLeBytes rfl]

theorem tagBytes_narrow {tag : BitVec 16} (h : tag.toNat < 256) :
    toLeBytes 1 tag = toLeBytes 1 (tag.setWidth 8) := by
  unfold toLeBytes
  rw [BitVec.toNat_setWidth, Nat.mod_eq_of_lt h]

theorem setWidth_narrow {tag : BitVec 16} (h : tag.toNat < 256) :
    (tag.setWidth 8).setWidth 16 = tag := by
  apply BitVec.eq_of_toNat_eq
  rw [BitVec.toNat_setWidth, BitVec.toNat_setWidth, Nat.mod_eq_of_lt h]
  exact Nat.mod_eq_of_lt tag.isLt

theorem readNarrowTag_append (tag : BitVec 16) (h : tag.toNat < 256) :
    (do return (← readWord 1 "variant8 tag").setWidth 16 : Decode (BitVec 16))
      ⟨toLeBytes 1 tag ++ rest, budget⟩ = .ok (tag, ⟨rest, budget⟩) := by
  rw [tagBytes_narrow h, bind_ok (readWord_append 1 _ (tag.setWidth 8))]
  show Except.ok ((tag.setWidth 8).setWidth 16, _) = _
  rw [setWidth_narrow h]

theorem readVariantTag_append {wireType : WireType} {tag : BitVec 16} (hwire : Tagged wireType)
    (htag : tag.toNat < tagLimit wireType) :
    readVariantTag wireType ⟨tagBytes wireType tag ++ rest, budget⟩ =
      .ok (tag, ⟨rest, budget⟩) := by
  rcases hwire with rfl | rfl | rfl | rfl
  · exact readNarrowTag_append tag htag
  · exact readWord_append 2 "variant16 tag" tag
  · exact readNarrowTag_append tag (Nat.lt_succ_of_lt htag)
  · exact readWord_append 2 "variant16 tag" tag

/-- The tag that `endBytes` spell. -/
def endTag : WireType → BitVec 16
  | .repeatedVariant8 => 0xff
  | _ => 0xffff

theorem readVariantTag_end {wireType : WireType}
    (hwire : wireType = .repeatedVariant8 ∨ wireType = .repeatedVariant16) :
    readVariantTag wireType ⟨endBytes wireType ++ rest, budget⟩ =
      .ok (endTag wireType, ⟨rest, budget⟩) := by
  rcases hwire with rfl | rfl
  · exact readNarrowTag_append 0xff (by decide)
  · exact readWord_append 2 "variant16 tag" 0xffff

theorem isRepeatedVariantEnd_end {wireType : WireType}
    (hwire : wireType = .repeatedVariant8 ∨ wireType = .repeatedVariant16) :
    isRepeatedVariantEnd wireType (endTag wireType) = .ok true := by
  rcases hwire with rfl | rfl <;> rfl

/-- The tag of a child is not the end tag. -/
theorem isRepeatedVariantEnd_child {wireType : WireType} {tag : BitVec 16}
    (hwire : wireType = .repeatedVariant8 ∨ wireType = .repeatedVariant16)
    (htag : tag.toNat < tagLimit wireType) : isRepeatedVariantEnd wireType tag = .ok false := by
  rcases hwire with rfl | rfl
  · have hne : tag ≠ 0xff := by
      intro h
      subst h
      exact absurd htag (by decide)
    exact congrArg Except.ok (beq_false_of_ne hne)
  · have hne : tag ≠ 0xffff := by
      intro h
      subst h
      exact absurd htag (by decide)
    exact congrArg Except.ok (beq_false_of_ne hne)

theorem readBlob_append {wireType : WireType} {v : List UInt8} (hwidth : v.length < 0x100000000)
    (hlimit : v.length ≤ budget.maxBlobBytes) (hcharge : v.length ≤ budget.remaining) :
    readBlob wireType ⟨leBytes 4 v.length ++ v ++ rest, budget⟩ =
      .ok (v, ⟨rest, budget.spend v.length⟩) := by
  have hword : (BitVec.ofNat 32 v.length).toNat = v.length := by
    rw [BitVec.toNat_ofNat]
    exact Nat.mod_eq_of_lt hwidth
  have hbytes : leBytes 4 v.length = toLeBytes 4 (BitVec.ofNat (8 * 4) v.length) := by
    unfold toLeBytes
    exact congrArg (leBytes 4) hword.symm
  have hcheck : checkBlobLength wireType v.length budget.maxBlobBytes = .ok () :=
    if_neg (Nat.not_lt.mpr hlimit)
  unfold readBlob
  rw [List.append_assoc, hbytes, bind_ok (readWord_append 4 _ _), get_bind]
  have hword' : (BitVec.ofNat (8 * 4) v.length).toNat = v.length := hword
  rw [hword']
  have hlift : lift (checkBlobLength wireType v.length budget.maxBlobBytes)
      ⟨v ++ rest, budget⟩ = .ok ((), ⟨v ++ rest, budget⟩) := by
    rw [hcheck]
    rfl
  rw [bind_ok hlift, bind_ok (charge_ok hcharge),
    bind_ok (readArray_append "blob payload" ⟨v, rfl⟩)]
  rfl

/-! ## Nodes with children

A tag that selects a child, and what follows it. -/

/-- The loop at an item: its tag, its value, and the loop again. -/
theorem decodeItems_item {wireType : WireType} {children : List (Decode Value)}
    {child : Decode Value} {tag : BitVec 16} {v : Value} {items : List Variant} {fuel : Nat}
    {bytes more : List UInt8} {budget₁ budget₂ : RowBudget}
    (hwire : wireType = .repeatedVariant8 ∨ wireType = .repeatedVariant16)
    (htag : tag.toNat < tagLimit wireType)
    (hchild : variantChild wireType children tag = .ok child)
    (hvalue : child ⟨bytes ++ more, budget⟩ = .ok (v, ⟨more, budget₁⟩))
    (hitems : decodeItems wireType children fuel ⟨more, budget₁⟩ =
      .ok (items, ⟨rest, budget₂⟩)) :
    decodeItems wireType children (fuel + 1) ⟨tagBytes wireType tag ++ (bytes ++ more), budget⟩ =
      .ok (⟨tag, v⟩ :: items, ⟨rest, budget₂⟩) := by
  have hend : lift (isRepeatedVariantEnd wireType tag) ⟨bytes ++ more, budget⟩ =
      .ok (false, ⟨bytes ++ more, budget⟩) := by
    rw [isRepeatedVariantEnd_child hwire htag]
    rfl
  have hlift : lift (variantChild wireType children tag) ⟨bytes ++ more, budget⟩ =
      .ok (child, ⟨bytes ++ more, budget⟩) := by
    rw [hchild]
    rfl
  unfold decodeItems
  rw [bind_ok (readVariantTag_append (Or.inr (Or.inr hwire)) htag), bind_ok hend,
    if_neg Bool.false_ne_true, bind_ok hlift, bind_ok hvalue, bind_ok hitems]
  rfl

/-- The loop at the end tag. -/
theorem decodeItems_end {wireType : WireType} {children : List (Decode Value)} {fuel : Nat}
    (hwire : wireType = .repeatedVariant8 ∨ wireType = .repeatedVariant16) :
    decodeItems wireType children (fuel + 1) ⟨endBytes wireType ++ rest, budget⟩ =
      .ok ([], ⟨rest, budget⟩) := by
  have hend : lift (isRepeatedVariantEnd wireType (endTag wireType)) ⟨rest, budget⟩ =
      .ok (true, ⟨rest, budget⟩) := by
    rw [isRepeatedVariantEnd_end hwire]
    rfl
  unfold decodeItems
  rw [bind_ok (readVariantTag_end hwire), bind_ok hend, if_pos rfl]
  rfl

theorem decodeVariant_append {wireType : WireType} {children : List (Decode Value)}
    {child : Decode Value} {tag : BitVec 16} {v : Value} {input : List UInt8}
    {budget₁ : RowBudget} (hwire : wireType = .variant8 ∨ wireType = .variant16)
    (htag : tag.toNat < tagLimit wireType)
    (hchild : variantChild wireType children tag = .ok child)
    (hvalue : child ⟨input, budget⟩ = .ok (v, ⟨rest, budget₁⟩)) :
    decodeNode wireType children ⟨tagBytes wireType tag ++ input, budget⟩ =
      .ok (.variant tag v, ⟨rest, budget₁⟩) := by
  have hlift : lift (variantChild wireType children tag) ⟨input, budget⟩ =
      .ok (child, ⟨input, budget⟩) := by
    rw [hchild]
    rfl
  have hbody : (do
      let tag ← readVariantTag wireType
      let child ← lift (variantChild wireType children tag)
      let value ← child
      return Value.variant tag value : Decode Value)
      ⟨tagBytes wireType tag ++ input, budget⟩ = .ok (.variant tag v, ⟨rest, budget₁⟩) := by
    have htagged : Tagged wireType := hwire.imp id Or.inl
    rw [bind_ok (readVariantTag_append htagged htag), bind_ok hlift, bind_ok hvalue]
    rfl
  rcases hwire with rfl | rfl <;> exact hbody

theorem decodeRepeated_append {wireType : WireType} {children : List (Decode Value)}
    {items : List Variant} {input : List UInt8} {budget₁ : RowBudget}
    (hwire : wireType = .repeatedVariant8 ∨ wireType = .repeatedVariant16)
    (hitems : decodeItems wireType children (input.length + 1) ⟨input, budget⟩ =
      .ok (items, ⟨rest, budget₁⟩)) :
    decodeNode wireType children ⟨input, budget⟩ =
      .ok (.repeatedVariants items, ⟨rest, budget₁⟩) := by
  have hbody : (do
      let s ← get
      return Value.repeatedVariants
        (← decodeItems wireType children (s.input.length + 1)) : Decode Value) ⟨input, budget⟩ =
      .ok (.repeatedVariants items, ⟨rest, budget₁⟩) := by
    rw [get_bind, bind_ok hitems]
    rfl
  rcases hwire with rfl | rfl <;> exact hbody

/-! ## Values -/

variable [ValueLayout]

/-- The charge of a node, and then the node. -/
theorem decodeValue_of_node {wireType : WireType} {name : Option String} {children : List Schema}
    {input : List UInt8} {v : Value} {k : Nat}
    (hcharge : ValueLayout.sizeOfValue + k ≤ budget.remaining)
    (h : decodeNode wireType (children.map decodeValue)
        ⟨input, budget.spend ValueLayout.sizeOfValue⟩ =
      .ok (v, ⟨rest, (budget.spend ValueLayout.sizeOfValue).spend k⟩)) :
    decodeValue ⟨wireType, name, children⟩ ⟨input, budget⟩ =
      .ok (v, ⟨rest, budget.spend (ValueLayout.sizeOfValue + k)⟩) := by
  rw [decodeValue_node, bind_ok (charge_ok (Nat.le_of_add_right_le hcharge)), h,
    RowBudget.spend_spend]

/-- A leaf, once it is charged for its own size. -/
theorem decodeNode_leaf {wireType : WireType} {children : List (Decode Value)} {v : Value}
    {bytes : List UInt8} (h : Leaf wireType v bytes) {k : Nat}
    (hk : v.charge = ValueLayout.sizeOfValue + k) (hwithin : v.BlobsWithin budget.maxBlobBytes)
    (hcharge : k ≤ budget.remaining) :
    decodeNode wireType children ⟨bytes ++ rest, budget⟩ = .ok (v, ⟨rest, budget.spend k⟩) := by
  cases h
  case string32 hwidth =>
    obtain rfl := Nat.add_left_cancel hk
    show (readBlob .string32 >>= fun v => pure (Value.bytes v)) _ = _
    rw [bind_ok (readBlob_append hwidth hwithin hcharge)]
    rfl
  case yson32 hwidth =>
    obtain rfl := Nat.add_left_cancel hk
    show (readBlob .yson32 >>= fun v => pure (Value.yson v)) _ = _
    rw [bind_ok (readBlob_append hwidth hwithin hcharge)]
    rfl
  case boolean v =>
    obtain rfl : 0 = k := Nat.add_left_cancel hk
    cases v
    · exact bind_ok (readWord_append 1 "boolean" 0)
    · exact bind_ok (readWord_append 1 "boolean" 1)
  case int256 v =>
    obtain rfl : 0 = k := Nat.add_left_cancel hk
    exact bind_ok (readArray_append "int256" v)
  case nothing =>
    obtain rfl : 0 = k := Nat.add_left_cancel hk
    rfl
  -- The numbers.
  all_goals
    obtain rfl : 0 = k := Nat.add_left_cancel hk
    exact bind_ok (readWord_append _ _ _)

theorem variantChild_decode {wireType : WireType} {children : List Schema} {tag : BitVec 16}
    {child : Schema} (h : variantChild wireType children tag = .ok child) :
    variantChild wireType (children.map decodeValue) tag = .ok (decodeValue child) := by
  rw [variantChild_map, h]
  rfl

mutual

/-- **A spelling is read back**, and charged what its value is charged. -/
theorem decode_of_spells {schema : Schema} {v : Value} {bytes : List UInt8}
    (h : Spells schema v bytes) (budget : RowBudget) (rest : List UInt8)
    (hwithin : v.BlobsWithin budget.maxBlobBytes) (hcharge : v.charge ≤ budget.remaining) :
    decodeValue schema ⟨bytes ++ rest, budget⟩ = .ok (v, ⟨rest, budget.spend v.charge⟩) := by
  cases h with
  | leaf h =>
    obtain ⟨k, hk⟩ : ∃ k, v.charge = ValueLayout.sizeOfValue + k := v.charge_split
    rw [hk] at hcharge ⊢
    apply decodeValue_of_node hcharge
    exact decodeNode_leaf h hk hwithin (Nat.le_sub_of_add_le' hcharge)
  | variant hwire htag hchild h =>
    apply decodeValue_of_node hcharge
    rw [List.append_assoc]
    apply decodeVariant_append hwire htag (variantChild_decode hchild)
    exact decode_of_spells h _ rest hwithin (Nat.le_sub_of_add_le' hcharge)
  | repeated hwire h =>
    apply decodeValue_of_node hcharge
    rw [List.append_assoc]
    apply decodeRepeated_append hwire
    exact decode_items_of_spells hwire h _ rest hwithin (Nat.le_sub_of_add_le' hcharge)
      (Nat.lt_succ_self _)
  | tuple h =>
    apply decodeValue_of_node hcharge
    exact bind_ok (decode_fields_of_spells h _ rest hwithin (Nat.le_sub_of_add_le' hcharge))

theorem decode_items_of_spells {wireType : WireType} {children : List Schema}
    {items : List Variant} {bytes : List UInt8}
    (hwire : wireType = .repeatedVariant8 ∨ wireType = .repeatedVariant16)
    (h : SpellsItems wireType children items bytes) (budget : RowBudget) (rest : List UInt8)
    {fuel : Nat} (hwithin : Value.ItemsWithin budget.maxBlobBytes items)
    (hcharge : Value.chargeItems items ≤ budget.remaining)
    (hfuel : (bytes ++ (endBytes wireType ++ rest)).length < fuel) :
    decodeItems wireType (children.map decodeValue) fuel
        ⟨bytes ++ (endBytes wireType ++ rest), budget⟩ =
      .ok (items, ⟨rest, budget.spend (Value.chargeItems items)⟩) := by
  cases fuel with
  | zero => exact absurd hfuel (Nat.not_lt_zero _)
  | succ fuel =>
    cases h with
    | nil => exact decodeItems_end hwire
    | @cons _ _ child tag v items bytes more htag hchild h hrest =>
      have hvalue := decode_of_spells h budget (more ++ (endBytes wireType ++ rest)) hwithin.1
        (Nat.le_of_add_right_le hcharge)
      have hpos : 0 < (tagBytes wireType tag).length := tagBytes_length_pos wireType tag
      have hshort : (more ++ (endBytes wireType ++ rest)).length < fuel := by
        simp only [List.length_append] at hfuel ⊢
        omega
      have hitems := decode_items_of_spells hwire hrest (budget.spend v.charge) rest
        hwithin.2 (Nat.le_sub_of_add_le' hcharge) hshort
      rw [RowBudget.spend_spend] at hitems
      rw [List.append_assoc, List.append_assoc]
      exact decodeItems_item hwire htag (variantChild_decode hchild) hvalue hitems

theorem decode_fields_of_spells {children : List Schema} {values : List Value}
    {bytes : List UInt8} (h : SpellsFields children values bytes) (budget : RowBudget)
    (rest : List UInt8) (hwithin : Value.AllWithin budget.maxBlobBytes values)
    (hcharge : Value.chargeAll values ≤ budget.remaining) :
    decodeFields (children.map decodeValue) ⟨bytes ++ rest, budget⟩ =
      .ok (values, ⟨rest, budget.spend (Value.chargeAll values)⟩) := by
  cases h with
  | nil => rfl
  | @cons child children v values bytes more h hrest =>
    have hvalue := decode_of_spells h budget (more ++ rest) hwithin.1 (Nat.le_of_add_right_le hcharge)
    have hfields := decode_fields_of_spells hrest (budget.spend v.charge) rest
      hwithin.2 (Nat.le_sub_of_add_le' hcharge)
    rw [RowBudget.spend_spend] at hfields
    rw [List.append_assoc, List.map_cons, decodeFields, bind_ok hvalue, bind_ok hfields]
    rfl

end

end Decode

end Skiff
end Ytsaurus
