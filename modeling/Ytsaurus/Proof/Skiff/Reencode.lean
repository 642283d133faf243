import Ytsaurus.Proof.Skiff.Total

/-!
# `Proof/Skiff/Reencode.lean` — what the decoder read was a spelling

The decoder takes any byte other than zero for `true`, and that is the only thing it takes
that no encoder writes. `booleanBytes` collects the bytes a value's booleans were read from;
when each of them is zero or one, the bytes the decoder consumed are the spelling of the
value it returned (`spells_of_decode`).

`booleanBytes` is a reader beside the decoder, on the same input and under the same budget, that
keeps the bytes of the booleans and nothing else. It has to be a reader: where the booleans of a
value are depends on the tags and lengths in front of them. The induction over the schema runs
both at once and says that they consume the same bytes.

Everything else has one spelling. Lengths and tags are of fixed width, and a tag that was accepted
selects a child or ends a list, but never both (`endTag_bytes`).
-/

set_option autoImplicit false

namespace Ytsaurus
namespace Skiff

open LittleEndian StateExcept

namespace Decode

/-! ## The boolean bytes of a value -/

def booleanItems (wireType : WireType) (children : List (Decode (List (BitVec 8)))) :
    Nat → Decode (List (BitVec 8))
  | 0 => throw .outOfFuel
  | fuel + 1 => do
    let tag ← readVariantTag wireType
    if ← lift (isRepeatedVariantEnd wireType tag) then
      return []
    let child ← lift (variantChild wireType children tag)
    let here ← child
    let after ← booleanItems wireType children fuel
    return here ++ after

def booleanFields : List (Decode (List (BitVec 8))) → Decode (List (BitVec 8))
  | [] => return []
  | child :: children => do
    let here ← child
    let after ← booleanFields children
    return here ++ after

def booleanNode (wireType : WireType) (children : List (Decode (List (BitVec 8)))) :
    Decode (List (BitVec 8)) :=
  match wireType with
  | .boolean => do return [← readWord 1 "boolean"]
  | .variant8 | .variant16 => do
    let tag ← readVariantTag wireType
    let child ← lift (variantChild wireType children tag)
    child
  | .repeatedVariant8 | .repeatedVariant16 => do
    let s ← get
    booleanItems wireType children (s.input.length + 1)
  | .tuple => booleanFields children
  -- No other leaf has one.
  | wireType => do
    let _ ← decodeNode wireType []
    return []

section Define

variable [ValueLayout]

mutual

/-- The bytes that the booleans of the value in front of the reader are read from. -/
def booleanBytes : Schema → Decode (List (BitVec 8))
  | ⟨wireType, _, children⟩ => do
    charge ValueLayout.sizeOfValue
    booleanNode wireType (booleanAll children)

def booleanAll : List Schema → List (Decode (List (BitVec 8)))
  | [] => []
  | child :: children => booleanBytes child :: booleanAll children

end

theorem booleanAll_eq_map (children : List Schema) :
    booleanAll children = children.map booleanBytes := by
  induction children with
  | nil => rfl
  | cons child children ih => rw [booleanAll, ih, List.map_cons]

end Define

/-- The bytes of every boolean are those an encoder writes. -/
def Strict (bools : List (BitVec 8)) : Prop := ∀ b ∈ bools, b = 0 ∨ b = 1

theorem Strict.left {here after : List (BitVec 8)} (h : Strict (here ++ after)) : Strict here :=
  fun b hb => h b (List.mem_append_left after hb)

theorem Strict.right {here after : List (BitVec 8)} (h : Strict (here ++ after)) :
    Strict after := fun b hb => h b (List.mem_append_right here hb)

/-! ## What the readers consumed -/

section Readers

variable {s s' : Cursor}

theorem readWord_eq_ok {width : Nat} {context : String} {x : BitVec (8 * width)}
    (h : readWord width context s = .ok (x, s')) : s.input = toLeBytes width x ++ s'.input := by
  obtain ⟨bytes, s₁, hread, hpure⟩ := bind_eq_ok.mp h
  cases hpure
  rw [(readArray_eq_ok hread).1, toLeBytes_fromLeBytes rfl bytes.property]

theorem readNarrowTag_eq_ok {tag : BitVec 16}
    (h : (do return (← readWord 1 "variant8 tag").setWidth 16 : Decode (BitVec 16)) s =
      .ok (tag, s')) : s.input = toLeBytes 1 tag ++ s'.input ∧ tag.toNat < 256 := by
  obtain ⟨word, s₁, hread, hpure⟩ := bind_eq_ok.mp h
  cases hpure
  have hword : (word.setWidth 16).toNat = word.toNat := by
    rw [BitVec.toNat_setWidth]
    exact Nat.mod_eq_of_lt (Nat.lt_trans word.isLt (by decide))
  constructor
  · rw [readWord_eq_ok hread, toLeBytes, toLeBytes, hword]
  · rw [hword]
    exact word.isLt

/-- The tag that was read, as its bytes; a one-byte tag is less than 256. -/
theorem readVariantTag_eq_ok {wireType : WireType} {tag : BitVec 16} (hwire : Tagged wireType)
    (h : readVariantTag wireType s = .ok (tag, s')) :
    s.input = tagBytes wireType tag ++ s'.input ∧
      (tagWidth wireType = 1 → tag.toNat < 256) := by
  rcases hwire with rfl | rfl | rfl | rfl
  · obtain ⟨hinput, hlt⟩ := readNarrowTag_eq_ok h
    exact ⟨hinput, fun _ => hlt⟩
  · exact ⟨readWord_eq_ok h, fun hwidth => absurd hwidth (by decide)⟩
  · obtain ⟨hinput, hlt⟩ := readNarrowTag_eq_ok h
    exact ⟨hinput, fun _ => hlt⟩
  · exact ⟨readWord_eq_ok h, fun hwidth => absurd hwidth (by decide)⟩

/-- The end tag is its bytes, and every other tag is a child's. -/
theorem endTag_bytes {wireType : WireType} {tag : BitVec 16}
    (hwire : wireType = .repeatedVariant8 ∨ wireType = .repeatedVariant16)
    (h : isRepeatedVariantEnd wireType tag = .ok true) :
    tagBytes wireType tag = endBytes wireType := by
  rcases hwire with rfl | rfl
  · obtain rfl : tag = 0xff := eq_of_beq (Except.ok.inj h)
    rfl
  · obtain rfl : tag = 0xffff := eq_of_beq (Except.ok.inj h)
    rfl

theorem notEnd_lt {wireType : WireType} {tag : BitVec 16}
    (hwire : wireType = .repeatedVariant8 ∨ wireType = .repeatedVariant16)
    (h : isRepeatedVariantEnd wireType tag = .ok false)
    (hnarrow : tagWidth wireType = 1 → tag.toNat < 256) : tag.toNat < tagLimit wireType := by
  rcases hwire with rfl | rfl
  · have hne : tag ≠ 0xff := ne_of_beq_false (Except.ok.inj h)
    have hneNat : tag.toNat ≠ 255 := fun heq => hne (BitVec.eq_of_toNat_eq heq)
    have hlt : tag.toNat < 256 := hnarrow rfl
    show tag.toNat < 255
    omega
  · have hne : tag ≠ 0xffff := ne_of_beq_false (Except.ok.inj h)
    have hneNat : tag.toNat ≠ 65535 := fun heq => hne (BitVec.eq_of_toNat_eq heq)
    have hlt : tag.toNat < 65536 := tag.isLt
    show tag.toNat < 65535
    omega

theorem lift_eq_ok {α : Type} {x : Except CodecError α} {a : α} (h : lift x s = .ok (a, s')) :
    x = .ok a ∧ s' = s := by
  obtain ⟨b, hb, hpair⟩ := ExceptList.map_eq_ok.mp h
  cases hpair
  exact ⟨hb, rfl⟩

theorem charge_eq_ok {bytes : Nat} {u : Unit} (h : charge bytes s = .ok (u, s')) :
    s'.input = s.input := by
  obtain ⟨budget, _, hpair⟩ := ExceptList.map_eq_ok.mp h
  cases hpair
  rfl

theorem readBlob_eq_ok {wireType : WireType} {v : List UInt8}
    (h : readBlob wireType s = .ok (v, s')) :
    s.input = leBytes 4 v.length ++ v ++ s'.input ∧ v.length < 0x100000000 := by
  obtain ⟨length, s₁, hlength, h₁⟩ := bind_eq_ok.mp h
  obtain ⟨_, _, hget, h₂⟩ := bind_eq_ok.mp h₁
  cases hget
  obtain ⟨_, s₂, hcheck, h₃⟩ := bind_eq_ok.mp h₂
  obtain ⟨_, hsame⟩ := lift_eq_ok hcheck
  rw [hsame] at h₃
  obtain ⟨_, s₃, hcharge, h₄⟩ := bind_eq_ok.mp h₃
  obtain ⟨value, s₄, hvalue, hpure⟩ := bind_eq_ok.mp h₄
  cases hpure
  have hwidth : value.val.length = length.toNat := value.property
  constructor
  · rw [readWord_eq_ok hlength, ← charge_eq_ok hcharge, (readArray_eq_ok hvalue).1, hwidth,
      List.append_assoc]
    rfl
  · rw [hwidth]
    exact length.isLt

end Readers

/-! ## Leaves -/

theorem booleanByte_eq {b : BitVec 8} (h : b = 0 ∨ b = 1) :
    [byteOfBool (b != 0)] = toLeBytes 1 b := by
  rcases h with rfl | rfl <;> rfl

/-- A leaf other than a boolean has no boolean byte and is always a spelling. -/
theorem leaf_of_decode {wireType : WireType} {children : List (Decode Value)}
    (hsimple : wireType = .nothing ∨ wireType.isSimple) (hboolean : wireType ≠ .boolean)
    {s s' : Cursor} {v : Value} (h : decodeNode wireType children s = .ok (v, s')) :
    ∃ bytes, s.input = bytes ++ s'.input ∧ Leaf wireType v bytes := by
  cases wireType
  case boolean => exact absurd rfl hboolean
  case nothing =>
    cases h
    exact ⟨[], rfl, .nothing⟩
  case int256 =>
    obtain ⟨bytes, s₁, hread, hpure⟩ := bind_eq_ok.mp h
    cases hpure
    exact ⟨bytes.val, (readArray_eq_ok hread).1, .int256 bytes⟩
  case string32 =>
    obtain ⟨bytes, s₁, hread, hpure⟩ := bind_eq_ok.mp h
    cases hpure
    obtain ⟨hinput, hwidth⟩ := readBlob_eq_ok hread
    exact ⟨_, hinput, .string32 hwidth⟩
  case yson32 =>
    obtain ⟨bytes, s₁, hread, hpure⟩ := bind_eq_ok.mp h
    cases hpure
    obtain ⟨hinput, hwidth⟩ := readBlob_eq_ok hread
    exact ⟨_, hinput, .yson32 hwidth⟩
  case variant8 => exact absurd hsimple (by simp [WireType.isSimple])
  case variant16 => exact absurd hsimple (by simp [WireType.isSimple])
  case repeatedVariant8 => exact absurd hsimple (by simp [WireType.isSimple])
  case repeatedVariant16 => exact absurd hsimple (by simp [WireType.isSimple])
  case tuple => exact absurd hsimple (by simp [WireType.isSimple])
  -- The numbers.
  all_goals
    obtain ⟨word, s₁, hread, hpure⟩ := bind_eq_ok.mp h
    cases hpure
    exact ⟨_, readWord_eq_ok hread, by constructor⟩

/-! ## Nodes -/

variable [ValueLayout]

/-- `booleanBytes` reads what the decoder reads; and what the decoder read was a spelling if
the boolean bytes are strict. -/
def ReadSpelling (schema : Schema) : Prop :=
  ∀ {s s' : Cursor} {v : Value}, decodeValue schema s = .ok (v, s') →
    ∃ bools, booleanBytes schema s = .ok (bools, s') ∧
      (Strict bools → ∃ bytes, s.input = bytes ++ s'.input ∧ Spells schema v bytes)

/-- `booleanBytes` at a node: the charge, and then the node. -/
theorem booleanBytes_node (wireType : WireType) (name : Option String) (children : List Schema) :
    booleanBytes ⟨wireType, name, children⟩ =
      charge ValueLayout.sizeOfValue >>= fun _ =>
        booleanNode wireType (children.map booleanBytes) := by
  rw [booleanBytes, booleanAll_eq_map]

/-- A tag that selected a child, on both readers. -/
theorem child_of_decode {wireType : WireType} {children : List Schema} {tag : BitVec 16}
    {s s' : Cursor} {child : Decode Value}
    (h : lift (variantChild wireType (children.map decodeValue) tag) s = .ok (child, s')) :
    ∃ schema ∈ children, variantChild wireType children tag = .ok schema ∧ s' = s ∧
      child = decodeValue schema ∧
      lift (variantChild wireType (children.map booleanBytes) tag) s =
        .ok (booleanBytes schema, s) := by
  obtain ⟨hfound, hstate⟩ := lift_eq_ok h
  rw [variantChild_map] at hfound
  obtain ⟨schema, hschema, hdecode⟩ := ExceptList.map_eq_ok.mp hfound
  refine ⟨schema, variantChild_mem hschema, hschema, hstate, hdecode.symm, ?_⟩
  rw [variantChild_map, hschema]
  rfl

theorem variant_of_decode {wireType : WireType} {name : Option String} {children : List Schema}
    (hwire : wireType = .variant8 ∨ wireType = .variant16)
    (hchildren : ∀ child ∈ children, ReadSpelling child) {s s' : Cursor} {v : Value}
    (h : (do
      let tag ← readVariantTag wireType
      let child ← lift (variantChild wireType (children.map decodeValue) tag)
      let value ← child
      return Value.variant tag value : Decode Value) s = .ok (v, s')) :
    ∃ bools, (do
        let tag ← readVariantTag wireType
        let child ← lift (variantChild wireType (children.map booleanBytes) tag)
        child : Decode (List (BitVec 8))) s = .ok (bools, s') ∧
      (Strict bools → ∃ bytes, s.input = bytes ++ s'.input ∧
        Spells ⟨wireType, name, children⟩ v bytes) := by
  obtain ⟨tag, s₁, htag, h₁⟩ := bind_eq_ok.mp h
  obtain ⟨child, s₂, hlift, h₂⟩ := bind_eq_ok.mp h₁
  obtain ⟨schema, hmem, hchild, rfl, rfl, hbools⟩ := child_of_decode hlift
  obtain ⟨value, s₃, hvalue, hpure⟩ := bind_eq_ok.mp h₂
  cases hpure
  obtain ⟨bools, hread, hspells⟩ := hchildren schema hmem hvalue
  refine ⟨bools, ?_, ?_⟩
  · rw [bind_ok htag, bind_ok hbools]
    exact hread
  · intro hstrict
    obtain ⟨bytes, hinput, hspelled⟩ := hspells hstrict
    obtain ⟨htagBytes, hnarrow⟩ := readVariantTag_eq_ok (hwire.imp id Or.inl) htag
    have hlt : tag.toNat < tagLimit wireType := by
      rcases hwire with rfl | rfl
      · exact hnarrow rfl
      · exact tag.isLt
    refine ⟨tagBytes wireType tag ++ bytes, ?_, .variant hwire hlt hchild hspelled⟩
    rw [htagBytes, hinput, List.append_assoc]

theorem items_of_decode {wireType : WireType} {children : List Schema}
    (hwire : wireType = .repeatedVariant8 ∨ wireType = .repeatedVariant16)
    (hchildren : ∀ child ∈ children, ReadSpelling child) {fuel : Nat} {s s' : Cursor}
    {items : List Variant}
    (h : decodeItems wireType (children.map decodeValue) fuel s = .ok (items, s')) :
    ∃ bools, booleanItems wireType (children.map booleanBytes) fuel s = .ok (bools, s') ∧
      (Strict bools → ∃ bytes, s.input = bytes ++ (endBytes wireType ++ s'.input) ∧
        SpellsItems wireType children items bytes) := by
  induction fuel generalizing s items with
  | zero => cases h
  | succ fuel ih =>
    unfold decodeItems at h
    obtain ⟨tag, s₁, htag, h₁⟩ := bind_eq_ok.mp h
    obtain ⟨atEnd, s₂, hend, h₂⟩ := bind_eq_ok.mp h₁
    obtain ⟨hisEnd, rfl⟩ := lift_eq_ok hend
    obtain ⟨htagBytes, hnarrow⟩ := readVariantTag_eq_ok (Or.inr (Or.inr hwire)) htag
    cases atEnd with
    | true =>
      rw [if_pos rfl] at h₂
      cases h₂
      refine ⟨[], ?_, ?_⟩
      · unfold booleanItems
        rw [bind_ok htag, bind_ok hend, if_pos rfl]
        rfl
      · intro _
        refine ⟨[], ?_, .nil⟩
        rw [htagBytes, endTag_bytes hwire hisEnd, List.nil_append]
    | false =>
      rw [if_neg Bool.false_ne_true] at h₂
      obtain ⟨child, s₃, hlift, h₃⟩ := bind_eq_ok.mp h₂
      obtain ⟨schema, hmem, hchild, rfl, rfl, hbools⟩ := child_of_decode hlift
      obtain ⟨value, s₄, hvalue, h₄⟩ := bind_eq_ok.mp h₃
      obtain ⟨more, s₅, hmore, hpure⟩ := bind_eq_ok.mp h₄
      cases hpure
      obtain ⟨here, hread, hspells⟩ := hchildren schema hmem hvalue
      obtain ⟨after, hreadMore, hspellsMore⟩ := ih hmore
      refine ⟨here ++ after, ?_, ?_⟩
      · unfold booleanItems
        rw [bind_ok htag, bind_ok hend, if_neg Bool.false_ne_true, bind_ok hbools, bind_ok hread,
          bind_ok hreadMore]
        rfl
      · intro hstrict
        obtain ⟨bytes, hinput, hspelled⟩ := hspells hstrict.left
        obtain ⟨rest, hinputMore, hspelledMore⟩ := hspellsMore hstrict.right
        have hlt := notEnd_lt hwire hisEnd hnarrow
        refine ⟨tagBytes wireType tag ++ (bytes ++ rest), ?_,
          .cons hlt hchild hspelled hspelledMore⟩
        rw [htagBytes, hinput, hinputMore, List.append_assoc, List.append_assoc]

theorem repeated_of_decode {wireType : WireType} {name : Option String} {children : List Schema}
    (hwire : wireType = .repeatedVariant8 ∨ wireType = .repeatedVariant16)
    (hchildren : ∀ child ∈ children, ReadSpelling child) {s s' : Cursor} {v : Value}
    (h : (do
      let s ← get
      return Value.repeatedVariants (← decodeItems wireType (children.map decodeValue)
        (s.input.length + 1)) : Decode Value) s = .ok (v, s')) :
    ∃ bools, (do
        let s ← get
        booleanItems wireType (children.map booleanBytes) (s.input.length + 1) :
          Decode (List (BitVec 8))) s = .ok (bools, s') ∧
      (Strict bools → ∃ bytes, s.input = bytes ++ s'.input ∧
        Spells ⟨wireType, name, children⟩ v bytes) := by
  rw [get_bind] at h
  obtain ⟨items, s₁, hitems, hpure⟩ := bind_eq_ok.mp h
  cases hpure
  obtain ⟨bools, hread, hspells⟩ := items_of_decode hwire hchildren hitems
  refine ⟨bools, hread, ?_⟩
  intro hstrict
  obtain ⟨bytes, hinput, hspelled⟩ := hspells hstrict
  refine ⟨bytes ++ endBytes wireType, ?_, .repeated hwire hspelled⟩
  rw [hinput, List.append_assoc]

theorem fields_of_decode {children : List Schema}
    (hchildren : ∀ child ∈ children, ReadSpelling child) {s s' : Cursor} {values : List Value}
    (h : decodeFields (children.map decodeValue) s = .ok (values, s')) :
    ∃ bools, booleanFields (children.map booleanBytes) s = .ok (bools, s') ∧
      (Strict bools → ∃ bytes, s.input = bytes ++ s'.input ∧
        SpellsFields children values bytes) := by
  induction children generalizing s values with
  | nil =>
    cases h
    exact ⟨[], rfl, fun _ => ⟨[], rfl, .nil⟩⟩
  | cons child children ih =>
    obtain ⟨hchild, hrest⟩ := List.forall_mem_cons.mp hchildren
    rw [List.map_cons, decodeFields] at h
    obtain ⟨value, s₁, hvalue, h₁⟩ := bind_eq_ok.mp h
    obtain ⟨more, s₂, hmore, hpure⟩ := bind_eq_ok.mp h₁
    cases hpure
    obtain ⟨here, hread, hspells⟩ := hchild hvalue
    obtain ⟨after, hreadMore, hspellsMore⟩ := ih hrest hmore
    refine ⟨here ++ after, ?_, ?_⟩
    · rw [List.map_cons, booleanFields, bind_ok hread, bind_ok hreadMore]
      rfl
    · intro hstrict
      obtain ⟨bytes, hinput, hspelled⟩ := hspells hstrict.left
      obtain ⟨rest, hinputMore, hspelledMore⟩ := hspellsMore hstrict.right
      refine ⟨bytes ++ rest, ?_, .cons hspelled hspelledMore⟩
      rw [hinput, hinputMore, List.append_assoc]

/-- What a node's readers do, given what its children's do. -/
theorem node_of_decode {wireType : WireType} (name : Option String) {children : List Schema}
    (hchildren : ∀ child ∈ children, ReadSpelling child) {s s' : Cursor} {v : Value}
    (h : decodeNode wireType (children.map decodeValue) s = .ok (v, s')) :
    ∃ bools, booleanNode wireType (children.map booleanBytes) s = .ok (bools, s') ∧
      (Strict bools → ∃ bytes, s.input = bytes ++ s'.input ∧
        Spells ⟨wireType, name, children⟩ v bytes) := by
  cases wireType
  case boolean =>
    obtain ⟨byte, s₁, hread, hpure⟩ := bind_eq_ok.mp h
    cases hpure
    refine ⟨[byte], bind_ok hread, ?_⟩
    intro hstrict
    refine ⟨toLeBytes 1 byte, readWord_eq_ok hread, ?_⟩
    rw [← booleanByte_eq (hstrict byte List.mem_cons_self)]
    exact .leaf (.boolean _)
  case variant8 => exact variant_of_decode (Or.inl rfl) hchildren h
  case variant16 => exact variant_of_decode (Or.inr rfl) hchildren h
  case repeatedVariant8 => exact repeated_of_decode (Or.inl rfl) hchildren h
  case repeatedVariant16 => exact repeated_of_decode (Or.inr rfl) hchildren h
  case tuple =>
    obtain ⟨values, s₁, hvalues, hpure⟩ := bind_eq_ok.mp h
    cases hpure
    obtain ⟨bools, hread, hspells⟩ := fields_of_decode hchildren hvalues
    refine ⟨bools, hread, ?_⟩
    intro hstrict
    obtain ⟨bytes, hinput, hspelled⟩ := hspells hstrict
    exact ⟨bytes, hinput, .tuple hspelled⟩
  -- The other leaves have no boolean byte.
  all_goals
    refine ⟨[], bind_ok (a := v) h, ?_⟩
    intro _
    obtain ⟨bytes, hinput, hleaf⟩ := leaf_of_decode (by decide) (by decide) h
    exact ⟨bytes, hinput, .leaf hleaf⟩

/-- **What the decoder read was a spelling** of what it returned, boolean bytes being strict. -/
theorem spells_of_decode (schema : Schema) : ReadSpelling schema := by
  induction schema using Schema.induction with
  | node wireType name children ih =>
    intro s s' v h
    rw [decodeValue_node] at h
    obtain ⟨_, s₁, hcharge, hnode⟩ := bind_eq_ok.mp h
    obtain ⟨bools, hread, hspells⟩ := node_of_decode name ih hnode
    refine ⟨bools, ?_, ?_⟩
    · rw [booleanBytes_node, bind_ok hcharge]
      exact hread
    · rw [← charge_eq_ok hcharge]
      exact hspells

end Decode

end Skiff
end Ytsaurus
