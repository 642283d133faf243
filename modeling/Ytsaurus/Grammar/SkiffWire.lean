import Ytsaurus.Skiff.Wire

/-!
# `Grammar/SkiffWire.lean` — the Skiff wire format as a relation

`Spells schema v bytes` says that `bytes` is the wire form of `v` at a node of `schema`: the
grammar of the format, with no reader, no writer and no limit in it. The encoder produces
exactly the spellings of the values it accepts, and the decoder reads exactly these back;
the two are compared through this relation, and through nothing else.

A tag is written in one byte or two, and is always less than the number of children the
format allows. For a repeated variant that keeps it apart from the end tag.
-/

set_option autoImplicit false

namespace Ytsaurus
namespace Skiff

open LittleEndian

/-- How many tags the width of a variant's tag leaves for its children. -/
def tagLimit : WireType → Nat
  | .variant8 => 256
  | .variant16 => 65536
  | .repeatedVariant8 => 255
  | .repeatedVariant16 => 65535
  | _ => 0

def tagWidth : WireType → Nat
  | .variant8 | .repeatedVariant8 => 1
  | _ => 2

def tagBytes (wireType : WireType) (tag : BitVec 16) : List UInt8 :=
  toLeBytes (tagWidth wireType) tag

/-- The all-ones tag. -/
def endBytes (wireType : WireType) : List UInt8 := List.replicate (tagWidth wireType) 0xff

/-- The wire form of a value without children. -/
inductive Leaf : WireType → Value → List UInt8 → Prop
  | nothing : Leaf .nothing .nothing []
  | boolean (v : Bool) : Leaf .boolean (.boolean v) [byteOfBool v]
  | int8 (v : BitVec 8) : Leaf .int8 (.int8 v) (toLeBytes 1 v)
  | int16 (v : BitVec 16) : Leaf .int16 (.int16 v) (toLeBytes 2 v)
  | int32 (v : BitVec 32) : Leaf .int32 (.int32 v) (toLeBytes 4 v)
  | int64 (v : BitVec 64) : Leaf .int64 (.int64 v) (toLeBytes 8 v)
  | int128 (v : BitVec 128) : Leaf .int128 (.int128 v) (toLeBytes 16 v)
  | int256 (v : Bytes 32) : Leaf .int256 (.int256 v) v.val
  | uint8 (v : BitVec 8) : Leaf .uint8 (.uint8 v) (toLeBytes 1 v)
  | uint16 (v : BitVec 16) : Leaf .uint16 (.uint16 v) (toLeBytes 2 v)
  | uint32 (v : BitVec 32) : Leaf .uint32 (.uint32 v) (toLeBytes 4 v)
  | uint64 (v : BitVec 64) : Leaf .uint64 (.uint64 v) (toLeBytes 8 v)
  | double (bits : BitVec 64) : Leaf .double (.double bits) (toLeBytes 8 bits)
  | string32 {v : List UInt8} (h : v.length < 0x100000000) :
      Leaf .string32 (.bytes v) (leBytes 4 v.length ++ v)
  | yson32 {v : List UInt8} (h : v.length < 0x100000000) :
      Leaf .yson32 (.yson v) (leBytes 4 v.length ++ v)

mutual

inductive Spells : Schema → Value → List UInt8 → Prop
  | leaf {wireType : WireType} {name : Option String} {children : List Schema} {v : Value}
      {bytes : List UInt8} (h : Leaf wireType v bytes) :
      Spells ⟨wireType, name, children⟩ v bytes
  | variant {wireType : WireType} {name : Option String} {children : List Schema}
      {child : Schema} {tag : BitVec 16} {v : Value} {bytes : List UInt8}
      (hwire : wireType = .variant8 ∨ wireType = .variant16)
      (htag : tag.toNat < tagLimit wireType)
      (hchild : variantChild wireType children tag = .ok child) (h : Spells child v bytes) :
      Spells ⟨wireType, name, children⟩ (.variant tag v) (tagBytes wireType tag ++ bytes)
  | repeated {wireType : WireType} {name : Option String} {children : List Schema}
      {items : List Variant} {bytes : List UInt8}
      (hwire : wireType = .repeatedVariant8 ∨ wireType = .repeatedVariant16)
      (h : SpellsItems wireType children items bytes) :
      Spells ⟨wireType, name, children⟩ (.repeatedVariants items) (bytes ++ endBytes wireType)
  | tuple {name : Option String} {children : List Schema} {values : List Value}
      {bytes : List UInt8} (h : SpellsFields children values bytes) :
      Spells ⟨.tuple, name, children⟩ (.tuple values) bytes

/-- The items of a repeated variant, each behind its tag. -/
inductive SpellsItems : WireType → List Schema → List Variant → List UInt8 → Prop
  | nil {wireType : WireType} {children : List Schema} : SpellsItems wireType children [] []
  | cons {wireType : WireType} {children : List Schema} {child : Schema} {tag : BitVec 16}
      {v : Value} {items : List Variant} {bytes rest : List UInt8}
      (htag : tag.toNat < tagLimit wireType)
      (hchild : variantChild wireType children tag = .ok child) (h : Spells child v bytes)
      (hrest : SpellsItems wireType children items rest) :
      SpellsItems wireType children (⟨tag, v⟩ :: items)
        (tagBytes wireType tag ++ (bytes ++ rest))

/-- The fields of a tuple, one for each child. -/
inductive SpellsFields : List Schema → List Value → List UInt8 → Prop
  | nil : SpellsFields [] [] []
  | cons {child : Schema} {children : List Schema} {v : Value} {values : List Value}
      {bytes rest : List UInt8} (h : Spells child v bytes)
      (hrest : SpellsFields children values rest) :
      SpellsFields (child :: children) (v :: values) (bytes ++ rest)

end

/-! ## Limits

What a row is charged and how long its blobs are does not depend on the schema. -/

section Charge

variable [ValueLayout]

mutual

/-- The decoded footprint a value is charged: its own size, and its blob or its children. -/
def Value.charge : Value → Nat
  | .bytes v | .yson v => ValueLayout.sizeOfValue + v.length
  | .variant _ v => ValueLayout.sizeOfValue + v.charge
  | .repeatedVariants items => ValueLayout.sizeOfValue + chargeItems items
  | .tuple values => ValueLayout.sizeOfValue + chargeAll values
  | _ => ValueLayout.sizeOfValue

def Value.chargeItems : List Variant → Nat
  | [] => 0
  | ⟨_, v⟩ :: items => v.charge + chargeItems items

def Value.chargeAll : List Value → Nat
  | [] => 0
  | v :: values => v.charge + chargeAll values

end

end Charge

mutual

/-- No blob is longer than `limit`. -/
def Value.BlobsWithin (limit : Nat) : Value → Prop
  | .bytes v | .yson v => v.length ≤ limit
  | .variant _ v => v.BlobsWithin limit
  | .repeatedVariants items => ItemsWithin limit items
  | .tuple values => AllWithin limit values
  | _ => True

def Value.ItemsWithin (limit : Nat) : List Variant → Prop
  | [] => True
  | ⟨_, v⟩ :: items => v.BlobsWithin limit ∧ ItemsWithin limit items

def Value.AllWithin (limit : Nat) : List Value → Prop
  | [] => True
  | v :: values => v.BlobsWithin limit ∧ AllWithin limit values

end

end Skiff
end Ytsaurus
