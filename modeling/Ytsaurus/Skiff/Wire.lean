import Ytsaurus.Lib.LittleEndian
import Ytsaurus.Lib.Written
import Ytsaurus.Skiff.Schema

/-!
# `Skiff/Wire.lean` — encoding, decoding and skipping Skiff values (`wire.rs`)

Three recursions over a schema: `encodeValue` writes a dynamic `Value`, `decodeValue` reads
one, and `skipValue` moves past one without building it. A stream is a sequence of rows, each
behind a two-byte table index.

The input is the bytes that are left of it; it ends where they end. A machine integer is the
`BitVec` of its two's-complement bits, a double the bits of its IEEE form. The loop over a
repeated variant ends at an end tag or at the end of the input: its fuel is one more than the
bytes that are left, and every turn takes at least one of them.
-/

set_option autoImplicit false

namespace Ytsaurus
namespace Skiff

open LittleEndian

/-- `[u8; N]`. -/
abbrev Bytes (n : Nat) := { bytes : List UInt8 // bytes.length = n }

/-- `size_of::<Value>()`, which the target decides. -/
class ValueLayout where
  sizeOfValue : Nat

mutual

/-- A dynamically decoded Skiff value. -/
inductive Value where
  | nothing
  | boolean (v : Bool)
  | int8 (v : BitVec 8)
  | int16 (v : BitVec 16)
  | int32 (v : BitVec 32)
  | int64 (v : BitVec 64)
  | int128 (v : BitVec 128)
  | int256 (v : Bytes 32)
  | uint8 (v : BitVec 8)
  | uint16 (v : BitVec 16)
  | uint32 (v : BitVec 32)
  | uint64 (v : BitVec 64)
  | double (bits : BitVec 64)
  | bytes (v : List UInt8)
  | yson (v : List UInt8)
  | variant (tag : BitVec 16) (value : Value)
  | repeatedVariants (items : List Variant)
  | tuple (values : List Value)

/-- One non-terminal element of a repeated variant. -/
structure Variant where
  tag : BitVec 16
  value : Value

end

/-- A stable description used when a value does not fit its schema node. -/
def Value.kind : Value → String
  | nothing => "nothing"
  | boolean _ => "boolean"
  | int8 _ => "int8"
  | int16 _ => "int16"
  | int32 _ => "int32"
  | int64 _ => "int64"
  | int128 _ => "int128"
  | int256 _ => "int256"
  | uint8 _ => "uint8"
  | uint16 _ => "uint16"
  | uint32 _ => "uint32"
  | uint64 _ => "uint64"
  | double _ => "double"
  | bytes _ => "string32"
  | yson _ => "yson32"
  | variant _ _ => "variant"
  | repeatedVariants _ => "repeated variant"
  | tuple _ => "tuple"

/-- A wire failure while encoding or decoding. `unreachable` is the source's panic, and
`outOfFuel` the answer of a loop that the source would go on with. -/
inductive CodecError where
  | invalidSchema (error : SchemaError)
  | tableSchemaMustBeTuple (found : WireType)
  | truncated (context : String)
  | rowTooLarge (limit : Nat)
  | blobTooLarge (wireType : WireType) (length limit : Nat)
  | valueDoesNotMatchSchema (expected : WireType) (actual : String)
  | tupleLength (expected actual : Nat)
  | invalidVariantTag (wireType : WireType) (tag : BitVec 16) (children : Nat)
  | variantTagTooWide (wireType : WireType) (tag : BitVec 16)
  | blobLengthOverflowsU32 (wireType : WireType) (length : Nat)
  | unreachable
  | outOfFuel
  deriving DecidableEq, Repr

/-! ## What both directions share -/

def variantChild {α : Type} (wireType : WireType) (children : List α) (tag : BitVec 16) :
    Except CodecError α :=
  match children[tag.toNat]? with
  | some child => .ok child
  | none => .error (.invalidVariantTag wireType tag children.length)

def isRepeatedVariantEnd (wireType : WireType) (tag : BitVec 16) : Except CodecError Bool :=
  match wireType with
  | .repeatedVariant8 => .ok (tag == 0xff)
  | .repeatedVariant16 => .ok (tag == 0xffff)
  | _ => .error .unreachable

def checkBlobLength (wireType : WireType) (length maxBlobBytes : Nat) : Except CodecError Unit :=
  if length > maxBlobBytes then .error (.blobTooLarge wireType length maxBlobBytes) else .ok ()

/-! ## Encoding -/

def writeVariantTag (wireType : WireType) (tag : BitVec 16) : Written CodecError Unit :=
  match wireType with
  | .variant8 | .repeatedVariant8 =>
    if tag.toNat ≤ 0xff then .emit (toLeBytes 1 tag) else .fail (.variantTagTooWide wireType tag)
  | .variant16 | .repeatedVariant16 => .emit (toLeBytes 2 tag)
  | _ => .fail .unreachable

def writeRepeatedVariantEnd (wireType : WireType) : Written CodecError Unit :=
  match wireType with
  | .repeatedVariant8 => .emit [0xff]
  | .repeatedVariant16 => .emit [0xff, 0xff]
  | _ => .fail .unreachable

def writeBlob (wireType : WireType) (value : List UInt8) (maxBlobBytes : Nat) :
    Written CodecError Unit := do
  Written.lift (checkBlobLength wireType value.length maxBlobBytes)
  if value.length < 0x100000000 then
    Written.emit (leBytes 4 value.length)
    Written.emit value
  else
    Written.fail (.blobLengthOverflowsU32 wireType value.length)

def byteOfBool (v : Bool) : UInt8 := if v then 1 else 0

mutual

def encodeValue (maxBlobBytes : Nat) : Value → Schema → Written CodecError Unit
  | value, ⟨wireType, _, children⟩ =>
    match wireType, value with
    | .nothing, .nothing => pure ()
    | .boolean, .boolean v => .emit [byteOfBool v]
    | .int8, .int8 v => .emit (toLeBytes 1 v)
    | .int16, .int16 v => .emit (toLeBytes 2 v)
    | .int32, .int32 v => .emit (toLeBytes 4 v)
    | .int64, .int64 v => .emit (toLeBytes 8 v)
    | .int128, .int128 v => .emit (toLeBytes 16 v)
    | .int256, .int256 v => .emit v.val
    | .uint8, .uint8 v => .emit (toLeBytes 1 v)
    | .uint16, .uint16 v => .emit (toLeBytes 2 v)
    | .uint32, .uint32 v => .emit (toLeBytes 4 v)
    | .uint64, .uint64 v => .emit (toLeBytes 8 v)
    | .double, .double bits => .emit (toLeBytes 8 bits)
    | .string32, .bytes v => writeBlob .string32 v maxBlobBytes
    | .yson32, .yson v => writeBlob .yson32 v maxBlobBytes
    | .variant8, .variant tag v => do
      let child ← Written.lift (variantChild .variant8 children tag)
      writeVariantTag .variant8 tag
      encodeValue maxBlobBytes v child
    | .variant16, .variant tag v => do
      let child ← Written.lift (variantChild .variant16 children tag)
      writeVariantTag .variant16 tag
      encodeValue maxBlobBytes v child
    | .repeatedVariant8, .repeatedVariants items => do
      encodeItems maxBlobBytes .repeatedVariant8 children items
      writeRepeatedVariantEnd .repeatedVariant8
    | .repeatedVariant16, .repeatedVariants items => do
      encodeItems maxBlobBytes .repeatedVariant16 children items
      writeRepeatedVariantEnd .repeatedVariant16
    | .tuple, .tuple values =>
      if values.length ≠ children.length then
        .fail (.tupleLength children.length values.length)
      else encodeFields maxBlobBytes values children
    | expected, value => .fail (.valueDoesNotMatchSchema expected value.kind)

def encodeItems (maxBlobBytes : Nat) (wireType : WireType) (children : List Schema) :
    List Variant → Written CodecError Unit
  | [] => pure ()
  | ⟨tag, value⟩ :: items => do
    let child ← Written.lift (variantChild wireType children tag)
    writeVariantTag wireType tag
    encodeValue maxBlobBytes value child
    encodeItems maxBlobBytes wireType children items

/-- `schema.children.iter().zip(values)`. -/
def encodeFields (maxBlobBytes : Nat) : List Value → List Schema → Written CodecError Unit
  | value :: values, child :: children => do
    encodeValue maxBlobBytes value child
    encodeFields maxBlobBytes values children
  | _, _ => pure ()

end

/-- An encoder for one table stream; its schema passed the checks of `Encoder::new`. -/
structure Encoder where
  output : List UInt8
  schema : Schema
  maxBlobBytes : Nat
  valid : schema.validate = .ok ()
  table : schema.validateTableSchema = .ok ()

def defaultMaxBlobBytes : Nat := 128 * 1024 * 1024

def defaultMaxRowBytes : Nat := 256 * 1024 * 1024

namespace Encoder

def new (output : List UInt8) (schema : Schema) : Except CodecError Encoder :=
  match hvalid : schema.validate with
  | .error e => .error (.invalidSchema e)
  | .ok () =>
    if schema.wireType ≠ .tuple then .error (.tableSchemaMustBeTuple schema.wireType)
    else
      match htable : schema.validateTableSchema with
      | .error e => .error (.invalidSchema e)
      | .ok () => .ok ⟨output, schema, defaultMaxBlobBytes, hvalid, htable⟩

def withMaxBlobBytes (encoder : Encoder) (bytes : Nat) : Encoder :=
  { encoder with maxBlobBytes := bytes }

/-- One row behind the single-table tag. -/
def encodeRow (encoder : Encoder) (row : Value) : Written CodecError Unit := do
  Written.emit (leBytes 2 0)
  encodeValue encoder.maxBlobBytes row encoder.schema

def write (encoder : Encoder) (row : Value) : Except CodecError Unit × Encoder :=
  let written := encoder.encodeRow row
  (written.result, { encoder with output := encoder.output ++ written.bytes })

end Encoder

/-! ## Decoding -/

structure RowBudget where
  maxBlobBytes : Nat
  limit : Nat
  remaining : Nat
  deriving DecidableEq, Repr

namespace RowBudget

def new (maxBlobBytes maxRowBytes : Nat) : RowBudget := ⟨maxBlobBytes, maxRowBytes, maxRowBytes⟩

/-- Charges `bytes` against the row, before the memory is committed. -/
def charge (budget : RowBudget) (bytes : Nat) : Except CodecError RowBudget :=
  if bytes ≤ budget.remaining then .ok { budget with remaining := budget.remaining - bytes }
  else .error (.rowTooLarge budget.limit)

end RowBudget

/-- The reader and the budget of the row that is being read. -/
structure Cursor where
  input : List UInt8
  budget : RowBudget
  deriving DecidableEq, Repr

abbrev Decode := StateT Cursor (Except CodecError)

/-- `Read::read_exact` into `count` bytes. -/
def takeExact (count : Nat) (context : String) (input : List UInt8) :
    Except CodecError (Bytes count × List UInt8) :=
  if h : count ≤ input.length then
    .ok (⟨input.take count, List.length_take_of_le h⟩, input.drop count)
  else .error (.truncated context)

namespace Decode

def lift {α : Type} (x : Except CodecError α) : Decode α := fun s => x.map fun a => (a, s)

def charge (bytes : Nat) : Decode Unit := fun s =>
  (s.budget.charge bytes).map fun budget => ((), { s with budget := budget })

def readArray (count : Nat) (context : String) : Decode (Bytes count) := fun s =>
  (takeExact count context s.input).map fun r => (r.1, { s with input := r.2 })

/-- `from_le_bytes(read_array(..)?)` at a word of `width` bytes. -/
def readWord (width : Nat) (context : String) : Decode (BitVec (8 * width)) := do
  let bytes ← readArray width context
  return fromLeBytes (8 * width) bytes.val

def readVariantTag (wireType : WireType) : Decode (BitVec 16) :=
  match wireType with
  | .variant8 | .repeatedVariant8 => do
    let tag ← readWord 1 "variant8 tag"
    return tag.setWidth 16
  | .variant16 | .repeatedVariant16 => readWord 2 "variant16 tag"
  | _ => throw .unreachable

def readBlob (wireType : WireType) : Decode (List UInt8) := do
  let length ← readWord 4 "blob length"
  let s ← get
  lift (checkBlobLength wireType length.toNat s.budget.maxBlobBytes)
  charge length.toNat
  let value ← readArray length.toNat "blob payload"
  return value.val

/-- The loop of a repeated variant. -/
def decodeItems (wireType : WireType) (children : List (Decode Value)) :
    Nat → Decode (List Variant)
  | 0 => throw .outOfFuel
  | fuel + 1 => do
    let tag ← readVariantTag wireType
    if ← lift (isRepeatedVariantEnd wireType tag) then
      return []
    let child ← lift (variantChild wireType children tag)
    let value ← child
    let items ← decodeItems wireType children fuel
    return ⟨tag, value⟩ :: items

/-- The children of a tuple, in order. -/
def decodeFields : List (Decode Value) → Decode (List Value)
  | [] => return []
  | child :: children => do
    let value ← child
    let values ← decodeFields children
    return value :: values

/-- `decode_value` below the charge, given how to decode each child. -/
def decodeNode (wireType : WireType) (children : List (Decode Value)) : Decode Value :=
  match wireType with
  | .nothing => return .nothing
  | .boolean => do return .boolean ((← readWord 1 "boolean") != 0)
  | .int8 => do return .int8 (← readWord 1 "int8")
  | .int16 => do return .int16 (← readWord 2 "int16")
  | .int32 => do return .int32 (← readWord 4 "int32")
  | .int64 => do return .int64 (← readWord 8 "int64")
  | .int128 => do return .int128 (← readWord 16 "int128")
  | .int256 => do return .int256 (← readArray 32 "int256")
  | .uint8 => do return .uint8 (← readWord 1 "uint8")
  | .uint16 => do return .uint16 (← readWord 2 "uint16")
  | .uint32 => do return .uint32 (← readWord 4 "uint32")
  | .uint64 => do return .uint64 (← readWord 8 "uint64")
  | .double => do return .double (← readWord 8 "double")
  | .string32 => do return .bytes (← readBlob .string32)
  | .yson32 => do return .yson (← readBlob .yson32)
  | .variant8 | .variant16 => do
    let tag ← readVariantTag wireType
    let child ← lift (variantChild wireType children tag)
    let value ← child
    return .variant tag value
  | .repeatedVariant8 | .repeatedVariant16 => do
    let s ← get
    return .repeatedVariants (← decodeItems wireType children (s.input.length + 1))
  | .tuple => do return .tuple (← decodeFields children)

variable [ValueLayout]

mutual

def decodeValue : Schema → Decode Value
  | ⟨wireType, _, children⟩ => do
    charge ValueLayout.sizeOfValue
    decodeNode wireType (decodeAll children)

def decodeAll : List Schema → List (Decode Value)
  | [] => []
  | child :: children => decodeValue child :: decodeAll children

end

/-! ## Skipping -/

/-- The wire width and truncation context of a fixed-size type. -/
def fixedWidth : WireType → Option (Nat × String)
  | .boolean => some (1, "boolean")
  | .int8 => some (1, "int8")
  | .int16 => some (2, "int16")
  | .int32 => some (4, "int32")
  | .int64 => some (8, "int64")
  | .int128 => some (16, "int128")
  | .int256 => some (32, "int256")
  | .uint8 => some (1, "uint8")
  | .uint16 => some (2, "uint16")
  | .uint32 => some (4, "uint32")
  | .uint64 => some (8, "uint64")
  | .double => some (8, "double")
  | _ => none

/-- `io::copy` of `count` bytes into a sink: what there is of them is gone either way. -/
def skipExact (count : Nat) (context : String) : Decode Unit := fun s =>
  if (s.input.take count).length ≠ count then .error (.truncated context)
  else .ok ((), { s with input := s.input.drop count })

def skipBlob (wireType : WireType) : Decode Unit := do
  let length ← readWord 4 "blob length"
  let s ← get
  lift (checkBlobLength wireType length.toNat s.budget.maxBlobBytes)
  charge length.toNat
  skipExact length.toNat "blob payload"

def skipItems (wireType : WireType) (children : List (Decode Unit)) : Nat → Decode Unit
  | 0 => throw .outOfFuel
  | fuel + 1 => do
    let tag ← readVariantTag wireType
    if ← lift (isRepeatedVariantEnd wireType tag) then
      return ()
    let child ← lift (variantChild wireType children tag)
    child
    skipItems wireType children fuel

def skipFields : List (Decode Unit) → Decode Unit
  | [] => return ()
  | child :: children => do
    child
    skipFields children

/-- `skip_value` below the charge, given how to skip each child. -/
def skipNode (wireType : WireType) (children : List (Decode Unit)) : Decode Unit :=
  match fixedWidth wireType with
  | some (width, context) => skipExact width context
  | none =>
    match wireType with
    | .nothing => return ()
    | .string32 | .yson32 => skipBlob wireType
    | .variant8 | .variant16 => do
      let tag ← readVariantTag wireType
      let child ← lift (variantChild wireType children tag)
      child
    | .repeatedVariant8 | .repeatedVariant16 => do
      let s ← get
      skipItems wireType children (s.input.length + 1)
    | .tuple => skipFields children
    | _ => throw .unreachable

mutual

def skipValue : Schema → Decode Unit
  | ⟨wireType, _, children⟩ => do
    charge ValueLayout.sizeOfValue
    skipNode wireType (skipAll children)

def skipAll : List Schema → List (Decode Unit)
  | [] => []
  | child :: children => skipValue child :: skipAll children

end

end Decode

/-! ## The stream -/

/-- A decoder for a multiplexed input stream. -/
structure Decoder where
  input : List UInt8
  format : Format
  maxBlobBytes : Nat
  maxRowBytes : Nat

namespace Decoder

def new (input : List UInt8) (format : Format) : Decoder :=
  ⟨input, format, defaultMaxBlobBytes, defaultMaxRowBytes⟩

def withMaxBlobBytes (decoder : Decoder) (bytes : Nat) : Decoder :=
  { decoder with maxBlobBytes := bytes }

def withMaxRowBytes (decoder : Decoder) (bytes : Nat) : Decoder :=
  { decoder with maxRowBytes := bytes }

variable [ValueLayout]

/-- The next table-indexed row, or `none` at a clean end of stream. -/
def nextRow (decoder : Decoder) : Except CodecError (Option (Nat × Value) × Decoder) :=
  match decoder.input with
  | [] => .ok (none, decoder)
  | first :: rest => do
    let tag ← takeExact 1 "table Variant16 tag" rest
    let index := ofLeBytes (first :: tag.1.val)
    let schema ← (decoder.format.tableSchema index).mapError .invalidSchema
    let budget := RowBudget.new decoder.maxBlobBytes decoder.maxRowBytes
    let row ← (Decode.decodeValue schema).run ⟨tag.2, budget⟩
    return (some (index, row.1), { decoder with input := row.2.input })

/-- Advances past the next row without building it. -/
def skipRow (decoder : Decoder) : Except CodecError (Option Nat × Decoder) :=
  match decoder.input with
  | [] => .ok (none, decoder)
  | first :: rest => do
    let tag ← takeExact 1 "table Variant16 tag" rest
    let index := ofLeBytes (first :: tag.1.val)
    let schema ← (decoder.format.tableSchema index).mapError .invalidSchema
    let budget := RowBudget.new decoder.maxBlobBytes decoder.maxRowBytes
    let row ← (Decode.skipValue schema).run ⟨tag.2, budget⟩
    return (some index, { decoder with input := row.2.input })

end Decoder

end Skiff
end Ytsaurus
