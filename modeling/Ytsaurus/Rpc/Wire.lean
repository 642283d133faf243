import Ytsaurus.Bus.Packet
import Ytsaurus.Lib.Positional

/-!
# `Rpc/Wire.lean` — the row wire format (`wire.rs`)

A rowset is a row count and the rows; a row is a value count and the values, or a marker in
place of the count for a row that is absent; a value is a header word and the payload that
its type calls for. Every element fills a whole number of eight-byte words.

`encodeRowset` checks four limits before it writes the first byte, and `decodeRowset` checks
three of them again on what it reads. An API response carries a rowset cut into attachments
anywhere (`decodeRowsetAttachments` in `client.rs`).

A signed integer is the `BitVec` of its two's-complement bits, a double the bits of its IEEE
form. The bytes of a blob are a list; that they share storage is not modelled.
-/

set_option autoImplicit false

namespace Ytsaurus
namespace Rpc
namespace Wire

open LittleEndian
open Bus (slice)

/-- `SerializationAlignment`. -/
def alignment : Nat := 8

/-- The value-count word that marks a null row. -/
def nullRowMarker : Nat := 0xffffffffffffffff

def maxRowsPerRowset : Nat := 5 * 1024 * 1024

def maxValuesPerRow : Nat := 1024

def maxValueLength : Nat := 16 * 1024 * 1024

/-- One rowset is one RPC attachment. -/
def maxRowsetSize : Nat := Bus.maxPartSize

def usizeMax : Nat := 0xffffffffffffffff

/-- `EValueType`; the numbering is not dense. -/
inductive ValueType where
  | null
  | int64
  | uint64
  | double
  | boolean
  | string
  | any
  | composite
  deriving DecidableEq, Repr

namespace ValueType

def toWire : ValueType → UInt8
  | null => 0x02
  | int64 => 0x03
  | uint64 => 0x04
  | double => 0x05
  | boolean => 0x06
  | string => 0x10
  | any => 0x11
  | composite => 0x12

def fromWire : UInt8 → Option ValueType
  | 0x02 => some null
  | 0x03 => some int64
  | 0x04 => some uint64
  | 0x05 => some double
  | 0x06 => some boolean
  | 0x10 => some string
  | 0x11 => some any
  | 0x12 => some composite
  | _ => none

end ValueType

/-- One value of a row. -/
inductive Value where
  | null
  | int64 (value : BitVec 64)
  | uint64 (value : BitVec 64)
  | double (bits : BitVec 64)
  | boolean (value : Bool)
  | string (bytes : List UInt8)
  | any (bytes : List UInt8)
  | composite (bytes : List UInt8)
  deriving DecidableEq, Repr

def paddingFor (length : Nat) : Nat := (alignment - length % alignment) % alignment

namespace Value

def valueType : Value → ValueType
  | null => .null
  | int64 _ => .int64
  | uint64 _ => .uint64
  | double _ => .double
  | boolean _ => .boolean
  | string _ => .string
  | any _ => .any
  | composite _ => .composite

def blob : Value → Option (List UInt8)
  | string bytes | any bytes | composite bytes => some bytes
  | _ => none

/-- The payload word of the scalar types. -/
def scalar : Value → Option (BitVec 64)
  | int64 value => some value
  | uint64 value => some value
  | double bits => some bits
  | boolean value => some (if value then 1 else 0)
  | _ => none

/-- The number of bytes this value occupies on the wire, header included. -/
def wireSize (value : Value) : Nat :=
  let payload :=
    match value with
    | null => 0
    | string bytes | any bytes | composite bytes => bytes.length + paddingFor bytes.length
    | _ => alignment
  alignment + payload

end Value

/-- A value together with the column it belongs to. -/
structure UnversionedValue where
  id : BitVec 16
  aggregate : Bool
  value : Value
  deriving DecidableEq, Repr

def UnversionedValue.wireSize (value : UnversionedValue) : Nat := value.value.wireSize

abbrev Row := List UnversionedValue

/-- A row that may be absent, which is not the same as a row with no values. -/
abbrev MaybeRow := Option Row

inductive WireError where
  | truncated (offset needed : Nat)
  | tooManyRows (count : Nat)
  | tooManyValues (row count : Nat)
  | valueTooLong (length : Nat)
  | rowsetTooLarge (size : Nat)
  | allocationFailed (size : Nat)
  | unknownValueType (value : UInt8)
  | trailingBytes (count : Nat)
  /-- The panic at a slice that is not within the input. -/
  | outOfBounds
  deriving DecidableEq, Repr

/-! ## Encoding -/

/-- The size that one row adds to a rowset. -/
def rowSize : MaybeRow → Nat
  | none => alignment
  | some row => alignment + (row.map UnversionedValue.wireSize).sum

/-- The number of bytes `encodeRowset` will produce for a valid rowset. -/
def encodedSize (rows : List MaybeRow) : Nat := alignment + (rows.map rowSize).sum

def addToRowsetSize (size additional : Nat) : Except WireError Nat :=
  if size + additional > usizeMax then .error (.rowsetTooLarge usizeMax)
  else if size + additional > maxRowsetSize then .error (.rowsetTooLarge (size + additional))
  else .ok (size + additional)

def validateValue (value : UnversionedValue) : Except WireError Unit :=
  match value.value.blob with
  | some blob =>
    if blob.length > maxValueLength then .error (.valueTooLong (min blob.length 0xffffffff))
    else .ok ()
  | none => .ok ()

/-- The loop over the values of a row. -/
def validateRow (size : Nat) : Row → Except WireError Nat
  | [] => .ok size
  | value :: row => do
    validateValue value
    let size ← addToRowsetSize size value.wireSize
    validateRow size row

/-- The loop over the rows, of which the next one has this index. -/
def validateRows (index size : Nat) : List MaybeRow → Except WireError Nat
  | [] => .ok size
  | none :: rows => do
    let size ← addToRowsetSize size alignment
    validateRows (index + 1) size rows
  | some row :: rows => do
    let size ← addToRowsetSize size alignment
    if row.length > maxValuesPerRow then
      throw (.tooManyValues index row.length)
    let size ← validateRow size row
    validateRows (index + 1) size rows

/-- Validates all of the limits the writer relies on and returns the encoded length. -/
def validateAndMeasure (rows : List MaybeRow) : Except WireError Nat :=
  if rows.length > maxRowsPerRowset then .error (.tooManyRows rows.length)
  else validateRows 0 alignment rows

/-- The header word; its length is that of the blob, if there is one. -/
def valueHeader (value : UnversionedValue) : List UInt8 :=
  toLeBytes 2 value.id ++ [value.value.valueType.toWire] ++ [if value.aggregate then 1 else 0] ++
    leBytes 4 (value.value.blob.elim 0 List.length)

/-- The payload: a word, or a blob that is padded with zeroes. -/
def valuePayload (value : Value) : List UInt8 :=
  match value.scalar, value.blob with
  | some scalar, _ => toLeBytes 8 scalar
  | none, some blob => blob ++ List.replicate (paddingFor blob.length) 0
  | none, none => []

def encodeValueUnchecked (value : UnversionedValue) : List UInt8 :=
  valueHeader value ++ valuePayload value.value

def encodeRowUnchecked : MaybeRow → List UInt8
  | none => leBytes 8 nullRowMarker
  | some row => leBytes 8 row.length ++ row.flatMap encodeValueUnchecked

def encodeRowsetUnchecked (rows : List MaybeRow) : List UInt8 :=
  leBytes 8 rows.length ++ rows.flatMap encodeRowUnchecked

/-- Encodes a rowset; `reserve` says whether the allocator grants a buffer of a size. -/
def encodeRowset (reserve : Nat → Bool) (rows : List MaybeRow) : Except WireError (List UInt8) := do
  let size ← validateAndMeasure rows
  if reserve size then
    return encodeRowsetUnchecked rows
  else
    throw (.allocationFailed size)

/-- Encodes a rowset, appending to an existing buffer. -/
def encodeRowsetInto (rows : List MaybeRow) (out : List UInt8) :
    Except WireError Unit × List UInt8 :=
  match validateAndMeasure rows with
  | .error e => (.error e, out)
  | .ok _ => (.ok (), out ++ encodeRowsetUnchecked rows)

/-! ## Decoding -/

abbrev Reader := Positional.Reader UInt8

/-- A step of the reader. -/
abbrev Read := StateT Reader (Except WireError)

namespace Reader

/-- Checks that so many bytes are left. -/
def need (count : Nat) : Read Unit := do
  let reader ← get
  if reader.input.length - reader.offset < count then
    throw (.truncated reader.offset (count - (reader.input.length - reader.offset)))

/-- The next bytes; `need` has found them. -/
def takeBytes (count : Nat) : Read (List UInt8) := do
  let reader ← get
  if reader.offset + count ≤ reader.input.length then
    set { reader with offset := reader.offset + count }
    return slice reader.input reader.offset count
  else
    throw .outOfBounds

def readU64 : Read (BitVec 64) := do
  need 8
  let bytes ← takeBytes 8
  return fromLeBytes 64 bytes

/-- The word of a scalar value. -/
def readScalar (value : BitVec 64 → Value) : Read Value := do
  let word ← readU64
  return value word

/-- The bytes of a string-like value and its padding. -/
def readBlob (value : List UInt8 → Value) (length : Nat) : Read Value := do
  if length > maxValueLength then
    throw (.valueTooLong length)
  let padded := length + paddingFor length
  need padded
  let bytes ← takeBytes padded
  return value (bytes.take length)

def readPayload (length : Nat) : ValueType → Read Value
  | .null => return .null
  | .int64 => readScalar .int64
  | .uint64 => readScalar .uint64
  | .double => readScalar .double
  -- Any word that is not zero is true.
  | .boolean => readScalar fun word => .boolean (word ≠ 0)
  | .string => readBlob .string length
  | .any => readBlob .any length
  | .composite => readBlob .composite length

def readValue : Read UnversionedValue := do
  need 8
  let header ← takeBytes 8
  let id := fromLeBytes 16 (slice header 0 2)
  let rawType := header.getD 2 0
  let aggregate := header.getD 3 0 != 0
  let length := ofLeBytes (slice header 4 4)
  match ValueType.fromWire rawType with
  | none => throw (.unknownValueType rawType)
  | some valueType =>
    let value ← readPayload length valueType
    return ⟨id, aggregate, value⟩

/-- The loop over the values of a row. -/
def readValues : Nat → Read Row
  | 0 => return []
  | count + 1 => do
    let value ← readValue
    let row ← readValues count
    return value :: row

/-- The loop over the rows, of which the next one has this index. -/
def readRows (index : Nat) : Nat → Read (List MaybeRow)
  | 0 => return []
  | count + 1 => do
    let valueCount ← readU64
    if valueCount.toNat = nullRowMarker then
      let rows ← readRows (index + 1) count
      return none :: rows
    else if valueCount.toNat > maxValuesPerRow then
      throw (.tooManyValues index valueCount.toNat)
    else
      let row ← readValues valueCount.toNat
      let rows ← readRows (index + 1) count
      return some row :: rows

def readRowset : Read (List MaybeRow) := do
  let rowCount ← readU64
  if rowCount.toNat > maxRowsPerRowset then
    throw (.tooManyRows rowCount.toNat)
  let rows ← readRows 0 rowCount.toNat
  let reader ← get
  if reader.offset ≠ reader.input.length then
    throw (.trailingBytes (reader.input.length - reader.offset))
  return rows

end Reader

def decodeRowset (input : List UInt8) : Except WireError (List MaybeRow) :=
  (Reader.readRowset ⟨input, 0⟩).map Prod.fst

/-! ## Attachments -/

/-- What `decodeRowsetAttachments` reads of a rowset descriptor. -/
structure TRowsetDescriptor where
  wireFormatVersion : Option Int
  deriving DecidableEq, Repr

def currentWireFormatVersion : Int := 1

inductive Error where
  | protocol (message : String)
  | wire (e : WireError)
  deriving DecidableEq, Repr

/-- Decodes the rows that an API response carries in its attachments. -/
def decodeRowsetAttachments (attachments : List (List UInt8))
    (descriptor : Option TRowsetDescriptor) : Except Error (List MaybeRow) := do
  if let some version := descriptor.bind TRowsetDescriptor.wireFormatVersion then
    if version ≠ currentWireFormatVersion then
      throw (.protocol (s!"the proxy replied with wire format version {version}, " ++
        s!"and this client speaks {currentWireFormatVersion}"))
  match attachments with
  | [] => return []
  | [single] => (decodeRowset single).mapError .wire
  | many => (decodeRowset many.flatten).mapError .wire

end Wire
end Rpc
end Ytsaurus
