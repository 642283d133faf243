import Ytsaurus.Yson.Value

/-!
# `Yson/Ser.lean` — the serializer (`ser.rs`)

A `Serialize` implementation turns a value into a sequence of calls on the serializer; what
calls, is a tree over the serde data model, `Data`. `Data.serialize` runs those calls: it is
`Serializer` with all its `Compound` modes. `YsonValue.toData` is the implementation for
`YsonValue` (`node.rs`), and `to_vec` puts the two together.
-/

set_option autoImplicit false

namespace Ytsaurus.Yson

/-! ## Scalars -/

/-- The decimal digits of a number below `10 ^ fuel`. -/
def decimalLoop : Nat → Nat → List UInt8
  | 0, _ => []
  | fuel + 1, n =>
    if n < 10 then [UInt8.ofNat (0x30 + n)]
    else decimalLoop fuel (n / 10) ++ [UInt8.ofNat (0x30 + n % 10)]

/-- `itoa` on an unsigned number: a `u64` has at most twenty digits. -/
def decimal (n : Nat) : List UInt8 := decimalLoop 20 n

def itoaI64 (v : Int64) : List UInt8 :=
  if v < 0 then 0x2D :: decimal v.toInt.natAbs else decimal v.toInt.natAbs

def itoaU64 (v : UInt64) : List UInt8 := decimal v.toNat

def isSafeUnquoted (b : List UInt8) : Bool :=
  (match b with
    | f :: _ => isAlpha f || f == 0x5F
    | [] => false) && b.all isUnquotedChar

/-- The hexadecimal digit of a half byte. -/
def hexChar (n : UInt8) : UInt8 := if n < 10 then 0x30 + n else 0x61 + (n - 10)

def hexEscape (b : UInt8) : List UInt8 := [0x5C, 0x78, hexChar (b >>> 4), hexChar (b &&& 0x0F)]

/-- The escapes both quoted forms share. -/
def commonEscape (b : UInt8) : Option (List UInt8) :=
  match b with
  | 0x22 => some [0x5C, 0x22] -- `\"`
  | 0x5C => some [0x5C, 0x5C] -- `\\`
  | 0x0A => some [0x5C, 0x6E] -- `\n`
  | 0x0D => some [0x5C, 0x72] -- `\r`
  | 0x09 => some [0x5C, 0x74] -- `\t`
  | _ => none

/-- A byte of a quoted string as `write_string` spells it: control bytes in hexadecimal. -/
def escapeStr (b : UInt8) : List UInt8 :=
  match commonEscape b with
  | some e => e
  | none => if b ≤ 0x1F then hexEscape b else [b]

/-- A byte of a quoted string as `serialize_bytes` spells it: everything outside printable
ASCII in hexadecimal. -/
def escapeBytes (b : UInt8) : List UInt8 :=
  match commonEscape b with
  | some e => e
  | none => if 0x20 ≤ b && b ≤ 0x7E then [b] else hexEscape b

def quoted (escape : UInt8 → List UInt8) (v : List UInt8) : List UInt8 :=
  0x22 :: (v.flatMap escape ++ [0x22])

/-- `v.len() as i64`. -/
def lenAsI64 (v : List UInt8) : Int64 := Int64.ofNat v.length

structure Serializer where
  output : List UInt8
  isBinary : Bool
  isWritingAttributes : Bool
  deriving DecidableEq, Repr

namespace Serializer

variable [FloatText]

def new (isBinary : Bool) : Serializer := ⟨[], isBinary, false⟩

def extend (ser : Serializer) (bytes : List UInt8) : Serializer :=
  { ser with output := ser.output ++ bytes }

def push (ser : Serializer) (byte : UInt8) : Serializer := ser.extend [byte]

def writeEntity (ser : Serializer) : Serializer := ser.push 0x23

def encodeBool (isBinary v : Bool) : List UInt8 :=
  if isBinary then [if v then 0x05 else 0x04] else if v then ascii "%true" else ascii "%false"

def encodeI64 (isBinary : Bool) (v : Int64) : List UInt8 :=
  if isBinary then 0x02 :: writeVarint v else itoaI64 v

def encodeU64 (isBinary : Bool) (v : UInt64) : List UInt8 :=
  if isBinary then 0x06 :: writeUvarint v else itoaU64 v ++ [0x75]

def encodeF64 (isBinary : Bool) (v : F64) : List UInt8 :=
  if isBinary then 0x03 :: v.toLeBytes
  else if v.isNan then ascii "%nan"
  else if v.isInfinite then (if v.isSignNegative then ascii "%-inf" else ascii "%inf")
  else
    let s := FloatText.format v
    if s.any isFloatMark then s else s ++ ascii ".0"

/-- `write_string`. -/
def encodeStr (isBinary : Bool) (v : List UInt8) : List UInt8 :=
  if isBinary then 0x01 :: (writeVarint (lenAsI64 v) ++ v)
  else if isSafeUnquoted v then v
  else quoted escapeStr v

/-- `serialize_bytes`. -/
def encodeBytes (isBinary : Bool) (v : List UInt8) : List UInt8 :=
  if isBinary then 0x01 :: (writeVarint (lenAsI64 v) ++ v) else quoted escapeBytes v

def writeBool (ser : Serializer) (v : Bool) : Serializer := ser.extend (encodeBool ser.isBinary v)
def writeI64 (ser : Serializer) (v : Int64) : Serializer := ser.extend (encodeI64 ser.isBinary v)
def writeU64 (ser : Serializer) (v : UInt64) : Serializer := ser.extend (encodeU64 ser.isBinary v)
def writeF64 (ser : Serializer) (v : F64) : Serializer := ser.extend (encodeF64 ser.isBinary v)
def writeString (ser : Serializer) (v : List UInt8) : Serializer :=
  ser.extend (encodeStr ser.isBinary v)
def writeBytes (ser : Serializer) (v : List UInt8) : Serializer :=
  ser.extend (encodeBytes ser.isBinary v)

end Serializer

/-! ## Compound values -/

inductive CompoundMode where
  | seq
  | map
  | attr
  | attrWrapper
  | variantSeq
  | variantMap
  | «struct» (attrOpen bodyOpen valueWritten : Bool)
  deriving DecidableEq, Repr

structure Compound where
  ser : Serializer
  first : Bool
  mode : CompoundMode
  deriving DecidableEq, Repr

namespace Compound

variable [FloatText]

def checkFirst (c : Compound) : Compound :=
  { c with ser := if c.first then c.ser else c.ser.push 0x3B, first := false }

/-- The part of `SerializeStruct::serialize_field` before the value is written; `none` when
the value is not written at all. -/
def beginField (c : Compound) (key : List UInt8) : Except YsonError (Option Compound) :=
  match c.mode with
  | .attrWrapper =>
    if key = ascii "$attributes" then
      .ok (some { c with ser := { c.ser with isWritingAttributes := true } })
    else if key = valueKey then .ok (some c)
    else .ok none
  | .struct attrOpen bodyOpen valueWritten =>
    match key with
    | 0x40 :: attrName =>
      if bodyOpen || valueWritten then .error (.custom (.attributeAfterValue attrName))
      else
        let c := if attrOpen then c else { c with ser := c.ser.push 0x3C, first := true }
        let c := c.checkFirst
        .ok (some { c with
          ser := (c.ser.writeString attrName).push 0x3D
          mode := .struct true bodyOpen valueWritten })
    | key =>
      let c := if attrOpen then { c with ser := c.ser.push 0x3E } else c
      if key = valueKey then
        if bodyOpen || valueWritten then .error (.custom .valueBesideFields)
        else .ok (some { c with mode := .struct false bodyOpen true })
      else if valueWritten then .error (.custom (.fieldAfterValue key))
      else
        let c := if bodyOpen then c else { c with ser := c.ser.push 0x7B, first := true }
        let c := c.checkFirst
        .ok (some { c with
          ser := (c.ser.writeString key).push 0x3D
          mode := .struct false true valueWritten })
  | _ =>
    let c := c.checkFirst
    .ok (some { c with ser := (c.ser.writeString key).push 0x3D })

/-- `SerializeStruct::end`. -/
def endStruct (c : Compound) : Serializer :=
  match c.mode with
  | .attr => c.ser.push 0x3E
  | .seq | .variantSeq => c.ser.push 0x5D
  | .struct attrOpen bodyOpen valueWritten =>
    if attrOpen then c.ser.extend (ascii ">#")
    else if bodyOpen then c.ser.push 0x7D
    else if !valueWritten then c.ser.extend (ascii "\x7b\x7d")
    else c.ser
  | .attrWrapper => c.ser
  | _ => c.ser.push 0x7D

end Compound

/-! ## The serde data model -/

/-- The calls a `Serialize` implementation makes. `unit` is also `None` and a unit struct;
`seq` is also a tuple and a tuple struct. -/
inductive Data where
  | bool (v : Bool)
  | i64 (v : Int64)
  | u64 (v : UInt64)
  | f64 (v : F64)
  | str (v : List UInt8)
  | bytes (v : List UInt8)
  | unit
  | some (v : Data)
  | newtypeStruct (v : Data)
  | unitVariant (variant : List UInt8)
  | newtypeVariant (variant : List UInt8) (v : Data)
  | seq (items : List Data)
  | tupleVariant (variant : List UInt8) (items : List Data)
  | map (entries : List (Data × Data))
  | «struct» (name : List UInt8) (fields : List (List UInt8 × Data))
  | structVariant (variant : List UInt8) (fields : List (List UInt8 × Data))

variable [FloatText]

mutual

def Data.serialize : Data → Serializer → Except YsonError Serializer
  | .bool v, ser => .ok (ser.writeBool v)
  | .i64 v, ser => .ok (ser.writeI64 v)
  | .u64 v, ser => .ok (ser.writeU64 v)
  | .f64 v, ser => .ok (ser.writeF64 v)
  | .str v, ser => .ok (ser.writeString v)
  | .bytes v, ser => .ok (ser.writeBytes v)
  | .unit, ser => .ok ser.writeEntity
  | .some v, ser => v.serialize ser
  | .newtypeStruct v, ser => v.serialize ser
  | .unitVariant variant, ser => .ok (ser.writeString variant)
  | .newtypeVariant variant v, ser => do
    let ser ← v.serialize (((ser.push 0x7B).writeString variant).push 0x3D)
    .ok (ser.push 0x7D)
  | .seq items, ser => do
    let c ← serializeElements items ⟨ser.push 0x5B, true, .seq⟩
    .ok (c.ser.push 0x5D)
  | .tupleVariant variant items, ser => do
    let ser := ((ser.push 0x7B).writeString variant).extend (ascii "=[")
    let c ← serializeElements items ⟨ser, true, .variantSeq⟩
    .ok (c.ser.extend (ascii "]\x7d"))
  | .map entries, ser => do
    let (op, mode) :=
      if ser.isWritingAttributes then (0x3C, CompoundMode.attr) else (0x7B, CompoundMode.map)
    let c ← serializeEntries entries ⟨{ ser.push op with isWritingAttributes := false }, true, mode⟩
    .ok (c.ser.push (if c.mode = .attr then 0x3E else 0x7D))
  | .struct name fields, ser => do
    let c ← serializeFields fields
      (if name = De.attributesStruct then ⟨ser, true, .attrWrapper⟩
        else if ser.isWritingAttributes then
          ⟨{ ser.push 0x3C with isWritingAttributes := false }, true, .attr⟩
        else ⟨ser, true, .struct false false false⟩)
    .ok c.endStruct
  | .structVariant variant fields, ser => do
    let ser := ((ser.push 0x7B).writeString variant).extend (ascii "=\x7b")
    let c ← serializeFields fields ⟨ser, true, .variantMap⟩
    .ok (c.ser.extend (ascii "\x7d\x7d"))

/-- `serialize_element` for each item. -/
def serializeElements : List Data → Compound → Except YsonError Compound
  | [], c => .ok c
  | v :: items, c => do
    let c := c.checkFirst
    let ser ← v.serialize c.ser
    serializeElements items { c with ser := ser }

/-- `serialize_key` and `serialize_value` for each entry. -/
def serializeEntries : List (Data × Data) → Compound → Except YsonError Compound
  | [], c => .ok c
  | (key, value) :: entries, c => do
    let c := c.checkFirst
    let ser ← key.serialize c.ser
    let ser ← value.serialize (ser.push 0x3D)
    serializeEntries entries { c with ser := ser }

/-- `serialize_field` for each field. -/
def serializeFields : List (List UInt8 × Data) → Compound → Except YsonError Compound
  | [], c => .ok c
  | (key, value) :: fields, c => do
    match ← c.beginField key with
    | some c =>
      let ser ← value.serialize c.ser
      serializeFields fields { c with ser := ser }
    | none => serializeFields fields c

end

/-- `to_vec`. -/
def toVec (data : Data) (format : YsonFormat) : Except YsonError (List UInt8) :=
  (data.serialize (.new format.isBinary)).map Serializer.output

/-! ## `Serialize for YsonValue` -/

/-- `ByteString`: UTF-8 goes through `serialize_str`, anything else through
`serialize_bytes`. -/
def byteString (bytes : List UInt8) : Data :=
  if utf8Valid bytes then .str bytes else .bytes bytes

mutual

def YsonValue.toData : YsonValue → Data
  | ⟨some (e :: es), node⟩ =>
    .struct De.attributesStruct
      [(ascii "$attributes", .map (byteKeyedMap (e :: es))), (valueKey, node.toData)]
  | ⟨_, node⟩ => node.toData

def YsonNode.toData : YsonNode → Data
  | .entity => .unit
  | .boolean v => .bool v
  | .int64 v => .i64 v
  | .uint64 v => .u64 v
  | .double v => .f64 v
  | .string bytes => byteString bytes
  | .list items => .seq (valuesToData items)
  | .map entries => .map (byteKeyedMap entries)

def valuesToData : List YsonValue → List Data
  | [] => []
  | v :: vs => v.toData :: valuesToData vs

/-- `ByteKeyedMap`. -/
def byteKeyedMap : List (List UInt8 × YsonValue) → List (Data × Data)
  | [] => []
  | (k, v) :: es => (byteString k, v.toData) :: byteKeyedMap es

end

/-- `to_vec` on a `YsonValue`. -/
def YsonValue.toVec (v : YsonValue) (format : YsonFormat) : Except YsonError (List UInt8) :=
  Yson.toVec v.toData format

end Ytsaurus.Yson
