import Ytsaurus.Lib.SortedMap
import Ytsaurus.Yson.De

/-!
# `Yson/Typed.lean` — deserializing into Rust types

What `serde` and `serde_derive` put between a Rust type and the deserializer: the visitors of
the standard types, of derived structs and enums, and of `WithAttributes` (`attributes.rs`).
A type is a `Ty`, a value of one a `Datum`; `Ty.decode` is its `Deserialize` implementation.

Every visitor is a definition of its own, generic in the deserializers of the parts, so that
what is proved of a visitor does not mention `Ty`.
-/

set_option autoImplicit false

namespace Ytsaurus.Yson

inductive IntType where
  | i8 | i16 | i32 | i64 | i128 | u8 | u16 | u32 | u64 | u128
  deriving DecidableEq, Repr

def IntType.min : IntType → Int
  | .i8 => -0x80
  | .i16 => -0x8000
  | .i32 => -0x80000000
  | .i64 => -0x8000000000000000
  | .i128 => -0x80000000000000000000000000000000
  | _ => 0

def IntType.max : IntType → Int
  | .i8 => 0x7F
  | .i16 => 0x7FFF
  | .i32 => 0x7FFFFFFF
  | .i64 => 0x7FFFFFFFFFFFFFFF
  | .i128 => 0x7FFFFFFFFFFFFFFFFFFFFFFFFFFFFFFF
  | .u8 => 0xFF
  | .u16 => 0xFFFF
  | .u32 => 0xFFFFFFFF
  | .u64 => 0xFFFFFFFFFFFFFFFF
  | .u128 => 0xFFFFFFFFFFFFFFFFFFFFFFFFFFFFFFFF

/-- A value of a Rust type. A `BTreeMap` is the list of its entries in key order; a struct is
the list of its fields; a variant is known by its place among the variants. -/
inductive Datum where
  | unit
  | bool (v : Bool)
  | int (v : Int)
  | f32 (bits : UInt32)
  | f64 (v : F64)
  | char (utf8 : List UInt8)
  | str (s : List UInt8)
  | bytes (s : List UInt8)
  | none
  | some (v : Datum)
  | seq (vs : List Datum)
  | map (es : List (List UInt8 × Datum))
  | struct (fields : List Datum)
  | variant (index : Nat) (payload : Datum)
  | attributed (attributes value : Datum)

mutual

/-- The Rust types with a deserializer from here. A field has its name, its type and the
value `#[serde(default)]` gives it; arrays and tuple structs are tuples. -/
inductive Ty where
  | unit
  | bool
  | int (k : IntType)
  | f32
  | f64
  | char
  | str
  | bytes
  | option (t : Ty)
  | seq (t : Ty)
  | tuple (ts : List Ty)
  | newtypeStruct (t : Ty)
  | map (t : Ty)
  | struct (fields : List (List UInt8 × Ty × Option Datum))
  | enum (variants : List (List UInt8 × Variant))
  | withAttributes (attributes value : Ty)

inductive Variant where
  | unit
  | newtype (t : Ty)
  | tuple (ts : List Ty)
  | struct (fields : List (List UInt8 × Ty × Option Datum))

end

/-- What `as` makes of a number in another floating type. -/
class FloatCasts where
  f64OfInt : Int → F64
  f32OfInt : Int → UInt32
  f32OfF64 : F64 → UInt32

/-! ## Visitors of the standard types -/

def unitVisitor : Visitor Datum where
  visitUnit := .ok .unit

def boolVisitor : Visitor Datum where
  visitBool v := .ok (.bool v)

/-- The conversion every integer visitor makes: the value if the type holds it. -/
def IntType.visit (k : IntType) (found : Unexpected) (v : Int) : Except YsonError Datum :=
  if k.min ≤ v ∧ v ≤ k.max then .ok (.int v) else .error (.custom (.invalidValue found))

def intVisitor (k : IntType) : Visitor Datum where
  visitI64 v := k.visit (.signed v) v.toInt
  visitU64 v := k.visit (.unsigned v) v.toNat

def f64Visitor [FloatCasts] : Visitor Datum where
  visitF64 v := .ok (.f64 v)
  visitI64 v := .ok (.f64 (FloatCasts.f64OfInt v.toInt))
  visitU64 v := .ok (.f64 (FloatCasts.f64OfInt v.toNat))

def f32Visitor [FloatCasts] : Visitor Datum where
  visitF64 v := .ok (.f32 (FloatCasts.f32OfF64 v))
  visitI64 v := .ok (.f32 (FloatCasts.f32OfInt v.toInt))
  visitU64 v := .ok (.f32 (FloatCasts.f32OfInt v.toNat))

/-- One character: every other byte of valid UTF-8 continues one. -/
def isOneChar (s : List UInt8) : Bool := (s.filter fun b => !isContinuation b).length == 1

def charVisitor : Visitor Datum where
  visitStr s :=
    if isOneChar s then .ok (.char s) else .error (.custom (.invalidValue (.str s)))

def stringVisitor : Visitor (List UInt8) where
  visitStr := .ok
  visitBytes s := if utf8Valid s then .ok s else .error (.custom (.invalidValue (.bytes s)))

namespace De

variable {α : Type} [FloatText]

/-! ## Sequences -/

/-- Elements until there are none: `Vec`, `ByteBuf`. -/
def elements (element : De α) : Nat → List α → SeqAccess → De (List α × SeqAccess)
  | 0, _, _ => throw .outOfFuel
  | fuel + 1, vs, seq => do
    match ← nextElement element seq with
    | (some v, seq) => elements element fuel (vs ++ [v]) seq
    | (none, seq) => pure (vs, seq)

def vecVisitor (element : De Datum) : Visitor Datum where
  visitSeq seq := do
    let (vs, seq) ← elements element (← budget) [] seq
    pure (.seq vs, seq)

def u8 : De UInt8 := do
  match ← deserializeSkipping (intVisitor .u8) with
  | .int v => pure (UInt8.ofNat v.toNat)
  | _ => throw (.custom .unreachable)

def byteBufVisitor : Visitor Datum where
  visitStr s := .ok (.bytes s)
  visitBytes s := .ok (.bytes s)
  visitSeq seq := do
    let (vs, seq) ← elements u8 (← budget) [] seq
    pure (.bytes vs, seq)

/-- One part of a value read from a list: its deserializer and the default for it. -/
abbrev Part := De Datum × Option Datum

/-- What the `i`-th part is when `next_element` answered `v`. -/
def Part.orDefault (part : Part) (i : Nat) (v : Option Datum) : De Datum :=
  match v, part.2 with
  | some v, _ => pure v
  | none, some v => pure v
  | none, none => throw (.custom (.invalidLength i))

/-- The `visit_seq` of a tuple, and the one `serde_derive` writes for a struct: one
`next_element` for each part. -/
def positional : List Part → Nat → SeqAccess → De (List Datum × SeqAccess)
  | [], _, seq => pure ([], seq)
  | part :: parts, i, seq => do
    let (v, seq) ← nextElement part.1 seq
    let v ← part.orDefault i v
    let (vs, seq) ← positional parts (i + 1) seq
    pure (v :: vs, seq)

def required (de : De Datum) : Part := (de, none)

def tupleVisitor (parts : List (De Datum)) : Visitor Datum where
  visitSeq seq := do
    let (vs, seq) ← positional (parts.map required) 0 seq
    pure (.seq vs, seq)

/-- The visitor of a newtype struct, whose `visit_newtype_struct` nothing here calls. -/
def newtypeVisitor (inner : De Datum) : Visitor Datum where
  visitSeq seq := do
    let (v, seq) ← nextElement inner seq
    let v ← (required inner).orDefault 0 v
    pure (v, seq)

/-! ## Maps -/

def stringKey : KeySeed (List UInt8) := ⟨stringVisitor, deserializeSkipping stringVisitor⟩

/-- Entries until there are none: `BTreeMap<String, _>`. -/
def entries (value : De Datum) :
    Nat → List (List UInt8 × Datum) → MapAccess → De (List (List UInt8 × Datum) × MapAccess)
  | 0, _, _ => throw .outOfFuel
  | fuel + 1, es, map => do
    match ← nextKey stringKey map with
    | (some key, map) =>
      let v ← nextValue value map
      entries value fuel (SortedMap.insert key v es) map
    | (none, map) => pure (es, map)

def mapVisitor (value : De Datum) : Visitor Datum where
  visitMap map := do
    let (es, map) ← entries value (← budget) [] map
    pure (.map es, map)

/-! ## `IgnoredAny` -/

def ignoredKey (element : De Unit) (visitor : Visitor Unit) : KeySeed Unit := ⟨visitor, element⟩

def ignoredEntries (element : De Unit) (key : KeySeed Unit) : Nat → MapAccess → De MapAccess
  | 0, _ => throw .outOfFuel
  | fuel + 1, map => do
    match ← nextKey key map with
    | (some _, map) =>
      nextValue element map
      ignoredEntries element key fuel map
    | (none, map) => pure map

/-- What `IgnoredAny` makes of a key, and of everything that is not a container. -/
def ignoredScalar : Visitor Unit where
  visitUnit := .ok ()
  visitBool _ := .ok ()
  visitI64 _ := .ok ()
  visitU64 _ := .ok ()
  visitF64 _ := .ok ()
  visitStr _ := .ok ()
  visitBytes _ := .ok ()

def ignoredVisitor (element : De Unit) : Visitor Unit :=
  { ignoredScalar with
    visitSeq := fun seq => do
      let (_, seq) ← elements element (← budget) [] seq
      pure ((), seq)
    visitMap := fun map => do
      let map ← ignoredEntries element (ignoredKey element ignoredScalar) (← budget) map
      pure ((), map) }

/-- `IgnoredAny::deserialize`; the fuel bounds the nesting. -/
def ignoredAny : Nat → De Unit
  | 0 => throw .outOfFuel
  | fuel + 1 => deserializeSkipping (ignoredVisitor (ignoredAny fuel))

/-- A value nobody asked for. -/
def ignored : De Unit := do
  ignoredAny (← budget)

/-! ## Structs -/

/-- A field of a derived struct: `missing` is what the field is when the map does not have
it. -/
structure FieldDe where
  name : List UInt8
  value : De Datum
  default : Option Datum
  missing : Option Datum

def FieldDe.part (field : FieldDe) : Part := (field.value, field.default)

/-- `__FieldVisitor`: the place of the field, or `__ignore`. -/
def fieldVisitor (names : List (List UInt8)) : Visitor (Option Nat) where
  visitU64 v := .ok (if v.toNat < names.length then some v.toNat else none)
  visitStr s := .ok (names.findIdx? (· == s))
  visitBytes s := .ok (names.findIdx? (· == s))

def fieldKey (names : List (List UInt8)) : KeySeed (Option Nat) :=
  ⟨fieldVisitor names, deserializeSkipping (fieldVisitor names)⟩

/-- One entry of `visit_map`: no field may come twice, and an unknown one is skipped. -/
def fieldEntry (fields : List FieldDe) (slots : List (Option Datum)) (map : MapAccess) :
    Option Nat → De (List (Option Datum))
  | none => do
    nextValue ignored map
    pure slots
  | some i =>
    match fields[i]? with
    | none => throw (.custom .unreachable)
    | some field => do
      if (slots.getD i none).isSome then throw (.custom (.duplicateField field.name))
      let v ← nextValue field.value map
      pure (slots.set i (some v))

def fieldEntries (fields : List FieldDe) :
    Nat → List (Option Datum) → MapAccess → De (List (Option Datum) × MapAccess)
  | 0, _, _ => throw .outOfFuel
  | fuel + 1, slots, map => do
    match ← nextKey (fieldKey (fields.map FieldDe.name)) map with
    | (some key, map) =>
      let slots ← fieldEntry fields slots map key
      fieldEntries fields fuel slots map
    | (none, map) => pure (slots, map)

/-- The value of a field after the last entry. -/
def FieldDe.finish (field : FieldDe) (slot : Option Datum) : Except YsonError Datum :=
  match slot, field.default, field.missing with
  | some v, _, _ => .ok v
  | none, some v, _ => .ok v
  | none, none, some v => .ok v
  | none, none, none => .error (.custom (.missingField field.name))

def finishFields : List FieldDe → List (Option Datum) → Except YsonError (List Datum)
  | field :: fields, slot :: slots => do
    let v ← field.finish slot
    let vs ← finishFields fields slots
    .ok (v :: vs)
  | _, _ => .ok []

def structVisitor (fields : List FieldDe) : Visitor Datum where
  visitSeq seq := do
    let (vs, seq) ← positional (fields.map FieldDe.part) 0 seq
    pure (.struct vs, seq)
  visitMap map := do
    let (slots, map) ← fieldEntries fields (← budget) (fields.map fun _ => none) map
    let vs ← ofExcept (finishFields fields slots)
    pure (.struct vs, map)

/-! ## Enums -/

inductive VariantDe where
  | unit
  | newtype (de : De Datum)
  | tuple (parts : List (De Datum))
  | struct (fields : List FieldDe)

def variantVisitor (names : List (List UInt8)) : Visitor Nat where
  visitU64 v :=
    if v.toNat < names.length then .ok v.toNat
    else .error (.custom (.invalidValue (.unsigned v)))
  visitStr s := (names.findIdx? (· == s)).elim (.error (.custom (.unknownVariant s))) .ok
  visitBytes s := (names.findIdx? (· == s)).elim (.error (.custom (.unknownVariant s))) .ok

def VariantDe.read (isMapWrapped : Bool) : VariantDe → De Datum
  | .unit => do
    unitVariant isMapWrapped
    pure .unit
  | .newtype de => newtypeVariant de
  | .tuple parts => containerVariant (tupleVisitor parts)
  | .struct fields => containerVariant (structVisitor fields)

/-- The derived `visit_enum`. -/
def visitEnum (variants : List (List UInt8 × VariantDe)) (isMapWrapped : Bool) : De Datum := do
  let i ← deserializeSkipping (variantVisitor (variants.map Prod.fst))
  match variants[i]? with
  | none => throw (.custom .unreachable)
  | some (_, variant) =>
    let payload ← variant.read isMapWrapped
    pure (.variant i payload)

/-! ## `WithAttributes` -/

def orMissing : Option Datum → De Datum
  | some v => pure v
  | none => throw (.custom .missingElement)

def withAttributesVisitor (attributes value : De Datum) : Visitor Datum where
  visitSeq seq := do
    let (a, seq) ← nextElement attributes seq
    let a ← orMissing a
    let (v, seq) ← nextElement value seq
    let v ← orMissing v
    pure (.attributed a v, seq)

end De

/-! ## Types -/

/-- What `missing_field` gives a type: only an `Option` has something. -/
def Ty.missing : Ty → Option Datum
  | .option _ => some .none
  | _ => none

def optionDatum : Option Datum → Datum
  | some v => .some v
  | none => .none

variable [FloatText] [FloatCasts]

open De

mutual

/-- `T::deserialize`. -/
def Ty.decode : Ty → De Datum
  | .unit => deserializeSkipping unitVisitor
  | .bool => deserializeSkipping boolVisitor
  | .int k => deserializeSkipping (intVisitor k)
  | .f32 => deserializeSkipping f32Visitor
  | .f64 => deserializeSkipping f64Visitor
  | .char => deserializeSkipping charVisitor
  | .str => do
    let s ← deserializeSkipping stringVisitor
    pure (.str s)
  | .bytes => deserializeSkipping byteBufVisitor
  | .option t => do
    let v ← deserializeOption t.decode
    pure (optionDatum v)
  | .seq t => deserializeSkipping (vecVisitor t.decode)
  | .tuple ts => deserializeSkipping (tupleVisitor (decodeParts ts))
  | .newtypeStruct t => deserializeSkipping (newtypeVisitor t.decode)
  | .map t => deserializeSkipping (mapVisitor t.decode)
  -- the name of a struct matters only if it is that of `WithAttributes`
  | .struct fields =>
    deserializeStruct [] (fields.map fun f => f.1) (structVisitor (decodeFields fields))
  | .enum variants => deserializeEnum (visitEnum (decodeVariants variants))
  | .withAttributes attributes value =>
    deserializeStruct attributesStruct [ascii "$attributes", ascii "$value"]
      (withAttributesVisitor attributes.decode value.decode)

def decodeParts : List Ty → List (De Datum)
  | [] => []
  | t :: ts => t.decode :: decodeParts ts

def decodeFields : List (List UInt8 × Ty × Option Datum) → List FieldDe
  | [] => []
  | (name, t, default) :: fields => ⟨name, t.decode, default, t.missing⟩ :: decodeFields fields

def decodeVariants : List (List UInt8 × Variant) → List (List UInt8 × VariantDe)
  | [] => []
  | (name, variant) :: variants => (name, variant.decode) :: decodeVariants variants

def Variant.decode : Variant → VariantDe
  | .unit => .unit
  | .newtype t => .newtype t.decode
  | .tuple ts => .tuple (decodeParts ts)
  | .struct fields => .struct (decodeFields fields)

end

/-- `from_slice::<T>`. -/
def Ty.fromSlice (t : Ty) (bytes : List UInt8) (format : YsonFormat) : Except YsonError Datum :=
  Yson.fromSlice t.decode bytes format

end Ytsaurus.Yson
