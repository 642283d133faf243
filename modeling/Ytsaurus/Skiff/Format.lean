import Ytsaurus.Lib.ExceptList
import Ytsaurus.Lib.Utf8
import Ytsaurus.Skiff.Schema
import Ytsaurus.Yson.Value

/-!
# `Skiff/Format.lean` — a format as the YSON value of a request (`schema.rs`)

`<table_skiff_schemas=[…];skiff_schema_registry={…}>skiff`: a schema is a map, a reference to
the registry a string beginning with `$`. Writing is total; reading refuses whatever the
grammar does not name, and checks the schemas again before it builds a `Format`.
-/

set_option autoImplicit false

namespace Ytsaurus
namespace Skiff

open Utf8 (asBytes fromUtf8)
open Yson (YsonValue YsonNode)

/-! ## Wire types -/

namespace WireType

/-- The spelling used in a schema's `wire_type` field. -/
def asStr : WireType → String
  | nothing => "nothing"
  | boolean => "boolean"
  | int8 => "int8"
  | int16 => "int16"
  | int32 => "int32"
  | int64 => "int64"
  | int128 => "int128"
  | int256 => "int256"
  | uint8 => "uint8"
  | uint16 => "uint16"
  | uint32 => "uint32"
  | uint64 => "uint64"
  | double => "double"
  | string32 => "string32"
  | yson32 => "yson32"
  | variant8 => "variant8"
  | variant16 => "variant16"
  | repeatedVariant8 => "repeated_variant8"
  | repeatedVariant16 => "repeated_variant16"
  | tuple => "tuple"

def parse : String → Option WireType
  | "nothing" => some nothing
  | "boolean" => some boolean
  | "int8" => some int8
  | "int16" => some int16
  | "int32" => some int32
  | "int64" => some int64
  | "int128" => some int128
  | "int256" => some int256
  | "uint8" => some uint8
  | "uint16" => some uint16
  | "uint32" => some uint32
  | "uint64" => some uint64
  | "double" => some double
  | "string32" => some string32
  | "yson32" => some yson32
  | "variant8" => some variant8
  | "variant16" => some variant16
  | "repeated_variant8" => some repeatedVariant8
  | "repeated_variant16" => some repeatedVariant16
  | "tuple" => some tuple
  | _ => none

end WireType

/-! ## Writing -/

/-- A `BTreeMap<Vec<u8>, YsonValue>`, seen as its entries. -/
abbrev Fields := List (List UInt8 × YsonValue)

def stringValue (text : String) : YsonValue := .bare (.string (asBytes text))

namespace Schema

mutual

/-- Renders this schema as the YSON map used in `table_skiff_schemas`. -/
def toYson : Schema → YsonValue
  | ⟨wireType, name, children⟩ =>
    let fields : Fields := SortedMap.insert (ascii "wire_type") (stringValue wireType.asStr) []
    let fields := match name with
      | some name => SortedMap.insert (ascii "name") (stringValue name) fields
      | none => fields
    let fields :=
      if children.isEmpty then fields
      else SortedMap.insert (ascii "children") (.bare (.list (allToYson children))) fields
    .bare (.map fields)

def allToYson : List Schema → List YsonValue
  | [] => []
  | child :: children => child.toYson :: allToYson children

end

end Schema

def SchemaRef.toYson : SchemaRef → YsonValue
  | .inline schema => schema.toYson
  | .registry name => stringValue ("$" ++ name)

def Registry.toYson (registry : Registry) : YsonValue :=
  .bare (.map (SortedMap.extend []
    (registry.entries.map fun entry => (asBytes entry.1, entry.2.toYson))))

/-- Renders `<table_skiff_schemas=[...];...>skiff` for requests. -/
def FormatParts.toYson (parts : FormatParts) : YsonValue :=
  let attributes : Fields := SortedMap.insert (ascii "table_skiff_schemas")
    (.bare (.list (parts.tableSchemas.map SchemaRef.toYson))) []
  let attributes :=
    if parts.schemaRegistry.entries.isEmpty then attributes
    else SortedMap.insert (ascii "skiff_schema_registry") parts.schemaRegistry.toYson attributes
  ⟨some attributes, .string (ascii "skiff")⟩

/-! ## Reading -/

def rejectAttributes (value : YsonValue) (context : String) : Except SchemaError Unit :=
  if value.attributes.isSome then .error (.unexpectedAttributes context) else .ok ()

def mapFields (value : YsonValue) (context : String) : Except SchemaError Fields :=
  match value.node with
  | .map fields => .ok fields
  | _ => .error (.expectedMap context)

def listItems (value : YsonValue) (context : String) : Except SchemaError (List YsonValue) :=
  match value.node with
  | .list items => .ok items
  | _ => .error (.expectedList context)

def asUtf8String (value : YsonValue) (context field : String) : Except SchemaError String := do
  rejectAttributes value context
  match value.node with
  | .string bytes =>
    match fromUtf8 bytes with
    | some text => pure text
    | none => throw (.invalidUtf8 field)
  | _ => throw (.expectedString context field)

def requiredString (fields : Fields) (field context : String) : Except SchemaError String :=
  match SortedMap.lookup (ascii field) fields with
  | none => .error (.missingField context field)
  | some value => asUtf8String value context field

def optionalString (fields : Fields) (field context : String) :
    Except SchemaError (Option String) :=
  match SortedMap.lookup (ascii field) fields with
  | none => .ok none
  | some value => (asUtf8String value context field).map some

/-- The first field, in key order, that the grammar does not name. -/
def rejectUnknown (fields : Fields) (allowed : List (List UInt8)) (context : String) :
    Except SchemaError Unit :=
  match fields.find? fun field => !allowed.contains field.1 with
  | some field => .error (.unknownField context field.1)
  | none => .ok ()

namespace Schema

/-- The checks of `from_yson` before it looks into the map. -/
def openMap (input : YsonValue) : Except SchemaError Fields := do
  rejectAttributes input "schema"
  let fields ← mapFields input "schema"
  rejectUnknown fields [ascii "wire_type", ascii "name", ascii "children"] "schema"
  pure fields

def childItems (fields : Fields) : Except SchemaError (List YsonValue) :=
  match SortedMap.lookup (ascii "children") fields with
  | none => .ok []
  | some childValues => listItems childValues "schema.children"

def parseWireType (fields : Fields) : Except SchemaError WireType := do
  let wireType ← requiredString fields "wire_type" "schema"
  match WireType.parse wireType with
  | some wireType => pure wireType
  | none => throw (.unknownWireType wireType)

theorem openMap_lt {input : YsonValue} {fields : Fields} (h : openMap input = .ok fields) :
    sizeOf fields + 1 < sizeOf input := by
  obtain ⟨attributes, node⟩ := input
  obtain ⟨_, -, h⟩ := ExceptList.bind_eq_ok.mp h
  obtain ⟨found, hfields, h⟩ := ExceptList.bind_eq_ok.mp h
  obtain ⟨_, -, h⟩ := ExceptList.bind_eq_ok.mp h
  obtain rfl : found = fields := Except.ok.inj h
  cases node with
  | map entries =>
    obtain rfl : entries = found := Except.ok.inj hfields
    simp only [YsonValue.mk.sizeOf_spec, YsonNode.map.sizeOf_spec]
    omega
  | _ => cases hfields

theorem childItems_lt {fields : Fields} {items : List YsonValue}
    (h : childItems fields = .ok items) : items = [] ∨ sizeOf items < sizeOf fields := by
  unfold childItems at h
  cases found : SortedMap.lookup (ascii "children") fields with
  | none =>
    rw [found] at h
    exact Or.inl (Except.ok.inj h).symm
  | some childValues =>
    rw [found] at h
    obtain ⟨attributes, node⟩ := childValues
    cases node with
    | list values =>
      obtain rfl : values = items := Except.ok.inj h
      have hmem := List.sizeOf_lt_of_mem (SortedMap.mem_of_lookup found)
      simp only [Prod.mk.sizeOf_spec, YsonValue.mk.sizeOf_spec, YsonNode.list.sizeOf_spec] at hmem
      exact Or.inr (by omega)
    | _ => cases h

mutual

/-- Parses and structurally validates a schema YSON map. -/
def fromYson (input : YsonValue) : Except SchemaError Schema :=
  match _hfields : openMap input with
  | .error e => .error e
  | .ok fields => do
    let wireType ← parseWireType fields
    let name ← optionalString fields "name" "schema"
    match _hitems : childItems fields with
    | .error e => .error e
    | .ok items => do
      let children ← allFromYson items
      let schema : Schema := ⟨wireType, name, children⟩
      schema.validate
      pure schema
termination_by (sizeOf input, 0)
decreasing_by
  have hlt := openMap_lt _hfields
  rcases childItems_lt _hitems with rfl | hitem
  · exact Prod.Lex.left _ _ (by simp; omega)
  · exact Prod.Lex.left _ _ (by omega)

def allFromYson : List YsonValue → Except SchemaError (List Schema)
  | [] => .ok []
  | item :: items => do
    let schema ← fromYson item
    let schemas ← allFromYson items
    pure (schema :: schemas)
termination_by items => (sizeOf items, 1)

end

end Schema

def SchemaRef.fromYson (input : YsonValue) : Except SchemaError SchemaRef := do
  rejectAttributes input "table schema reference"
  match input.node with
  | .string (0x24 :: name) =>
    -- `name.len() > 1`: the `$` alone is not a reference.
    if name.isEmpty then throw .invalidRegistryReference
    match fromUtf8 name with
    | some name => pure (.registry name)
    | none => throw (.invalidUtf8 "table schema registry reference")
  | .string _ => throw .invalidRegistryReference
  | .map _ => (Schema.fromYson input).map .inline
  | _ => throw .invalidSchemaReference

/-- The loop over the entries of the registry's map. -/
def registryEntries : List (String × Schema) → Fields → Except SchemaError (List (String × Schema))
  | registry, [] => .ok registry
  | registry, (name, schema) :: fields =>
    match fromUtf8 name with
    | none => .error (.invalidUtf8 "format.skiff_schema_registry key")
    | some name => do
      let schema ← Schema.fromYson schema
      registryEntries (SortedMap.insert name schema registry) fields

theorem registryEntries_sorted {fields : Fields} {registry entries : List (String × Schema)}
    (h : SortedMap.Sorted registry) (he : registryEntries registry fields = .ok entries) :
    SortedMap.Sorted entries := by
  induction fields generalizing registry with
  | nil =>
    obtain rfl : registry = entries := Except.ok.inj he
    exact h
  | cons field fields ih =>
    rw [registryEntries] at he
    cases hname : fromUtf8 field.1 with
    | none =>
      rw [hname] at he
      cases he
    | some name =>
      rw [hname] at he
      obtain ⟨schema, -, he⟩ := ExceptList.bind_eq_ok.mp he
      exact ih h.insert he

def Registry.ofFields (fields : Fields) : Except SchemaError Registry :=
  match h : registryEntries [] fields with
  | .error e => .error e
  | .ok entries => .ok ⟨entries, registryEntries_sorted .nil h⟩

def Registry.fromYson (value : YsonValue) : Except SchemaError Registry := do
  rejectAttributes value "format.skiff_schema_registry"
  let fields ← mapFields value "format.skiff_schema_registry"
  Registry.ofFields fields

/-- Parses and validates a Skiff format declaration. -/
def Format.fromYson (input : YsonValue) : Except SchemaError Format := do
  match input.node with
  | .string name => if name ≠ ascii "skiff" then throw .formatMustBeSkiff
  | _ => throw .formatMustBeSkiff
  match input.attributes with
  | none => throw (.missingFormatAttribute "table_skiff_schemas")
  | some attributes =>
    rejectUnknown attributes [ascii "table_skiff_schemas", ascii "skiff_schema_registry"]
      "format attributes"
    match SortedMap.lookup (ascii "table_skiff_schemas") attributes with
    | none => throw (.missingFormatAttribute "table_skiff_schemas")
    | some tableValues =>
      let items ← listItems tableValues "format.table_skiff_schemas"
      let tableSchemas ← items.mapM SchemaRef.fromYson
      let schemaRegistry ← match SortedMap.lookup (ascii "skiff_schema_registry") attributes with
        | none => pure .empty
        | some value => Registry.fromYson value
      Format.fromParts tableSchemas schemaRegistry

end Skiff
end Ytsaurus
