import Ytsaurus.Lib.SortedMap
import Mathlib.Data.String.Basic

/-!
# `Skiff/Schema.lean` — schemas and formats of a Skiff stream

A Skiff value carries no type of its own: what its bytes mean is given by a *schema*, a tree
of wire types. A *format* declares one schema per table of a stream, either in place or by
name through a registry. Both are checked before a stream is touched, and a `Format` here is
one that passed: it carries the check as a field, as the source's private fields do.
-/

set_option autoImplicit false

namespace Ytsaurus
namespace Skiff

inductive WireType where
  | nothing
  | boolean
  | int8
  | int16
  | int32
  | int64
  | int128
  | int256
  | uint8
  | uint16
  | uint32
  | uint64
  | double
  | string32
  | yson32
  | variant8
  | variant16
  | repeatedVariant8
  | repeatedVariant16
  | tuple
  deriving DecidableEq, Repr

namespace WireType

/-- Whether this type is a simple payload rather than a schema container. -/
def isSimple : WireType → Bool
  | boolean | int8 | int16 | int32 | int64 | int128 | int256 | uint8 | uint16 | uint32
  | uint64 | double | string32 | yson32 => true
  | nothing | variant8 | variant16 | repeatedVariant8 | repeatedVariant16 | tuple => false

end WireType

/-- One node in a Skiff schema tree. -/
structure Schema where
  wireType : WireType
  name : Option String
  children : List Schema

/-- A schema or format declaration refused before a stream is read. `unknownField` keeps the
field's bytes where the source keeps their lossy rendering. -/
inductive SchemaError where
  | unknownWireType (name : String)
  | unexpectedChildren (wireType : WireType) (count : Nat)
  | tooManyChildren (wireType : WireType) (count maximum : Nat)
  | emptyTableSchemas
  | unknownRegistryReference (name : String)
  | missingTableSchema (index : Nat)
  | formatMustBeSkiff
  | missingFormatAttribute (name : String)
  | invalidRegistryReference
  | invalidSchemaReference
  | unexpectedAttributes (context : String)
  | expectedMap (context : String)
  | expectedList (context : String)
  | missingField (context field : String)
  | expectedString (context field : String)
  | invalidUtf8 (field : String)
  | unknownField (context : String) (field : List UInt8)
  | tableSchemaRootMustBeTuple (found : WireType)
  | tableSchemaChildMissingName (index : Nat)
  deriving DecidableEq, Repr

namespace Schema

def leaf (wireType : WireType) : Schema := ⟨wireType, none, []⟩

def named (name : String) (wireType : WireType) : Schema := ⟨wireType, some name, []⟩

/-! ## Structural safety

A leaf has no children, and a variant no more than its tag can name; a repeated variant one
fewer, since the all-ones tag ends the sequence. -/

def checkMaximum (wireType : WireType) (count maximum : Nat) : Except SchemaError Unit :=
  if count > maximum then .error (.tooManyChildren wireType count maximum) else .ok ()

def checkChildren (wireType : WireType) (count : Nat) : Except SchemaError Unit :=
  if wireType = .nothing ∨ wireType.isSimple then
    if count ≠ 0 then .error (.unexpectedChildren wireType count) else .ok ()
  else
    match wireType with
    | .variant8 => checkMaximum .variant8 count 256
    | .variant16 => checkMaximum .variant16 count 65536
    | .repeatedVariant8 => checkMaximum .repeatedVariant8 count 255
    | .repeatedVariant16 => checkMaximum .repeatedVariant16 count 65535
    -- The leaves were answered above: this is `tuple`, which has no limit.
    | _ => .ok ()

mutual

def validate : Schema → Except SchemaError Unit
  | ⟨wireType, _, children⟩ => do
    checkChildren wireType children.length
    validateAll children

def validateAll : List Schema → Except SchemaError Unit
  | [] => .ok ()
  | child :: children => do
    validate child
    validateAll children

end

/-- The extra rules of a table's schema: a tuple of named columns. -/
def checkColumnNames : Nat → List Schema → Except SchemaError Unit
  | _, [] => .ok ()
  | index, child :: children =>
    if child.name.all String.isEmpty then .error (.tableSchemaChildMissingName index)
    else checkColumnNames (index + 1) children

def validateTableSchema (schema : Schema) : Except SchemaError Unit :=
  if schema.wireType ≠ .tuple then .error (.tableSchemaRootMustBeTuple schema.wireType)
  else checkColumnNames 0 schema.children

end Schema

/-! ## Formats -/

/-- A table schema placed inline in a format or referenced through its registry. -/
inductive SchemaRef where
  | inline (schema : Schema)
  | registry (name : String)

/-- A `BTreeMap<String, Schema>`. -/
structure Registry where
  entries : List (String × Schema)
  sorted : SortedMap.Sorted entries

def Registry.empty : Registry := ⟨[], .nil⟩

def Registry.get (registry : Registry) (name : String) : Option Schema :=
  SortedMap.lookup name registry.entries

/-- The two fields of a format, before they are checked. -/
structure FormatParts where
  tableSchemas : List SchemaRef
  schemaRegistry : Registry

namespace FormatParts

/-- Resolves the schema for table `index`. -/
def tableSchema (parts : FormatParts) (index : Nat) : Except SchemaError Schema :=
  match parts.tableSchemas[index]? with
  | none => .error (.missingTableSchema index)
  | some (.inline schema) => .ok schema
  | some (.registry name) =>
    match parts.schemaRegistry.get name with
    | none => .error (.unknownRegistryReference name)
    | some schema => .ok schema

def checkReference (parts : FormatParts) (index : Nat) (reference : SchemaRef) :
    Except SchemaError Unit := do
  match reference with
  | .inline schema => schema.validate
  | .registry name =>
    if (parts.schemaRegistry.get name).isNone then
      throw (.unknownRegistryReference name)
  (← parts.tableSchema index).validateTableSchema

/-- Validates all format references and schema trees. -/
def validate (parts : FormatParts) : Except SchemaError Unit := do
  if parts.tableSchemas.isEmpty then throw .emptyTableSchemas
  parts.schemaRegistry.entries.forM fun entry => entry.2.validate
  parts.tableSchemas.zipIdx.forM fun entry => parts.checkReference entry.2 entry.1

end FormatParts

/-- A `<...>skiff` format declaration that passed its check. -/
structure Format extends FormatParts where
  valid : toFormatParts.validate = .ok ()

namespace Format

def fromParts (tableSchemas : List SchemaRef) (schemaRegistry : Registry) :
    Except SchemaError Format :=
  match h : FormatParts.validate ⟨tableSchemas, schemaRegistry⟩ with
  | .error e => .error e
  | .ok () => .ok ⟨⟨tableSchemas, schemaRegistry⟩, h⟩

/-- A format with inline table schemas only. -/
def new (tableSchemas : List SchemaRef) : Except SchemaError Format :=
  fromParts tableSchemas .empty

end Format

end Skiff
end Ytsaurus
