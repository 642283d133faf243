import Ytsaurus.Client.Schema

/-!
# `Helpers/Derive.lean` — the derive macro for schemas (`ytsaurus-helpers`)

`expand` reads a struct, as tokens and not as types, and writes the function that gives its
schema. Here it gives the schema that the written function gives, or the compile error. Of a Rust
type only what the macro looks at is kept (`SynType`), and of an attribute what it says.
-/

set_option autoImplicit false

namespace Ytsaurus.Helpers

open Client (Column ColumnType TableSchema)

/-! ## Syntax -/

mutual

/-- `syn::Type`. Of a path, whether something stands in front of its last segment, the name of
that segment, and its arguments in angle brackets. -/
inductive SynType where
  | reference (elem : SynType)
  | slice (elem : SynType)
  | array (elem : SynType)
  | path (qualified : Bool) (ident : String) (arguments : Option (List GenericArgument))
  | other

inductive GenericArgument where
  | type (ty : SynType)
  | other

end

/-- What one item of a `#[yt(...)]` on the struct says. -/
inductive StructMeta where
  | nonStrict
  | uniqueKeys
  | cratePath
  | unknown
  deriving DecidableEq, Repr

/-- What one item of a `#[yt(...)]` on a field says. -/
inductive FieldMeta where
  | key
  | skip
  | name (value : String)
  | columnType (value : String)
  | unknown
  deriving DecidableEq, Repr

structure Field where
  ident : String
  ty : SynType
  metas : List FieldMeta

/-- `syn::DeriveInput`; without fields it is not a struct with named fields. -/
structure DeriveInput where
  metas : List StructMeta
  fields : Option (List Field)

/-- A `syn::Error`. -/
inductive DeriveError where
  | unknownStructOption
  | unknownFieldOption
  | notANamedStruct
  | duplicateName (first : String)
  | keyNotFirst (field : String)
  | notAColumnType (name : String)
  | unsupportedType (column : String)
  | uniqueKeysWithoutKey
  deriving DecidableEq, Repr

/-! ## Options -/

structure StructOptions where
  strict : Bool := true
  uniqueKeys : Bool := false

structure FieldOptions where
  key : Bool := false
  skip : Bool := false
  name : Option String := none
  columnType : Option String := none

def structOption (options : StructOptions) : StructMeta → Except DeriveError StructOptions
  | .nonStrict => .ok { options with strict := false }
  | .uniqueKeys => .ok { options with uniqueKeys := true }
  | .cratePath => .ok options
  | .unknown => .error .unknownStructOption

def structOptions (metas : List StructMeta) : Except DeriveError StructOptions :=
  metas.foldlM structOption {}

/-- What is said twice holds as it was said last. -/
def fieldOption (options : FieldOptions) : FieldMeta → Except DeriveError FieldOptions
  | .key => .ok { options with key := true }
  | .skip => .ok { options with skip := true }
  | .name value => .ok { options with name := some value }
  | .columnType value => .ok { options with columnType := some value }
  | .unknown => .error .unknownFieldOption

def fieldOptions (metas : List FieldMeta) : Except DeriveError FieldOptions :=
  metas.foldlM fieldOption {}

/-! ## Column types -/

/-- Three types that can never be required. -/
def NEVER_REQUIRED : List ColumnType := [.any, .null, .void]

/-- Every column type the derive knows, by wire name. -/
def TYPE_NAMES : List (String × ColumnType) :=
  [("int8", .int8), ("int16", .int16), ("int32", .int32), ("int64", .int64), ("uint8", .uint8),
    ("uint16", .uint16), ("uint32", .uint32), ("uint64", .uint64), ("float", .float),
    ("double", .double), ("boolean", .boolean), ("bool", .boolean), ("string", .string),
    ("utf8", .utf8), ("any", .any), ("yson", .any), ("date", .date), ("datetime", .datetime),
    ("timestamp", .timestamp), ("interval", .interval), ("date32", .date32),
    ("datetime64", .datetime64), ("timestamp64", .timestamp64), ("interval64", .interval64),
    ("json", .json), ("uuid", .uuid), ("void", .void), ("null", .null)]

def namedColumnType (name : String) : Except DeriveError ColumnType :=
  match TYPE_NAMES.find? fun entry => entry.1 == name with
  | some entry => .ok entry.2
  | none => .error (.notAColumnType name)

def isU8 : SynType → Bool
  | .path false "u8" none => true
  | _ => false

/-- The first argument that is a type. -/
def firstType : List GenericArgument → Option SynType
  | [] => none
  | .type ty :: _ => some ty
  | .other :: arguments => firstType arguments

def genericArgument (arguments : Option (List GenericArgument)) : Option SynType :=
  arguments.bind firstType

def optionInner : SynType → Option SynType
  | .path _ "Option" arguments => genericArgument arguments
  | _ => none

/-- The names that decide by themselves. -/
def namedRustType (ident : String) : Option ColumnType :=
  match ident with
  | "i8" => some .int8
  | "i16" => some .int16
  | "i32" => some .int32
  | "i64" => some .int64
  | "u8" => some .uint8
  | "u16" => some .uint16
  | "u32" => some .uint32
  | "u64" => some .uint64
  | "f32" => some .float
  | "f64" => some .double
  | "bool" => some .boolean
  | "String" => some .utf8
  | "str" => some .utf8
  | "YsonValue" => some .any
  | _ => none

mutual

def simpleColumnType : SynType → Option ColumnType
  | .reference elem => simpleColumnType elem
  | .slice elem => if isU8 elem then some .string else none
  | .array elem => if isU8 elem then some .string else none
  | .path _ ident arguments =>
    if ident = "Vec" then
      (genericArgument arguments).bind fun arg => if isU8 arg then some .string else none
    else if ident = "Cow" then simpleOfArguments arguments
    else namedRustType ident
  | .other => none

/-- What a `Cow` holds. -/
def simpleOfArguments : Option (List GenericArgument) → Option ColumnType
  | none => none
  | some arguments => simpleOfFirst arguments

def simpleOfFirst : List GenericArgument → Option ColumnType
  | [] => none
  | .type ty :: _ => simpleColumnType ty
  | .other :: arguments => simpleOfFirst arguments

end

/-- Maps a Rust type to a column type, and says whether the column is optional. -/
def columnTypeOf (ty : SynType) : Option (ColumnType × Bool) :=
  match optionInner ty with
  | some inner =>
    if (optionInner inner).isSome then none
    else (simpleColumnType inner).map fun columnType => (columnType, true)
  | none => (simpleColumnType ty).map fun columnType => (columnType, false)

/-! ## Columns -/

/-- The type of a column, and whether it is optional; an attribute names the type only. -/
def fieldType (options : FieldOptions) (ty : SynType) (name : String) :
    Except DeriveError (ColumnType × Bool) :=
  match options.columnType with
  | some named => (namedColumnType named).map fun columnType =>
      (columnType, (optionInner ty).isSome)
  | none =>
    match columnTypeOf ty with
    | some found => .ok found
    | none => .error (.unsupportedType name)

/-- The column that the macro writes. -/
def writeColumn (name : String) (columnType : ColumnType) (optional key : Bool) : Column :=
  let column := Column.new name columnType
  let column :=
    if optional || NEVER_REQUIRED.contains columnType then column else column.markRequired
  if key then column.key else column

/-- What the loop over the fields keeps. -/
structure Expansion where
  columns : List Column := []
  names : List String := []
  keysEnded : Bool := false
  anyKey : Bool := false

def Expansion.addKey (expansion : Expansion) (key : Bool) : Expansion :=
  if key then { expansion with anyKey := true } else { expansion with keysEnded := true }

/-- One turn of the loop. -/
def expandField (expansion : Expansion) (field : Field) : Except DeriveError Expansion :=
  match fieldOptions field.metas with
  | .error e => .error e
  | .ok options =>
    if options.skip then .ok expansion
    else
      let name := options.name.getD field.ident
      match expansion.names.find? fun seen => seen == name with
      | some first => .error (.duplicateName first)
      | none =>
        let expansion := { expansion with names := expansion.names ++ [name] }
        if options.key ∧ expansion.keysEnded then .error (.keyNotFirst field.ident)
        else
          let expansion := expansion.addKey options.key
          match fieldType options field.ty name with
          | .error e => .error e
          | .ok found =>
            let column := writeColumn name found.1 found.2 options.key
            .ok { expansion with columns := expansion.columns ++ [column] }

/-- `derive(TableRow)`: the schema that the written `table_schema` gives. -/
def expand (input : DeriveInput) : Except DeriveError TableSchema :=
  match structOptions input.metas with
  | .error e => .error e
  | .ok options =>
    match input.fields with
    | none => .error .notANamedStruct
    | some fields =>
      match fields.foldlM expandField {} with
      | .error e => .error e
      | .ok expansion =>
        if options.uniqueKeys ∧ expansion.anyKey = false then .error .uniqueKeysWithoutKey
        else .ok ⟨expansion.columns, options.strict, options.uniqueKeys⟩

end Ytsaurus.Helpers
