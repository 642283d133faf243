/-!
# `Client/Schema.lean` — table schemas (`schema.rs`)

What a table promises about its columns. `validate` checks locally what a create would be refused
for; its errors keep what their texts are made of.
-/

set_option autoImplicit false

namespace Ytsaurus.Client

/-- A column's type. -/
inductive ColumnType where
  | int8 | int16 | int32 | int64 | uint8 | uint16 | uint32 | uint64
  | float | double | boolean
  | string | utf8
  | any
  | date | datetime | timestamp | interval | date32 | datetime64 | timestamp64 | interval64
  | json | uuid
  | void | null
  deriving DecidableEq, Repr

namespace ColumnType

/-- Whether a column of this type may be required. -/
def canBeRequired : ColumnType → Bool
  | any | null | void => false
  | _ => true

/-- Parses a wire name in either spelling. -/
def parse (name : String) : Option ColumnType :=
  match name with
  | "int8" => some int8
  | "int16" => some int16
  | "int32" => some int32
  | "int64" => some int64
  | "uint8" => some uint8
  | "uint16" => some uint16
  | "uint32" => some uint32
  | "uint64" => some uint64
  | "float" => some float
  | "double" => some double
  | "boolean" => some boolean
  | "bool" => some boolean
  | "string" => some string
  | "utf8" => some utf8
  | "any" => some any
  | "yson" => some any
  | "date" => some date
  | "datetime" => some datetime
  | "timestamp" => some timestamp
  | "interval" => some interval
  | "date32" => some date32
  | "datetime64" => some datetime64
  | "timestamp64" => some timestamp64
  | "interval64" => some interval64
  | "json" => some json
  | "uuid" => some uuid
  | "void" => some void
  | "null" => some null
  | _ => none

end ColumnType

/-- Which way a key column is sorted. -/
inductive SortOrder where
  | ascending
  | descending
  deriving DecidableEq, Repr

/-- One column of a table. -/
structure Column where
  name : String
  columnType : ColumnType
  required : Bool
  sortOrder : Option SortOrder
  deriving DecidableEq, Repr

namespace Column

/-- A column that may be missing. -/
def new (name : String) (columnType : ColumnType) : Column where
  name := name
  columnType := columnType
  required := false
  sortOrder := none

/-- `Column::required`. -/
def markRequired (column : Column) : Column := { column with required := true }

/-- Makes this an ascending key column. -/
def key (column : Column) : Column := { column with sortOrder := some .ascending }

/-- `sort_order().is_some()`. -/
def isKey (column : Column) : Bool := column.sortOrder.isSome

end Column

/-- What a table promises about its rows. -/
structure TableSchema where
  columns : List Column
  strict : Bool
  uniqueKeys : Bool
  deriving DecidableEq, Repr

/-- Why a schema is invalid. -/
inductive SchemaError where
  | tooManyColumns (columns : Nat)
  | emptyName
  | nameTooLong (name : String) (bytes : Nat)
  | reservedName (name : String)
  | appearsTwice (name : String)
  | cannotBeRequired (name : String) (columnType : ColumnType)
  /-- A key column, and the column it would have to be moved before. -/
  | keyNotFirst (stray before : String)
  | uniqueKeysWithoutKeys
  deriving DecidableEq, Repr

namespace TableSchema

/-- The cluster's own ceiling. -/
def MAX_COLUMNS : Nat := 32000

/-- Longest column name a cluster accepts, in bytes. -/
def MAX_NAME : Nat := 256

/-- The loop over the columns, with the names before. -/
def checkColumns : List String → List Column → Except SchemaError Unit
  | _, [] => .ok ()
  | seen, column :: columns =>
    if column.name = "" then .error .emptyName
    else if column.name.utf8ByteSize > MAX_NAME then
      .error (.nameTooLong column.name column.name.utf8ByteSize)
    else if column.name.toList.head? = some '@' then .error (.reservedName column.name)
    else if column.name ∈ seen then .error (.appearsTwice column.name)
    else if column.required ∧ column.columnType.canBeRequired = false then
      .error (.cannotBeRequired column.name column.columnType)
    else checkColumns (column.name :: seen) columns

/-- Key columns must be a prefix, and there is one if keys are unique. -/
def checkKeys (schema : TableSchema) : Except SchemaError Unit :=
  let keys := (schema.columns.takeWhile Column.isKey).length
  let rest := schema.columns.drop keys
  match rest.find? Column.isKey, rest with
  | some stray, first :: _ => .error (.keyNotFirst stray.name first.name)
  | _, _ => if schema.uniqueKeys ∧ keys = 0 then .error .uniqueKeysWithoutKeys else .ok ()

def validate (schema : TableSchema) : Except SchemaError Unit :=
  if schema.columns.length > MAX_COLUMNS then .error (.tooManyColumns schema.columns.length)
  else
    match checkColumns [] schema.columns with
    | .error e => .error e
    | .ok () => checkKeys schema

end TableSchema

end Ytsaurus.Client
