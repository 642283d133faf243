import Ytsaurus.Skiff.Wire

/-!
# `Job/Skiff.lean` — Skiff job input (`skiff.rs`)

The control information of a Skiff row is in named columns at the beginning of its table's
schema. `SkiffJobReader` takes them off the row and keeps the positions they announce, one
`ControlState` per table.
-/

set_option autoImplicit false

namespace Ytsaurus.Job

open Skiff

/-- `JobError`, as far as Skiff input raises it. `panicked` is an index out of bounds. -/
inductive SkiffError where
  | skiff (error : CodecError)
  | badSkiffSchema (table : Nat) (reason : String)
  | badSkiffControl (table : Nat) (column reason : String)
  | panicked
  deriving DecidableEq, Repr

inductive SystemColumn where
  | keySwitch
  | rowIndex
  | rangeIndex
  deriving DecidableEq, Repr

def optionalInt64 (schema : Schema) : Bool :=
  match schema with
  | ⟨.variant8, _, [nothing, value]⟩ => nothing.wireType == .nothing && value.wireType == .int64
  | _ => false

namespace SystemColumn

def name : SystemColumn → String
  | keySwitch => "$key_switch"
  | rowIndex => "$row_index"
  | rangeIndex => "$range_index"

/-- The column a name announces. -/
def ofName (name : String) : Option SystemColumn :=
  if name = "$key_switch" then some .keySwitch
  else if name = "$row_index" then some .rowIndex
  else if name = "$range_index" then some .rangeIndex
  else none

/-- Whether the schema is the one its column has to have, and why it is not. -/
def checkSchema (schema : Schema) : SystemColumn → Except String Unit
  | .keySwitch =>
    if schema.wireType ≠ .boolean ∨ schema.children ≠ [] then .error "$key_switch must be boolean"
    else .ok ()
  | .rowIndex =>
    if optionalInt64 schema then .ok () else .error "$row_index must be variant8<nothing;int64>"
  | .rangeIndex =>
    if optionalInt64 schema then .ok () else .error "$range_index must be variant8<nothing;int64>"

def fromSchema (table : Nat) (schema : Schema) : Except SkiffError (Option SystemColumn) :=
  match schema.name.bind ofName with
  | none => .ok none
  | some column =>
    match column.checkSchema schema with
    | .error reason => .error (.badSkiffSchema table reason)
    | .ok () => .ok (some column)

end SystemColumn

/-- The system columns of a table, the first columns of its rows. -/
structure TableLayout where
  systemColumns : List SystemColumn

namespace TableLayout

/-- The loop over the columns; `seen` are the system columns so far, in their order. -/
def scan (table : Nat) (dataStarted : Bool) (seen : List SystemColumn) :
    List Schema → Except SkiffError (List SystemColumn)
  | [] => .ok seen
  | child :: children => do
    match ← SystemColumn.fromSchema table child with
    | none => scan table true seen children
    | some system =>
      if dataStarted then
        .error (.badSkiffSchema table (system.name ++ " appears after a data column"))
      else if system ∈ seen then
        .error (.badSkiffSchema table (system.name ++ " appears more than once"))
      else scan table dataStarted (seen ++ [system]) children

def fromSchema (table : Nat) (schema : Schema) : Except SkiffError TableLayout :=
  (scan table false [] schema.children).map TableLayout.mk

end TableLayout

/-- Where a table's rows are; an `i64` is its two's-complement bits. -/
structure ControlState where
  rowIndex : BitVec 64
  rangeIndex : BitVec 64
  deriving DecidableEq, Repr

def ControlState.default : ControlState := ⟨0, 0⟩

def i64Max : BitVec 64 := BitVec.intMax 64

/-- `saturating_add(1)`. -/
def saturatingSucc (index : BitVec 64) : BitVec 64 := if index = i64Max then i64Max else index + 1

def badControl (table : Nat) (column reason : String) : SkiffError :=
  .badSkiffControl table column reason

def booleanControl (table : Nat) (column : String) : Value → Except SkiffError Bool
  | .boolean value => .ok value
  | _ => .error (badControl table column "expected boolean")

def optionalIndexValue (table : Nat) (column : String) :
    Value → Except SkiffError (Option (BitVec 64))
  | .variant tag inner =>
    match tag, inner with
    | 0, .nothing => .ok none
    | 1, .int64 index => .ok (some index)
    | 1, _ => .error (badControl table column "tag 1 must carry int64")
    | tag, _ => .error (badControl table column ("unexpected variant tag " ++ toString tag.toNat))
  | _ => .error (badControl table column "expected variant8<nothing;int64>")

def applyRowIndex (state : ControlState) (table : Nat) (value : Value) :
    Except SkiffError ControlState :=
  (optionalIndexValue table "$row_index" value).map fun index =>
    match index with
    | some index => { state with rowIndex := index }
    | none => { state with rowIndex := saturatingSucc state.rowIndex }

def applyRangeIndex (state : ControlState) (table : Nat) (value : Value) :
    Except SkiffError ControlState :=
  (optionalIndexValue table "$range_index" value).map fun index =>
    match index with
    | some index => { state with rangeIndex := index }
    | none => state

/-- One Skiff input row with its job-control values. -/
structure SkiffRow where
  tableIndex : Nat
  rowIndex : BitVec 64
  rangeIndex : BitVec 64
  keySwitch : Bool
  value : Value

structure SkiffJobReader where
  decoder : Decoder
  layouts : List TableLayout
  state : List ControlState

namespace SkiffJobReader

/-- The layout of every table of the format. -/
def layoutsOf (format : Format) : Except SkiffError (List TableLayout) :=
  (List.range format.tableSchemas.length).mapM fun index =>
    match format.tableSchema index with
    -- `Format` validates every reference
    | .error _ => .error .panicked
    | .ok schema => TableLayout.fromSchema index schema

def new (input : List UInt8) (format : Format) : Except SkiffError SkiffJobReader :=
  (layoutsOf format).map fun layouts =>
    ⟨.new input format, layouts, List.replicate layouts.length .default⟩

def withMaxBlobBytes (reader : SkiffJobReader) (bytes : Nat) : SkiffJobReader :=
  { reader with decoder := reader.decoder.withMaxBlobBytes bytes }

def withMaxRowBytes (reader : SkiffJobReader) (bytes : Nat) : SkiffJobReader :=
  { reader with decoder := reader.decoder.withMaxRowBytes bytes }

/-- One system column of a row. -/
def applyColumn (table : Nat) (column : SystemColumn) (value : Value) (keySwitch : Bool)
    (state : ControlState) : Except SkiffError (Bool × ControlState) :=
  match column with
  | .keySwitch => (booleanControl table "$key_switch" value).map fun v => (v, state)
  | .rowIndex => (applyRowIndex state table value).map fun state => (keySwitch, state)
  | .rangeIndex => (applyRangeIndex state table value).map fun state => (keySwitch, state)

/-- The system columns, zipped with the first values of the row. -/
def applyColumns (table : Nat) : List SystemColumn → List Value → Bool → ControlState →
    Except SkiffError (Bool × ControlState)
  | column :: columns, value :: values, keySwitch, state =>
    (applyColumn table column value keySwitch state).bind fun applied =>
      applyColumns table columns values applied.1 applied.2
  | _, _, keySwitch, state => .ok (keySwitch, state)

/-- Only a schema without any system column counts its rows. -/
def countRow (layout : TableLayout) (state : ControlState) : ControlState :=
  if layout.systemColumns.isEmpty then { state with rowIndex := saturatingSucc state.rowIndex }
  else state

/-- A decoded row, in the table whose layout and state are given. -/
def takeRow (table : Nat) (layout : TableLayout) (state : ControlState) (values : List Value) :
    Except SkiffError (SkiffRow × ControlState) :=
  let systemColumns := layout.systemColumns.length
  if values.length < systemColumns then
    .error (.badSkiffSchema table "decoded row is shorter than its system-column prefix")
  else
    (applyColumns table layout.systemColumns (values.take systemColumns) false state).map
      fun applied =>
        let state := countRow layout applied.2
        (⟨table, state.rowIndex, state.rangeIndex, applied.1, .tuple (values.drop systemColumns)⟩,
          state)

variable [ValueLayout]

/-- The next input row, or `none` at a clean end of stream. -/
def nextRow (reader : SkiffJobReader) :
    Except SkiffError (Option SkiffRow × SkiffJobReader) :=
  match reader.decoder.nextRow with
  | .error e => .error (.skiff e)
  | .ok (none, decoder) => .ok (none, { reader with decoder := decoder })
  | .ok (some (table, .tuple values), decoder) =>
    match reader.layouts[table]?, reader.state[table]? with
    | some layout, some state =>
      (takeRow table layout state values).map fun taken =>
        (some taken.1,
          { reader with decoder := decoder, state := reader.state.set table taken.2 })
    | _, _ => .error .panicked
  | .ok (some (table, _), _) =>
    .error (.badSkiffSchema table "the table root did not decode as a tuple")

end SkiffJobReader

end Ytsaurus.Job
