import Ytsaurus.Api.Row
import Ytsaurus.Rpc.Wire

/-!
# `Rpc/Convert.lean` — between named rows and wire rows (`convert.rs`)

The interface names columns; the wire numbers them and resolves the numbers through a name
table. A name that the table lacks, or a number that it does not cover, is an error.
-/

set_option autoImplicit false

namespace Ytsaurus
namespace Rpc

open Yson (F64)

/-- `ApiError::Conversion`, with what its text is made of. -/
inductive ConversionError where
  | notInNameTable (name : String) (columns : List String)
  | tooManyColumns
  | unknownId (id : BitVec 16) (named : Nat)
  deriving DecidableEq, Repr

def toWireValue : Api.Value → Wire.Value
  | .null => .null
  | .int64 number => .int64 number.toBitVec
  | .uint64 number => .uint64 number.toBitVec
  | .double number => .double number.bits.toBitVec
  | .boolean flag => .boolean flag
  | .string bytes => .string bytes
  | .any bytes => .any bytes

/-- A composite has no counterpart in a row: its payload is YSON either way. -/
def fromWireValue : Wire.Value → Api.Value
  | .null => .null
  | .int64 number => .int64 (Int64.ofBitVec number)
  | .uint64 number => .uint64 (UInt64.ofBitVec number)
  | .double bits => .double ⟨UInt64.ofBitVec bits⟩
  | .boolean flag => .boolean flag
  | .string bytes => .string bytes
  | .any bytes | .composite bytes => .any bytes

/-- One turn of the loop of `row_to_wire`. -/
def columnToWire (columns : List String) (column : String × Api.Value) :
    Except ConversionError Wire.UnversionedValue :=
  match columns.findIdx? fun name => name == column.1 with
  | none => .error (.notInNameTable column.1 columns)
  | some id =>
    if id ≤ 0xffff then .ok ⟨BitVec.ofNat 16 id, false, toWireValue column.2⟩
    else .error .tooManyColumns

/-- Turns a named row into a wire row, numbering its values by `columns`. -/
def rowToWire (row : Api.Row) (columns : List String) : Except ConversionError Wire.Row :=
  row.columns.mapM (columnToWire columns)

/-- The loop of `row_from_wire`. -/
def rowFromWireLoop (columns : List String) :
    Api.Row → Wire.Row → Except ConversionError Api.Row
  | named, [] => .ok named
  | named, value :: values =>
    match columns[value.id.toNat]? with
    | none => .error (.unknownId value.id columns.length)
    | some name => rowFromWireLoop columns (named.set name (fromWireValue value.value)) values

/-- Turns a wire row back into a named one, resolving ids through `columns`. -/
def rowFromWire (row : Wire.Row) (columns : List String) : Except ConversionError Api.Row :=
  rowFromWireLoop columns .new row

end Rpc
end Ytsaurus
