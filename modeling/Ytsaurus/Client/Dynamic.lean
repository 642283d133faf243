import Ytsaurus.Api.Row
import Ytsaurus.Client.Fragment
import Ytsaurus.Lib.Utf8
import Ytsaurus.Yson.Ser

/-!
# `Client/Dynamic.lean` — rows of dynamic tables over HTTP (`dynamic.rs`, `yson_build.rs`)

Rows travel as a binary YSON list fragment, one map per row. Reading walks the fragment with
the scanner and decodes what it delimits; an entity is the answer for a key with no row.
-/

set_option autoImplicit false

namespace Ytsaurus.Client

open Utf8 (asBytes fromUtf8Lossy)
open Yson

/-- `yson_build::map`: of two entries with one key the last is kept. -/
def ysonMap (entries : List (List UInt8 × YsonValue)) : YsonValue :=
  .bare (.map (SortedMap.extend [] entries))

variable [FloatText]

/-! ## Writing -/

/-- `Value::Any` is accepted in binary or text. -/
def anyToYson (bytes : List UInt8) : Except ClientError YsonValue :=
  match YsonValue.fromSlice bytes .binary with
  | .ok value => .ok value
  | .error binaryError =>
    match YsonValue.fromSlice bytes .text with
    | .ok value => .ok value
    | .error textError =>
      .error (.decodeRow "writing dynamic table row" (.notOneYsonValue binaryError textError))

def valueToYson : Api.Value → Except ClientError YsonValue
  | .null => .ok (.bare .entity)
  | .int64 number => .ok (.bare (.int64 number))
  | .uint64 number => .ok (.bare (.uint64 number))
  | .double number => .ok (.bare (.double number))
  | .boolean flag => .ok (.bare (.boolean flag))
  | .string bytes => .ok (.bare (.string bytes))
  | .any bytes => anyToYson bytes

def columnToYson (column : String × Api.Value) : Except ClientError (List UInt8 × YsonValue) :=
  (valueToYson column.2).map fun value => (asBytes column.1, value)

def rowToYson (row : Api.Row) : Except ClientError YsonValue :=
  (row.columns.mapM columnToYson).map ysonMap

/-- The loop of `rows_to_fragment`: each row is serialized behind what is in the buffer. -/
def rowsToFragmentLoop (buffer : List UInt8) : List Api.Row → Except ClientError (List UInt8)
  | [] => .ok buffer
  | row :: rows => do
    let value ← rowToYson row
    match value.toData.serialize ⟨buffer, true, false⟩ with
    -- `expect("a YsonValue always serializes into a Vec")`
    | .error _ => throw .panicked
    | .ok serializer => rowsToFragmentLoop (serializer.output ++ [0x3B]) rows

/-- Encodes rows as the YSON list fragment a tabular input stream expects. -/
def rowsToFragment (rows : List Api.Row) : Except ClientError (List UInt8) :=
  rowsToFragmentLoop [] rows

/-! ## Reading -/

/-- A list or a map is a composite or `any` value: passed on as its YSON. -/
def ysonToValue (value : YsonValue) : Api.Value :=
  match value.node with
  | .entity => .null
  | .int64 number => .int64 number
  | .uint64 number => .uint64 number
  | .double number => .double number
  | .boolean flag => .boolean flag
  | .string bytes => .string bytes
  | .list _ | .map _ =>
    match value.toVec .binary with
    | .ok bytes => .any bytes
    | .error _ => .null

/-- Anything but a map or an entity is not a row; it is reported as an empty one. -/
def ysonToRow (value : YsonValue) : Api.MaybeRow :=
  match value.node with
  | .entity => none
  | .map entries =>
    some (entries.foldl (fun row entry => row.set (fromUtf8Lossy entry.1) (ysonToValue entry.2))
      .new)
  | _ => some .new

/-- The loop of `fragment_to_rows`; each turn takes a value off the front. -/
def fragmentToRowsLoop : Nat → List Api.MaybeRow → List UInt8 →
    Except ClientError (List Api.MaybeRow)
  | 0, _, _ => .error .outOfFuel
  | fuel + 1, rows, rest =>
    let rest := rest.dropWhile isSeparator
    if rest = [] then .ok rows
    else
      match scanValue rest .binary with
      | .error e => .error (.decodeRow "lookup_rows" (.malformedRow e))
      | .ok .incomplete => .error (.decodeRow "lookup_rows" .endedMidValue)
      | .ok (.complete length) =>
        match YsonValue.fromSlice (rest.take length) .binary with
        | .error e => .error (.decodeRow "lookup_rows" (.malformedRow e))
        | .ok value => fragmentToRowsLoop fuel (rows ++ [ysonToRow value]) (rest.drop length)

/-- Decodes a YSON list fragment of maps into rows. -/
def fragmentToRows (body : List UInt8) : Except ClientError (List Api.MaybeRow) :=
  fragmentToRowsLoop (body.length + 1) [] body

end Ytsaurus.Client
