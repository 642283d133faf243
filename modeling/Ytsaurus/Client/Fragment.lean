import Ytsaurus.Client.Error
import Ytsaurus.Yson.Scan
import Ytsaurus.Yson.Stream
import Ytsaurus.Yson.Value

/-!
# `Client/Fragment.lean` — reading a table's answer (`lib.rs`)

The answer to `read_table` is a YSON list fragment, and a connection that breaks leaves a
prefix of it. `check_complete_yson_fragment` walks the record boundaries with the scanner and
refuses an answer that ends within a record; `decode_rows` then reads the items with the
streaming deserializer. The two share no code.
-/

set_option autoImplicit false

namespace Ytsaurus.Client

open Yson

/-- Why an answer is not a whole fragment. -/
inductive IncompleteFragment where
  /-- The response ends inside a record. -/
  | cutShort (consumed total : Nat)
  | notValid (format : YsonFormat) (position : Nat) (e : YsonError)
  | outOfFuel
  deriving DecidableEq, Repr

/-- What the check passes over between records. -/
def isSeparator (b : UInt8) : Bool := b == 0x3B || isAsciiWhitespace b

variable [FloatText]

/-- The loop of `check_complete_yson_fragment`; each turn takes a record off the data. -/
def checkLoop (format : YsonFormat) (total : Nat) :
    Nat → List UInt8 → Except IncompleteFragment Unit
  | 0, _ => .error .outOfFuel
  | fuel + 1, data =>
    let data := data.dropWhile isSeparator
    if data = [] then .ok ()
    else
      match scanValue data format with
      | .ok (.complete len) => checkLoop format total fuel (data.drop len)
      | .ok .incomplete => .error (.cutShort (total - data.length) total)
      | .error e => .error (.notValid format (total - data.length) e)

/-- Verifies that `data` is a whole YSON list fragment in `format`. -/
def checkCompleteYsonFragment (data : List UInt8) (format : YsonFormat) :
    Except IncompleteFragment Unit :=
  checkLoop format data.length (data.length + 1) data

/-- The loop of `decode_rows`. -/
def decodeRowsLoop {α : Type} (deserialize : De α) (path : String) :
    Nat → List α → StreamDeserializer → Except ClientError (List α)
  | 0, _, _ => .error .outOfFuel
  | fuel + 1, rows, stream =>
    match StreamDeserializer.nextItem deserialize stream with
    | .ok (some row, stream) => decodeRowsLoop deserialize path fuel (rows ++ [row]) stream
    | .ok (none, _) => .ok rows
    | .error e => .error (.decode "read_table" path rows.length e)

/-- Decodes a binary YSON list fragment into typed rows, each of which takes a byte or more. -/
def decodeRows {α : Type} (deserialize : De α) (bytes : List UInt8) (path : String) :
    Except ClientError (List α) :=
  decodeRowsLoop deserialize path (bytes.length + 1) [] (.new bytes true)

/-- `decode_rows::<YsonValue>`. -/
def decodeYsonRows (bytes : List UInt8) (path : String) : Except ClientError (List YsonValue) :=
  decodeRows (YsonValue.deserialize (bytes.length + 1)) bytes path

end Ytsaurus.Client
