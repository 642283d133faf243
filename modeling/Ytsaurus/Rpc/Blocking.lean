import Ytsaurus.Rpc.Convert

/-!
# `Rpc/Blocking.lean` — the rows of one request (`blocking.rs`)

Every row of a request has to agree on one name table; rows that name their columns one by one
are folded into it.
-/

set_option autoImplicit false

namespace Ytsaurus
namespace Rpc

/-- One turn of the inner loop of `column_names`. -/
def addName (names : List String) (name : String) : List String :=
  if names.any fun known => known == name then names else names ++ [name]

/-- The columns a set of rows mentions, in first-seen order. -/
def columnNames (rows : List Api.Row) : List String :=
  rows.foldl (fun names row => row.names.foldl addName names) []

def toWireRows (rows : List Api.Row) (columns : List String) :
    Except ConversionError (List Wire.Row) :=
  rows.mapM fun row => rowToWire row columns

/-- One turn of `from_wire_rows`: what was not found stays so. -/
def maybeRowFromWire (columns : List String) : Option Wire.Row → Except ConversionError Api.MaybeRow
  | some row => (rowFromWire row columns).map some
  | none => .ok none

def fromWireRows (rows : List (Option Wire.Row)) (columns : List String) :
    Except ConversionError (List Api.MaybeRow) :=
  rows.mapM (maybeRowFromWire columns)

end Rpc
end Ytsaurus
