import Ytsaurus.Yson.Basic

/-!
# `Api/Row.lean` — the row model both transports speak (`value.rs`)

A row is a list of named values, in the order in which they were added; nothing keeps a name
from being added twice. `get` answers with the first value of a name.
-/

set_option autoImplicit false

namespace Ytsaurus
namespace Api

open Yson (F64)

/-- One column value. `any` holds a YSON-encoded value of any shape. -/
inductive Value where
  | null
  | int64 (value : Int64)
  | uint64 (value : UInt64)
  | double (value : F64)
  | boolean (value : Bool)
  | string (bytes : List UInt8)
  | any (bytes : List UInt8)
  deriving DecidableEq, Repr

/-- One row: named columns, in insertion order. -/
structure Row where
  columns : List (String × Value)
  deriving DecidableEq, Repr

/-- A row, or nothing where a lookup found none. -/
abbrev MaybeRow := Option Row

namespace Row

def new : Row := ⟨[]⟩

/-- Adds a column, keeping the order it was added in. -/
def set (row : Row) (name : String) (value : Value) : Row := ⟨row.columns ++ [(name, value)]⟩

/-- The value of a column, if the row has one. -/
def get (row : Row) (name : String) : Option Value :=
  (row.columns.find? fun column => column.1 == name).map Prod.snd

/-- The column names, in order. -/
def names (row : Row) : List String := row.columns.map Prod.fst

end Row

end Api
end Ytsaurus
