import Ytsaurus.Client.YsonBuild

/-!
# `Client/Path.lean` — which rows of a table to read (`path.rs`)

A `RowRange` is one entry of a path's `ranges`: limits by row index or by key. A range that ends
before it starts is refused before it is sent; `keyOrdering` is how the client tells, for keys.
-/

set_option autoImplicit false

namespace Ytsaurus

/-- The place of a double on the number line, both zeros at one. -/
def Yson.F64.signedMagnitude (d : F64) : Int :=
  let magnitude : Int := (d.bits &&& 0x7FFFFFFFFFFFFFFF).toNat
  if d.isSignNegative then -magnitude else magnitude

/-- `f64::partial_cmp`: nothing where one is a NaN. -/
def Yson.F64.partialCmp (a b : F64) : Option Ordering :=
  if a.isNan || b.isNan then none
  else some (compare a.signedMagnitude b.signedMagnitude)

namespace Client

open Yson (YsonValue YsonNode)

/-- `std::ops::Bound`. -/
inductive Bound (α : Type) where
  | included (value : α)
  | excluded (value : α)
  | unbounded

/-- A key tuple: the value of one row's key columns, or a prefix of them. -/
abbrev Key := List YsonValue

def Key.toYson (key : Key) : YsonValue := YsonBuild.list key

/-- The two inclusivities a `key` limit cannot say. -/
inductive Relation where
  | greater
  | lessOrEqual
  deriving DecidableEq, Repr

def Relation.text : Relation → String
  | .greater => ">"
  | .lessOrEqual => "<="

/-- One limit of a range, in the cluster's own representation. -/
inductive Limit where
  | rowIndex (index : Int64)
  /-- Inclusive as a lower limit, exclusive as an upper one. -/
  | key (tuple : Key)
  | keyBound (relation : Relation) (tuple : Key)

namespace Limit

/-- The key this limit compares against. -/
def keyOf : Limit → Option Key
  | .rowIndex _ => none
  | .key tuple | .keyBound _ tuple => some tuple

def toYson : Limit → YsonValue
  | .rowIndex index => YsonBuild.map [("row_index", YsonBuild.int index)]
  | .key tuple => YsonBuild.map [("key", tuple.toYson)]
  | .keyBound relation tuple =>
    YsonBuild.map [("key_bound", YsonBuild.list [YsonBuild.string relation.text, tuple.toYson])]

end Limit

/-- One entry of a path's `ranges` attribute. -/
structure RowRange where
  lower : Option Limit
  upper : Option Limit
  exact : Option Limit

def i64Max : Int64 := 9223372036854775807

/-- How two components of one type order. -/
def componentOrdering : YsonNode → YsonNode → Option Ordering
  | .boolean lower, .boolean upper => some (compare lower upper)
  | .int64 lower, .int64 upper => some (compare lower upper)
  | .uint64 lower, .uint64 upper => some (compare lower upper)
  | .string lower, .string upper => some (compare lower upper)
  | .double lower, .double upper => lower.partialCmp upper
  | _, _ => none

/-- How two key tuples order, when this client can tell: component-wise, a shorter tuple first
when the rest match. -/
def keyOrdering : Key → Key → Option Ordering
  | lower :: lowers, upper :: uppers =>
    if lower.attributes.isSome || upper.attributes.isSome then none
    else
      match componentOrdering lower.node upper.node with
      | none => none
      | some .eq => keyOrdering lowers uppers
      | some ordering => some ordering
  | lowers, uppers => some (compare lowers.length uppers.length)

namespace RowRange

/-- Rows by index. -/
def rows (start «end» : Bound Int64) : RowRange where
  lower := match start with
    | .included index => some (.rowIndex index)
    | .excluded index => some (.rowIndex (if index = i64Max then i64Max else index + 1))
    | .unbounded => none
  upper := match «end» with
    | .included index => if index = i64Max then none else some (.rowIndex (index + 1))
    | .excluded index => some (.rowIndex index)
    | .unbounded => none
  exact := none

/-- Rows by key, on a sorted table; the inclusivity travels with the range. -/
def keys (start «end» : Bound Key) : RowRange where
  lower := match start with
    | .included key => some (.key key)
    | .excluded key => some (.keyBound .greater key)
    | .unbounded => none
  upper := match «end» with
    | .included key => some (.keyBound .lessOrEqual key)
    | .excluded key => some (.key key)
    | .unbounded => none
  exact := none

/-- Exactly the rows whose full key starts with `key`. -/
def exactKey (key : Key) : RowRange := ⟨none, none, some (.key key)⟩

/-- The range as one entry of the `ranges` attribute. -/
def toYson (range : RowRange) : YsonValue :=
  YsonBuild.map ((range.exact.map fun limit => ("exact", limit.toYson)).toList ++
    (range.lower.map fun limit => ("lower_limit", limit.toYson)).toList ++
    (range.upper.map fun limit => ("upper_limit", limit.toYson)).toList)

/-- Why a row index is refused. -/
def negativeIndex : Option Limit → Option String
  | some (.rowIndex index) =>
    if index < 0 then
      some ("row index " ++ toString index ++ " is negative, and rows are numbered from 0 — the " ++
        "cluster clamps it to 0 and answers 200, so a negative lower limit " ++
        "reads from the start of the table as if it had said 0 and a " ++
        "negative upper limit selects nothing; either way a bound that was " ++
        "never honoured is reported as success")
    else none
  | _ => none

/-- Why a range of row indices is refused. -/
def backwardsRows : Option Limit → Option Limit → Option String
  | some (.rowIndex lower), some (.rowIndex upper) =>
    if upper < lower then
      some ("the row range starts at " ++ toString lower ++ " and ends at " ++ toString upper ++
        ", as `&rows[" ++ toString lower ++ ".." ++ toString upper ++ "]` would; the cluster " ++
        "answers it with 200 and no rows rather than with an error")
    else none
  | _, _ => none

/-- Why a range of keys is refused. -/
def backwardsKeys (lower upper : Option Limit) : Option String :=
  match lower.bind Limit.keyOf, upper.bind Limit.keyOf with
  | some lower, some upper =>
    if keyOrdering lower upper = some .gt then
      some ("the key range starts after it ends, the same mistake as " ++
        "`&rows[5..3]`; the cluster answers it with 200 and no rows rather " ++
        "than with an error")
    else none
  | _, _ => none

/-- Why this range asks for rows no table has. -/
def refusal (range : RowRange) : Option String :=
  (negativeIndex range.lower).or <| (negativeIndex range.upper).or <|
    (backwardsRows range.lower range.upper).or (backwardsKeys range.lower range.upper)

end RowRange

end Client

end Ytsaurus
