import Ytsaurus.Job.Reader

/-!
# `Job/Groups.lean` — reduce groups (`reader.rs`)

`Groups` iterates over the groups of a reader, `Group` over the rows of one. Both borrow the
reader, so it is passed along from one to the other: a group that is dropped leaves the
reader where it stopped, and the next call of `next_group` skips what is left.
-/

set_option autoImplicit false

namespace Ytsaurus.Job

open Yson

/-- The reduce key of a group; empty unless it was asked for. -/
structure GroupKey where
  columns : List (List UInt8 × YsonValue)

structure Groups where
  reader : JobReader
  inGroup : Bool
  keyColumns : List (List UInt8)

/-- The rows of a single group; the reader is held by `Groups` meanwhile. -/
structure Group where
  done : Bool
  key : GroupKey

namespace JobReader

def groups (reader : JobReader) : Groups := ⟨reader, false, []⟩

def groupsBy (reader : JobReader) (columns : List (List UInt8)) : Groups :=
  ⟨reader, false, columns⟩

end JobReader

variable [FloatText]

/-- Decodes the requested key columns out of the pending row. Missing columns are skipped. -/
def decodeKey (reader : JobReader) (len : Nat) (columns : List (List UInt8)) :
    Except JobError GroupKey :=
  match YsonValue.fromSlice (reader.window.take len) reader.format with
  | .error source => .error (.yson reader.offset source)
  | .ok value =>
    match value.node with
    | .map fields => .ok ⟨columns.filterMap fun name =>
        (SortedMap.lookup name fields).map fun v => (name, v)⟩
    | _ => .error (.notAMap reader.offset)

/-! ## Advancing to the next group -/

/-- Drains what is left of the current group; whether it ended at a switch. -/
def drainLoop : Nat → JobM Bool
  | 0 => throw .outOfFuel
  | fuel + 1 => do
    match ← ensurePending with
    | none => return false
    | some (.keySwitch _) =>
      discardPending
      return true
    | some (.row _) =>
      discardPending
      drainLoop fuel

/-- Every turn passes over a record. -/
def drain : JobM Bool := fun reader =>
  drainLoop (reader.window.length + reader.input.rest.length + 2) reader

/-- A group exists only if at least one more record is coming. Also, whether the reader is
within a group then. -/
def openGroup (keyColumns : List (List UInt8)) : JobM (Option Group × Bool) := do
  match ← ensurePending with
  | none => return (none, false)
  | some (.keySwitch _) =>
    -- back-to-back switches: the group is born done, and there is nothing to drain behind it
    discardPending
    return (some ⟨true, ⟨[]⟩⟩, false)
  | some (.row len) =>
    if keyColumns = [] then return (some ⟨false, ⟨[]⟩⟩, true)
    else
      let reader ← get
      match decodeKey reader len keyColumns with
      | .error e => throw e
      | .ok key => return (some ⟨false, key⟩, true)

def advance (inGroup : Bool) (keyColumns : List (List UInt8)) : JobM (Option Group × Bool) := do
  if inGroup then
    if ← drain then openGroup keyColumns
    else return (none, false)
  else openGroup keyColumns

def nextGroup (groups : Groups) : Except JobError (Option Group × Groups) :=
  match advance groups.inGroup groups.keyColumns groups.reader with
  | .error e => .error e
  | .ok ((group, inGroup), reader) => .ok (group, ⟨reader, inGroup, groups.keyColumns⟩)

/-! ## The rows of a group -/

/-- The next row, or `None` at the group's boundary; a switch is left pending. -/
def Group.nextRow (group : Group) : JobM (Option Row × Group) :=
  if group.done then return (none, group)
  else do
    match ← ensurePending with
    | none => return (none, { group with done := true })
    | some (.keySwitch _) => return (none, { group with done := true })
    | some (.row len) =>
      let reader ← get
      consume len
      return (some (reader.pendingRow len), group)

/-! ## Visiting -/

/-- The rows that `asks` calls of `next_row` hand out, and the reader behind them. -/
def Group.rows : Nat → Group → JobReader → List Row × Except JobError JobReader
  | 0, _, reader => ([], .ok reader)
  | asks + 1, group, reader =>
    match group.nextRow reader with
    | .error e => ([], .error e)
    | .ok ((none, group), reader) => Group.rows asks group reader
    | .ok ((some row, group), reader) =>
      let rest := Group.rows asks group reader
      (row :: rest.1, rest.2)

/-- Asks the group with this number for a row so many times, drops it, and goes on to the
next one, up to the end of the groups or an error. -/
def visitLoop (asks : Nat → Nat) : Nat → Nat → Groups → List (List Row) × Option JobError
  | 0, _, _ => ([], some .outOfFuel)
  | fuel + 1, index, groups =>
    match nextGroup groups with
    | .error e => ([], some e)
    | .ok (none, _) => ([], none)
    | .ok (some group, groups) =>
      match group.rows (asks index) groups.reader with
      | (rows, .error e) => ([rows], some e)
      | (rows, .ok reader) =>
        let rest := visitLoop asks fuel (index + 1) { groups with reader := reader }
        (rows :: rest.1, rest.2)

def Groups.visit (groups : Groups) (asks : Nat → Nat) : List (List Row) × Option JobError :=
  visitLoop asks (groups.reader.window.length + groups.reader.input.rest.length + 3) 0 groups

end Ytsaurus.Job
