import Ytsaurus.Lib.StateExcept
import Ytsaurus.Yson.Scan
import Ytsaurus.Yson.Value

/-!
# `Job/Reader.lean` — incremental reading of a job's input (`reader.rs`)

`JobReader` reads a list fragment through one buffer: it looks for the next record in what
has arrived, and compacts, grows and refills the buffer until the record is there. Control
records change the indices that rows are reported with; rows and key switches are events.

The buffer is its valid part `data` (so that `filled` is the length of it) and its size
`capacity`. The input is what it has still to deliver and what its next calls do. A reader
that has failed is not used again, so an error leaves no state.
-/

set_option autoImplicit false

namespace Ytsaurus.Job

open Yson

/-! ## The input -/

/-- One call of `read`. -/
inductive ReadStep where
  | interrupted
  | chunk (n : Nat) (h : 0 < n)
  | failed (message : String)

/-- Behind the script, a call delivers as much as there is room for. -/
structure Source where
  rest : List UInt8
  script : List ReadStep

/-! ## Events and errors -/

/-- A single input row. -/
structure Row where
  tableIndex : Int64
  rowIndex : Option Int64
  rangeIndex : Option Int64
  bytes : List UInt8
  format : YsonFormat
  offset : Nat

inductive Event where
  | row (row : Row)
  | keySwitch

/-- `expected` and `found` are the parts of a malformed control record's reason. -/
inductive JobError where
  | read (message : String)
  | yson (offset : Nat) (source : YsonError)
  | truncatedRecord (offset buffered : Nat)
  | recordTooLarge (offset limit : Nat)
  | badControlRecord (offset : Nat) (name expected : String) (found : YsonNode)
  | notAMap (offset : Nat)
  | outOfFuel

/-- What the reader has lined up but not yet handed out. -/
inductive Pending where
  | row (len : Nat)
  | keySwitch (len : Nat)
  deriving DecidableEq, Repr

structure JobReader where
  input : Source
  format : YsonFormat
  /-- `buf[..filled]`. -/
  data : List UInt8
  /-- `buf.len()`. -/
  capacity : Nat
  pos : Nat
  baseOffset : Nat
  inputDone : Bool
  pending : Option Pending
  maxRecordBytes : Nat
  tableIndex : Int64
  rowIndex : Option Int64
  rangeIndex : Option Int64

abbrev JobM := StateT JobReader (Except JobError)

namespace JobReader

def defaultBufferBytes : Nat := 1024 * 1024

def defaultMaxRecordBytes : Nat := 256 * 1024 * 1024

def withFormat (input : Source) (format : YsonFormat) : JobReader where
  input := input
  format := format
  data := []
  capacity := defaultBufferBytes
  pos := 0
  baseOffset := 0
  inputDone := false
  pending := none
  maxRecordBytes := defaultMaxRecordBytes
  tableIndex := 0
  rowIndex := none
  rangeIndex := none

/-- Sets the read buffer size of a reader that has not read yet. -/
def withBufferSize (reader : JobReader) (bytes : Nat) : JobReader :=
  { reader with capacity := max bytes 64 }

def withMaxRecordBytes (reader : JobReader) (bytes : Nat) : JobReader :=
  { reader with maxRecordBytes := bytes }

/-- The unconsumed region of the buffer. -/
def window (reader : JobReader) : List UInt8 := reader.data.drop reader.pos

/-- Where the window starts in the stream. -/
def offset (reader : JobReader) : Nat := reader.baseOffset + reader.pos

end JobReader

/-! ## Refilling the buffer -/

def isSeparator (b : UInt8) : Bool := b == 0x3B || isAsciiWhitespace b

def skipSeparators : JobM Unit := modify fun reader =>
  { reader with pos := reader.pos + (reader.window.takeWhile isSeparator).length }

def compact (reader : JobReader) : JobReader :=
  if reader.pos > 0 then
    { reader with
      data := reader.window
      baseOffset := reader.offset
      pos := 0 }
  else reader

/-- Makes room when a single record fills the buffer. -/
def grow : JobM Unit := do
  let reader ← get
  if reader.data.length = reader.capacity then
    if reader.capacity ≥ reader.maxRecordBytes then
      throw (.recordTooLarge reader.baseOffset reader.maxRecordBytes)
    set { reader with capacity := min (reader.capacity * 2) reader.maxRecordBytes }

/-- The loop around `read`, into a buffer with this much room. -/
def readLoop (room : Nat) (rest : List UInt8) :
    List ReadStep → Except JobError (List UInt8 × Source)
  | [] => .ok (rest.take room, ⟨rest.drop room, []⟩)
  -- a signal interrupted the read; nothing was consumed
  | .interrupted :: script => readLoop room rest script
  | .chunk n _ :: script => .ok (rest.take (min n room), ⟨rest.drop (min n room), script⟩)
  | .failed message :: _ => .error (.read message)

def readOnce : JobM Unit := fun reader =>
  match readLoop (reader.capacity - reader.data.length) reader.input.rest reader.input.script with
  | .error e => .error e
  | .ok ([], input) => .ok ((), { reader with input := input, inputDone := true })
  | .ok (bytes, input) => .ok ((), { reader with input := input, data := reader.data ++ bytes })

def fill : JobM Unit := do
  modify compact
  grow
  readOnce

/-! ## Records -/

variable [FloatText]

/-- The length of the record at the front of the window, if all of it is there. -/
def scanWindow : JobM (Option Nat) := do
  let reader ← get
  if reader.window = [] then return none
  match scanValue reader.window reader.format with
  | .ok (.complete len) => return some len
  | .ok .incomplete => return none
  | .error source => throw (.yson reader.offset source)

def nextRecordLenLoop : Nat → JobM (Option Nat)
  | 0 => throw .outOfFuel
  | fuel + 1 => do
    skipSeparators
    match ← scanWindow with
    | some len => return some len
    | none =>
      let reader ← get
      if reader.inputDone then
        if reader.window = [] then return none
        else throw (.truncatedRecord reader.offset reader.window.length)
      else
        fill
        nextRecordLenLoop fuel

/-- Every turn but the last one reads a byte or finds the end. -/
def nextRecordLen : JobM (Option Nat) := fun reader =>
  nextRecordLenLoop (reader.input.rest.length + 2) reader

/-- What a record turned out to be. -/
inductive Classified where
  | row
  | skip
  | tableIndex (i : Int64)
  | rowIndex (i : Int64)
  | rangeIndex (i : Int64)
  | keySwitch
  deriving DecidableEq, Repr

/-- First byte that is not insignificant whitespace. -/
def firstSignificantByte (record : List UInt8) : YsonFormat → Option UInt8
  | .binary => record.head?
  | .text => record.find? fun b => !isAsciiWhitespace b

/-- `as_i64` of a control attribute. -/
def asI64 (offset : Nat) (name : String) (v : YsonValue) : Except JobError Int64 :=
  match v.node with
  | .int64 i => .ok i
  | found => .error (.badControlRecord offset name "an int64" found)

/-- The attributes of a control record, in key order; the first one that is known decides. -/
def classifyAttributes (offset : Nat) :
    List (List UInt8 × YsonValue) → Except JobError Classified
  | [] => .ok .skip
  | (key, v) :: attributes =>
    if key = ascii "key_switch" then
      match v.node with
      | .boolean true => .ok .keySwitch
      | .boolean false => .ok .skip
      | found => .error (.badControlRecord offset "key_switch" "a boolean" found)
    else if key = ascii "table_index" then (asI64 offset "table_index" v).map .tableIndex
    else if key = ascii "row_index" then (asI64 offset "row_index" v).map .rowIndex
    else if key = ascii "range_index" then (asI64 offset "range_index" v).map .rangeIndex
    else classifyAttributes offset attributes

/-- Decides what an attributed record is: an attributed entity is a control record. -/
def classifyAttributed (record : List UInt8) (format : YsonFormat) (offset : Nat) :
    Except JobError Classified :=
  match YsonValue.fromSlice record format with
  | .error source => .error (.yson offset source)
  | .ok value =>
    match value.node, value.attributes with
    | .entity, some attributes => classifyAttributes offset attributes
    | .entity, none => .ok .skip
    | _, _ => .ok .row

/-- Only a leading `<` can be a control record. -/
def classify (record : List UInt8) (format : YsonFormat) (offset : Nat) :
    Except JobError Classified :=
  if firstSignificantByte record format = some 0x3C then classifyAttributed record format offset
  else .ok .row

/-! ## Pending records -/

/-- The reader behind a record of this length that has been handed out. -/
def JobReader.consumed (reader : JobReader) (len : Nat) : JobReader :=
  { reader with
    pos := reader.pos + len
    rowIndex :=
      match reader.pending with
      -- the rows behind a `row_index` record count on from it
      | some (.row _) => reader.rowIndex.map (· + 1)
      | _ => reader.rowIndex
    pending := none }

def consume (len : Nat) : JobM Unit := modify (·.consumed len)

def discardPending : JobM Unit := do
  match (← get).pending with
  | some (.row len) => consume len
  | some (.keySwitch len) => consume len
  | none => return ()

def setPending (pending : Pending) : JobM (Option Pending) := do
  modify fun reader => { reader with pending := some pending }
  return some pending

/-- What a control record does to the reader, besides being passed over. -/
def applyControl (reader : JobReader) : Classified → JobReader
  -- a new table restarts row and range numbering
  | .tableIndex i => { reader with tableIndex := i, rowIndex := none, rangeIndex := none }
  | .rowIndex i => { reader with rowIndex := some i }
  | .rangeIndex i => { reader with rangeIndex := some i }
  | _ => reader

def ensurePendingLoop : Nat → JobM (Option Pending)
  | 0 => throw .outOfFuel
  | fuel + 1 => do
    match ← nextRecordLen with
    | none => return none
    | some len =>
      let reader ← get
      match classify (reader.window.take len) reader.format reader.offset with
      | .error e => throw e
      | .ok .row => setPending (.row len)
      | .ok .keySwitch => setPending (.keySwitch len)
      | .ok control =>
        set { applyControl reader control with pos := reader.pos + len }
        ensurePendingLoop fuel

/-- Ensures that a row or key switch is buffered and ready. -/
def ensurePending : JobM (Option Pending) := fun reader =>
  match reader.pending with
  | some pending => .ok (some pending, reader)
  | none => ensurePendingLoop (reader.window.length + reader.input.rest.length + 1) reader

/-- The row that is pending, of this length. -/
def JobReader.pendingRow (reader : JobReader) (len : Nat) : Row where
  tableIndex := reader.tableIndex
  rowIndex := reader.rowIndex
  rangeIndex := reader.rangeIndex
  bytes := reader.window.take len
  format := reader.format
  offset := reader.offset

def nextEvent : JobM (Option Event) := do
  match ← ensurePending with
  | none => return none
  | some (.keySwitch len) =>
    consume len
    return some .keySwitch
  | some (.row len) =>
    let reader ← get
    consume len
    return some (.row (reader.pendingRow len))

/-- Repeated calls of `next_event`, up to the end of the stream or an error. -/
def eventsLoop : Nat → JobReader → List Event × Option JobError
  | 0, _ => ([], some .outOfFuel)
  | fuel + 1, reader =>
    match nextEvent reader with
    | .error e => ([], some e)
    | .ok (none, _) => ([], none)
    | .ok (some event, reader) =>
      let rest := eventsLoop fuel reader
      (event :: rest.1, rest.2)

def JobReader.events (reader : JobReader) : List Event × Option JobError :=
  eventsLoop (reader.window.length + reader.input.rest.length + 1) reader

end Ytsaurus.Job
