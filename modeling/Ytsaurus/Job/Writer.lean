import Ytsaurus.Yson.Ser

/-!
# `Job/Writer.lean` — writing a job's output tables (`writer.rs`)

`JobWriter` has one sink for each output table, or one sink for all of them in which a
`<table_index=N>#` record stands wherever the destination changes. What a call leaves behind
matters also when it fails, so every operation returns its outcome beside the writer.

The serializer's scratch buffer is emptied before each use and is left out.
-/

set_option autoImplicit false

namespace Ytsaurus.Job

open Yson

/-! ## Sinks -/

/-- What one call of `write_all` or `flush` does. A `write_all` that fails has taken the first
`written` bytes. -/
inductive SinkStep where
  | done
  | failed (written : Nat) (message : String)
  deriving DecidableEq, Repr

/-- What a sink has taken, and what its next calls do; behind the script every call succeeds. -/
structure Sink where
  bytes : List UInt8
  script : List SinkStep
  deriving DecidableEq, Repr

namespace Sink

def writeAll (data : List UInt8) (sink : Sink) : Except String Unit × Sink :=
  match sink.script with
  | .failed written message :: script =>
    (.error message, ⟨sink.bytes ++ data.take written, script⟩)
  | script => (.ok (), ⟨sink.bytes ++ data, script.tail⟩)

/-- One `write_all` after the other, up to the first that fails. -/
def writeEach : List (List UInt8) → Sink → Except String Unit × Sink
  | [], sink => (.ok (), sink)
  | data :: rest, sink =>
    match sink.writeAll data with
    | (.error message, sink) => (.error message, sink)
    | (.ok (), sink) => writeEach rest sink

def flush (sink : Sink) : Except String Unit × Sink :=
  match sink.script with
  | .failed _ message :: script => (.error message, ⟨sink.bytes, script⟩)
  | script => (.ok (), ⟨sink.bytes, script.tail⟩)

end Sink

/-! ## Switch records -/

/-- `write_zigzag`: the groups of seven bits that the codec's varints have too. -/
def writeZigzag (value : Int64) : List UInt8 :=
  writeUvarintLoop 10 ((value <<< 1) ^^^ (value >>> 63)).toUInt64

/-- `<table_index=N>#;` -/
def encodeTableSwitch (index : Int64) : YsonFormat → List UInt8
  | .text => ascii "<table_index=" ++ itoaI64 index ++ ascii ">#;"
  | .binary =>
    [0x3C, 0x01] ++ writeZigzag (.ofNat (ascii "table_index").length) ++ ascii "table_index" ++
      [0x3D, 0x02] ++ writeZigzag index ++ [0x3E, 0x23, 0x3B]

/-! ## Routing -/

/-- How rows reach their destination table. -/
inductive Routing where
  /-- One sink for each table. -/
  | descriptors
  /-- One sink for all of them, switched to this table. -/
  | tableSwitches (current : Int64)
  deriving DecidableEq, Repr

/-- Where a row goes: the sink, the switch record it needs, and the routing behind it. -/
structure Route where
  sinkIndex : Nat
  switch : Option Int64
  routing : Routing

/-- `i64::try_from(table).unwrap_or(i64::MAX)`. -/
def switchIndex (table : Nat) : Int64 :=
  if table ≤ 9223372036854775807 then .ofNat table else .maxValue

def Routing.route (table : Nat) : Routing → Route
  | .descriptors => ⟨table, none, .descriptors⟩
  | .tableSwitches current =>
    let needed := switchIndex table
    if current = needed then ⟨0, none, .tableSwitches current⟩
    -- the switch counts as made before it is written
    else ⟨0, some needed, .tableSwitches needed⟩

/-! ## The writer -/

/-- `JobError`, as far as the writer raises it. `panicked` is an index out of bounds. -/
inductive WriteError where
  | write (table : Nat) (message : String)
  | serialize (table : Nat) (source : YsonError)
  | unknownTable (index count : Nat) (names : List String)
  | writeAfterFinish (table : Nat)
  | panicked
  deriving DecidableEq, Repr

structure JobWriter where
  tables : List Sink
  /-- What the tables of a write are checked against. -/
  logicalTables : Nat
  format : YsonFormat
  routing : Routing
  finished : Bool
  names : List String

namespace JobWriter

/-- A writer with one sink for each table. -/
def fromWriters (tables : List Sink) (format : YsonFormat) : JobWriter where
  tables := tables
  logicalTables := tables.length
  format := format
  routing := .descriptors
  finished := false
  names := []

/-- A writer with one sink for `tableCount` tables. -/
def fromWriterWithSwitches (sink : Sink) (tableCount : Nat) (format : YsonFormat) : JobWriter :=
  { fromWriters [sink] format with
    routing := .tableSwitches 0
    logicalTables := tableCount }

def checkTable (writer : JobWriter) (table : Nat) : Except WriteError Unit :=
  -- a row behind `finish` would stay in the buffer
  if writer.finished then .error (.writeAfterFinish table)
  else if table ≥ writer.logicalTables then
    .error (.unknownTable table writer.logicalTables writer.names)
  else .ok ()

def writeBytes (writer : JobWriter) (table : Nat) (encoded : List UInt8) :
    Except WriteError Unit × JobWriter :=
  let route := writer.routing.route table
  let record := (route.switch.map fun index => encodeTableSwitch index writer.format).toList
  match writer.tables[route.sinkIndex]? with
  | none => (.error .panicked, { writer with routing := route.routing })
  | some sink =>
    let written := sink.writeEach (record ++ [encoded, [0x3B]])
    (written.1.mapError (.write table),
      { writer with
        routing := route.routing
        tables := writer.tables.set route.sinkIndex written.2 })

/-- Appends a row that is already encoded. -/
def writeRaw (writer : JobWriter) (table : Nat) (row : List UInt8) :
    Except WriteError Unit × JobWriter :=
  match writer.checkTable table with
  | .error e => (.error e, writer)
  | .ok () => writer.writeBytes table row

/-- Serializes a row and appends it. -/
def write [FloatText] (writer : JobWriter) (table : Nat) (row : Data) :
    Except WriteError Unit × JobWriter :=
  match writer.checkTable table with
  | .error e => (.error e, writer)
  | .ok () =>
    match toVec row writer.format with
    | .error source => (.error (.serialize table source), writer)
    | .ok encoded => writer.writeBytes table encoded

/-- The loop of `flush`, from this table on; `flushed` are the sinks before it. -/
def flushFrom (flushed : List Sink) : List Sink → Except WriteError Unit × List Sink
  | [] => (.ok (), flushed)
  | sink :: rest =>
    match sink.flush with
    | (.error message, sink) => (.error (.write flushed.length message), flushed ++ sink :: rest)
    | (.ok (), sink) => flushFrom (flushed ++ [sink]) rest

def flush (writer : JobWriter) : Except WriteError Unit × JobWriter :=
  let flushed := flushFrom [] writer.tables
  (flushed.1, { writer with tables := flushed.2 })

/-- Flushes and marks the writer complete. -/
def finish (writer : JobWriter) : Except WriteError Unit × JobWriter :=
  match writer.flush with
  | (.error e, writer) => (.error e, writer)
  | (.ok (), writer) => (.ok (), { writer with finished := true })

/-- What the writer's sinks have taken, one behind the other. -/
def output (writer : JobWriter) : List UInt8 := writer.tables.flatMap Sink.bytes

end JobWriter

/-! ## Runs -/

/-- One call of `write_raw`. -/
structure RawWrite where
  table : Nat
  row : List UInt8

/-- The writer behind a sequence of calls, whatever each of them returned. -/
def JobWriter.writeRaws (writer : JobWriter) : List RawWrite → JobWriter
  | [] => writer
  | call :: calls => JobWriter.writeRaws (writer.writeRaw call.table call.row).2 calls

end Ytsaurus.Job
