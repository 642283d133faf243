import Ytsaurus.Proof.Job.Writer

/-!
# `Proof/Job/Switches.lean` — runs of a writer in switch mode

Whatever fails in a run of `write_raw` calls, the writer is in step with its stream again as
soon as the last switch record that was due has arrived, and a row that is written then is
read back in its table (`rows_filed`). Where no call fails the rows read back are those of
the calls (`switches_read_back`). Tables from 2⁶³ on have no switch record of their own.

The step of a run is `Proof/Job/Writer.lean`'s: what one call does to a writer in switch mode. A
run carries one bit beside it, whether the last switch record that was due has been lost, which is
a function of the state before each call and of the sink's script (`lostSwitch`). Failures that
lose a row and not a switch do no harm to the rows behind them.

The rows are read back by the reader of the modules before, in whatever pieces, under a limit that
admits them and the longest switch record. So the two halves of the crate are proved against each
other: the writer's bytes split into records, the records deliver rows, and the reader gives what
its stream means.
-/

set_option autoImplicit false

namespace Ytsaurus.Job

open Yson

variable [FloatText]

/-! ## Runs -/

/-- Whether the last switch record that was due in a run has been lost. -/
def JobWriter.lostSwitch (writer : JobWriter) (lost : Bool) : List RawWrite → Bool
  | [] => lost
  | call :: calls => JobWriter.lostSwitch (writer.writeRaw call.table call.row).2
    (writer.lostAfter lost call.table) calls

/-- A call with a row that a reader with this limit takes. -/
structure RawWrite.Readable (limit : Nat) (call : RawWrite) : Prop where
  row : IsMapRow call.row
  limited : call.row.length ≤ limit

omit [FloatText] in
theorem lostSwitch_append {writer : JobWriter} {lost : Bool} {calls : List RawWrite}
    {call : RawWrite} :
    writer.lostSwitch lost (calls ++ [call]) =
      (writer.writeRaws calls).lostAfter (writer.lostSwitch lost calls) call.table := by
  induction calls generalizing writer lost with
  | nil => rfl
  | cons first calls ih => exact ih

omit [FloatText] in
theorem switchIndex_toInt {table : Nat} (h : table ≤ 9223372036854775807) :
    (switchIndex table).toInt = table := by
  unfold switchIndex
  rw [if_pos h]
  exact Int64.toInt_ofNat_of_lt (by omega)

/-- An empty map. -/
def emptyRow : List UInt8 := [0x7B, 0x7D]

omit [FloatText] in
theorem emptyRow_readable (table : Nat) :
    @RawWrite.Readable plainFloatText 100 ⟨table, emptyRow⟩ :=
  @RawWrite.Readable.mk plainFloatText 100 ⟨table, emptyRow⟩
    (@IsMapRow.mk plainFloatText emptyRow (by decide +kernel) rfl) (by show 2 ≤ 100; decide)

section Runs

variable {limit count : Nat} {calls : List RawWrite} {script : List SinkStep}

/-- **A run** leaves the writer in step with its stream, if the last switch record that was
due has arrived. -/
theorem Switching.writeRaws {writer : JobWriter} {current table : Int64} {rows : List Row}
    {lost : Bool} (h : Switching limit writer current rows table)
    (hstep : lost = false → current = table) (hlimit : switchBytes ≤ limit)
    (hcalls : ∀ call ∈ calls, call.Readable limit) :
    ∃ current' rows' table', Switching limit (writer.writeRaws calls) current' rows' table' ∧
      (writer.lostSwitch lost calls = false → current' = table') := by
  induction calls generalizing writer current rows table lost with
  | nil => exact ⟨current, rows, table, h, hstep⟩
  | cons call calls ih =>
    obtain ⟨hcall, hrest⟩ := List.forall_mem_cons.mp hcalls
    obtain ⟨current', rows', table', hbehind, hafter⟩ :=
      h.writeRaw (t := call.table) hstep hcall.row hcall.limited hlimit
    exact ih hbehind (fun hkept => (hafter hkept).1) hrest

/-- **Every row that was written is in its table.** Where a call returned `Ok` and the last
switch record that was due, up to and with the call's own, has not been lost, the row is the
last one that the reader finds, in the table of the call. -/
theorem rows_filed {call : RawWrite} (hscript : AllOrNothing script) (hlimit : switchBytes ≤ limit)
    (hcalls : ∀ c ∈ calls ++ [call], c.Readable limit)
    (hkept : (JobWriter.fromWriterWithSwitches ⟨[], script⟩ count .binary).lostSwitch false
      (calls ++ [call]) = false)
    (htable : call.table ≤ 9223372036854775807) :
    let writer := (JobWriter.fromWriterWithSwitches ⟨[], script⟩ count .binary).writeRaws calls
    let written := writer.writeRaw call.table call.row
    written.1 = .ok () → ∀ (reads : List ReadStep) (size : Nat), Quiet reads →
      ∃ rows row, (JobReader.over written.2.output reads size limit).events =
          ((rows ++ [row]).map .row, none) ∧
        row.bytes = call.row ∧ row.tableIndex.toInt = call.table := by
  intro writer written hok reads size hquiet
  rw [lostSwitch_append] at hkept
  have hstart : false = false → (0 : Int64) = 0 := fun _ => rfl
  obtain ⟨current, rows, table, hswitching, hstep⟩ :=
    (Switching.start limit count hscript).writeRaws hstart hlimit
      fun c hc => hcalls c (List.mem_append_left _ hc)
  have hcall := hcalls call (List.mem_append_right _ List.mem_cons_self)
  obtain ⟨current', rows', table', hbehind, hafter⟩ :=
    hswitching.writeRaw (t := call.table) hstep hcall.row hcall.limited hlimit
  obtain ⟨offset, rfl⟩ := (hafter hkept).2 hok
  exact ⟨rows, rowIn (switchIndex call.table) call.row offset, hbehind.output hquiet size, rfl,
    switchIndex_toInt htable⟩

omit [FloatText] in
/-- The row of the first call is lost, the switch to table 1 and back is not. -/
theorem rows_filed_back :
    let writer := (JobWriter.fromWriterWithSwitches ⟨[], [.failed 0 "broken pipe"]⟩ 2
      .binary).writeRaws [⟨0, emptyRow⟩, ⟨1, emptyRow⟩]
    let written := writer.writeRaw 0 emptyRow
    ∃ rows row, (@JobReader.events plainFloatText (JobReader.over written.2.output [] 64 100)) =
        ((rows ++ [row]).map .row, none) ∧
      row.bytes = emptyRow ∧ row.tableIndex.toInt = (0 : Nat) := by
  refine @rows_filed plainFloatText 100 2 [⟨0, emptyRow⟩, ⟨1, emptyRow⟩]
    [.failed 0 "broken pipe"] ⟨0, emptyRow⟩ ?_ (by decide) ?_ (by decide +kernel) (by decide)
    (by decide +kernel) [] 64 (List.forall_mem_nil _)
  · intro step hstep written message heq
    rw [List.mem_singleton.mp hstep] at heq
    cases heq
    rfl
  · intro call hcall
    simp only [List.cons_append, List.nil_append, List.mem_cons, List.not_mem_nil, or_false]
      at hcall
    rcases hcall with rfl | rfl | rfl <;> exact emptyRow_readable _

omit [FloatText] in
/-- The switch to table 1 is lost and the row is written again: it is read back in table 0. -/
theorem retried_row_misfiled :
    let first := (JobWriter.fromWriterWithSwitches ⟨[], [.failed 0 "broken pipe"]⟩ 2
      .binary).writeRaw 1 emptyRow
    let second := first.2.writeRaw 1 emptyRow
    first.1 = .error (.write 1 "broken pipe") ∧ second.1 = .ok () ∧
      second.2.output = emptyRow ++ [0x3B] ∧
      ((@JobReader.events plainFloatText (JobReader.over second.2.output [] 64 100)).1.filterMap
        Event.row?).map (fun row => row.tableIndex.toInt) = [0] := by
  decide +kernel

/-! ## Sinks that take everything -/

omit [FloatText] in
theorem writeEach_taken (bytes : List UInt8) (pieces : List (List UInt8)) :
    (⟨bytes, []⟩ : Sink).writeEach pieces = (.ok (), ⟨bytes ++ pieces.flatten, []⟩) := by
  induction pieces generalizing bytes with
  | nil =>
    show (_, (⟨bytes, []⟩ : Sink)) = (_, ⟨bytes ++ [], []⟩)
    rw [List.append_nil]
  | cons piece pieces ih =>
    show Sink.writeEach pieces ⟨bytes ++ piece, []⟩ = _
    rw [ih, List.flatten_cons, List.append_assoc]

/-- A writer that is not finished, on one sink that takes everything. -/
structure Unfailing (count : Nat) (writer : JobWriter) : Prop where
  sink : ∃ bytes, writer.tables = [⟨bytes, []⟩]
  count : writer.logicalTables = count
  finished : writer.finished = false
  routing : ∃ current, writer.routing = .tableSwitches current

omit [FloatText] in
theorem Unfailing.keeps {writer : JobWriter} (h : Unfailing count writer) (table : Nat) :
    writer.lostAfter false table = false := by
  obtain ⟨bytes, htables⟩ := h.sink
  unfold JobWriter.lostAfter
  by_cases hdue : writer.dueSwitch table
  · rw [if_pos hdue, htables, Option.any_eq_false]
    intro sink hsink
    have hmem : sink ∈ [(⟨bytes, []⟩ : Sink)] := List.mem_of_getElem? hsink
    rw [List.mem_singleton.mp hmem]
    rfl
  · rw [if_neg hdue]

omit [FloatText] in
theorem Unfailing.writeRaw {writer : JobWriter} {table : Nat} (h : Unfailing count writer)
    (htable : table < count) (row : List UInt8) :
    (writer.writeRaw table row).1 = .ok () ∧ Unfailing count (writer.writeRaw table row).2 := by
  obtain ⟨bytes, htables⟩ := h.sink
  obtain ⟨current, hrouting⟩ := h.routing
  have hcheck : writer.checkTable table = .ok () := by
    unfold JobWriter.checkTable
    rw [h.finished, if_neg Bool.false_ne_true, h.count, if_neg (Nat.not_le.mpr htable)]
  have hroute : ∃ switch,
      writer.routing.route table = ⟨0, switch, .tableSwitches (switchIndex table)⟩ := by
    rw [hrouting]
    by_cases hsame : current = switchIndex table
    · exact ⟨none, route_same hsame⟩
    · exact ⟨some _, route_other hsame⟩
  obtain ⟨switch, hroute⟩ := hroute
  unfold JobWriter.writeRaw
  rw [hcheck]
  dsimp only
  unfold JobWriter.writeBytes
  rw [hroute, htables]
  dsimp only [List.getElem?_cons_zero]
  rw [writeEach_taken]
  exact ⟨rfl, ⟨_, rfl⟩, h.count, h.finished, _, rfl⟩

/-- The row as its call named it. -/
def Row.filed (row : Row) : List UInt8 × Int := (row.bytes, row.tableIndex.toInt)

def RawWrite.filed (call : RawWrite) : List UInt8 × Int := (call.row, call.table)

/-- Behind a run, the rows read back are those before it and those of its calls. -/
theorem Unfailing.writeRaws {writer : JobWriter} {rows : List Row} {table : Int64}
    (hunfailing : Unfailing count writer) (h : Switching limit writer table rows table)
    (hlimit : switchBytes ≤ limit) (hcalls : ∀ call ∈ calls, call.Readable limit)
    (htables : ∀ call ∈ calls, call.table < count ∧ call.table ≤ 9223372036854775807) :
    ∃ rows' table', Switching limit (writer.writeRaws calls) table' rows' table' ∧
      rows'.map Row.filed = rows.map Row.filed ++ calls.map RawWrite.filed := by
  induction calls generalizing writer rows table with
  | nil => exact ⟨rows, table, h, (List.append_nil _).symm⟩
  | cons call calls ih =>
    obtain ⟨hcall, hrest⟩ := List.forall_mem_cons.mp hcalls
    obtain ⟨⟨hcount, hindex⟩, htables⟩ := List.forall_mem_cons.mp htables
    obtain ⟨hok, hstill⟩ := hunfailing.writeRaw hcount call.row
    have hstep : false = false → table = table := fun _ => rfl
    obtain ⟨current', rows', table', hbehind, hafter⟩ :=
      h.writeRaw (t := call.table) hstep hcall.row hcall.limited hlimit
    obtain ⟨hcurrent, hrows⟩ := hafter (hunfailing.keeps call.table)
    rw [hcurrent] at hbehind
    obtain ⟨offset, rfl⟩ := hrows hok
    obtain ⟨rows'', table'', hend, hfiled⟩ := ih hstill hbehind hrest htables
    refine ⟨rows'', table'', hend, ?_⟩
    have hrow : (rowIn (switchIndex call.table) call.row offset).filed = call.filed := by
      show (call.row, (switchIndex call.table).toInt) = (call.row, (call.table : Int))
      rw [switchIndex_toInt hindex]
    rw [hfiled, List.map_append, List.map_singleton, hrow, List.append_assoc, List.map_cons,
      List.singleton_append]

/-- **What was written is read back**: the same rows in the same order, each in the table it
was written to. -/
theorem switches_read_back (hlimit : switchBytes ≤ limit)
    (hcalls : ∀ call ∈ calls, call.Readable limit)
    (htables : ∀ call ∈ calls, call.table < count ∧ call.table ≤ 9223372036854775807)
    {reads : List ReadStep} (hquiet : Quiet reads) (size : Nat) :
    let writer := (JobWriter.fromWriterWithSwitches ⟨[], []⟩ count .binary).writeRaws calls
    ∃ rows : List Row,
      (JobReader.over writer.output reads size limit).events = (rows.map .row, none) ∧
        rows.map (fun row => (row.bytes, row.tableIndex.toInt)) =
          calls.map fun call => (call.row, (call.table : Int)) := by
  intro writer
  have hunfailing : Unfailing count (.fromWriterWithSwitches ⟨[], []⟩ count .binary) :=
    ⟨⟨[], rfl⟩, rfl, rfl, 0, rfl⟩
  obtain ⟨rows, table, hend, hfiled⟩ := hunfailing.writeRaws
    (Switching.start limit count (List.forall_mem_nil _)) hlimit hcalls htables
  exact ⟨rows, hend.output hquiet size, hfiled⟩

end Runs

omit [FloatText] in
/-- Three writes, to table 2, table 0 and the last table there is. -/
theorem switches_read_back_last :
    let calls : List RawWrite :=
      [⟨2, emptyRow⟩, ⟨0, emptyRow⟩, ⟨9223372036854775807, emptyRow⟩]
    let writer := (JobWriter.fromWriterWithSwitches ⟨[], []⟩ 9223372036854775808 .binary).writeRaws
      calls
    ∃ rows : List Row,
      (@JobReader.events plainFloatText (JobReader.over writer.output [] 64 100)) =
          (rows.map .row, none) ∧
        rows.map (fun row => (row.bytes, row.tableIndex.toInt)) =
          calls.map fun call => (call.row, (call.table : Int)) := by
  apply @switches_read_back plainFloatText 100 9223372036854775808 _ (by decide)
  · intro call hcall
    simp only [List.mem_cons, List.not_mem_nil, or_false] at hcall
    rcases hcall with rfl | rfl | rfl <;> exact emptyRow_readable _
  · decide
  · exact List.forall_mem_nil _

/-- A row of 87 bytes. -/
def wideRow : List UInt8 :=
  [0x7B, 0x01] ++ writeVarint 80 ++ List.replicate 80 0x61 ++ [0x3D, 0x23, 0x7D]

omit [FloatText] in
/-- Table 2⁶³ is read back as the one before it, and a reader that takes records of 64 bytes
does not read the wide row back. -/
theorem table_index_clamped :
    let writer := JobWriter.fromWriterWithSwitches ⟨[], []⟩ 18446744073709551615 .binary
    let far := writer.writeRaw 9223372036854775808 emptyRow
    let wide := writer.writeRaw 0 wideRow
    far.1 = .ok () ∧ wide.1 = .ok () ∧
      ((@JobReader.events plainFloatText (JobReader.over far.2.output [] 64 100)).1.filterMap
        Event.row?).map (fun row => row.tableIndex.toInt) = [9223372036854775807] ∧
      (@JobReader.events plainFloatText (JobReader.over wide.2.output [] 64 64)).1.length = 0 := by
  decide +kernel

end Ytsaurus.Job
