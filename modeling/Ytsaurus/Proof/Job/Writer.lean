import Ytsaurus.Job.Writer
import Ytsaurus.Proof.Job.Controls

/-!
# `Proof/Job/Writer.lean` — table switches, read back

What a writer in switch mode has put into its sink is read back as rows, each in the table
that the switch record in front of it names (`ReadsBack`). A failed call leaves whole records
behind as long as a failing `write_all` takes nothing, so this holds whatever fails.

The rows are in the right tables while the table that the writer takes the stream to be
switched to is the one that it is switched to (the two tables of `Switching`). The writer
moves on to the next table before it writes the switch record: when that record is lost the
two part, and a row that is written again goes to the table before (`lost_switch_misfiles`).

A call is one of three kinds, by the state before it: no switch is due (`same`), one is due and is
lost (`lost`), or it arrives (`switched`). In the first the row goes where the stream stands, and
this is right or wrong as it was before the call; in the third the two tables meet again, whatever
they were. The switch record is encoded by hand in the source and not by the serializer; that it is
a record, and one that the reader takes for a table index, is shown of its bytes
(`switchRecord_isRecord`, `classify_switchRecord`).
-/

set_option autoImplicit false

namespace Ytsaurus.Job

open Yson Framing

variable [FloatText]

/-! ## Records that deliver rows -/

/-- These records deliver these rows, and no key switch. -/
inductive Delivers (format : YsonFormat) :
    Indices → List (Nat × List UInt8) → List Row → Indices → Prop
  | nil {indices : Indices} : Delivers format indices [] [] indices
  | row {indices indices' : Indices} {offset : Nat} {record : List UInt8}
      {records : List (Nat × List UInt8)} {rows : List Row}
      (hclass : classify record format offset = .ok .row)
      (hrest : Delivers format indices.next records rows indices') :
      Delivers format indices ((offset, record) :: records)
        (indices.row format offset record :: rows) indices'
  | control {indices indices' : Indices} {offset : Nat} {record : List UInt8}
      {records : List (Nat × List UInt8)} {rows : List Row} {control : Classified}
      (hclass : classify record format offset = .ok control) (hrow : control ≠ .row)
      (hswitch : control ≠ .keySwitch)
      (hrest : Delivers format (indices.control control) records rows indices') :
      Delivers format indices ((offset, record) :: records) rows indices'

section Delivers

variable {format : YsonFormat} {indices indices₁ indices₂ : Indices}
  {records records' : List (Nat × List UInt8)} {rows rows' : List Row}

theorem Delivers.append (h : Delivers format indices records rows indices₁)
    (h' : Delivers format indices₁ records' rows' indices₂) :
    Delivers format indices (records ++ records') (rows ++ rows') indices₂ := by
  induction h with
  | nil => exact h'
  | row hclass _ ih => exact .row hclass (ih h')
  | control hclass hrow hswitch _ ih => exact .control hclass hrow hswitch (ih h')

theorem Delivers.interpret (h : Delivers format indices records rows indices₁) :
    interpret format .clean indices records = (rows.map .row, none) := by
  induction h with
  | nil => rfl
  | row hclass _ ih =>
    rw [Job.interpret, hclass]
    dsimp only
    rw [ih]
    rfl
  | control hclass hrow hswitch _ ih => rw [interpret_control hclass hrow hswitch, ih]

end Delivers

/-! ## Switch records -/

/-- The document that a switch record is. -/
def switchDoc (index : Int64) : Doc :=
  .attributed [(0, ascii "table_index", .scalar (.int64 index))] 0 .entity

/-- A switch record, without the separator behind it. -/
def switchRecord (index : Int64) : List UInt8 :=
  0x3C :: (Serializer.encodeStr true (ascii "table_index") ++
    (0x3D :: (Serializer.encodeI64 true index ++ (0x3E :: [0x23]))))

omit [FloatText] in
theorem encodeTableSwitch_binary (index : Int64) :
    encodeTableSwitch index .binary = switchRecord index ++ [0x3B] := by
  unfold encodeTableSwitch switchRecord Serializer.encodeStr Serializer.encodeI64
  rw [if_pos rfl, if_pos rfl]
  show _ = _ ++ _
  simp only [List.cons_append, List.append_assoc, List.nil_append]
  rfl

theorem switchRecord_encodedAs (index : Int64) :
    EncodedAs true (switchRecord index) (switchDoc index) := by
  have hkey : Writes true [.string (ascii "table_index")]
      (Serializer.encodeStr true (ascii "table_index")) :=
    writes_binary_string (by decide)
  have hpairs : Writes true (pairsToks [(0, ascii "table_index", .scalar (.int64 index))])
      (Serializer.encodeStr true (ascii "table_index") ++
        (0x3D :: (Serializer.encodeI64 true index ++ []))) :=
    hkey.pair (writes_i64 index) .nil trivial
  have hentity : Writes true (Doc.entity).toks [0x23] := .punctuation rfl .nil
  constructor
  · have hwrites := Writes.attributed hpairs hentity
    rw [List.append_nil, List.append_assoc, List.cons_append] at hwrites
    exact hwrites
  · exact ⟨⟨trivial, trivial⟩, trivial⟩

/-- **A switch record is a record.** -/
theorem switchRecord_isRecord (index : Int64) :
    IsRecord (scanMeasure .binary) isSeparator (switchRecord index) := by
  constructor
  · apply (switchRecord_encodedAs index).isRecord
    refine ⟨⟨by decide, ?_, trivial⟩, rfl, Nat.zero_le _⟩
    show 0 + 1 ≤ MAX_DEPTH
    decide
  · intro b hb
    cases hb
    rfl

/-- **The reader takes a switch record for what it is.** -/
theorem classify_switchRecord (index : Int64) (offset : Nat) :
    classify (switchRecord index) .binary offset = .ok (.tableIndex index) := by
  have hcontrol : controlOf (switchRecord index) .binary =
      .ok (some [(ascii "table_index", .bare (.int64 index))]) := by
    have hfirst : firstSignificantByte (switchRecord index) .binary = some 0x3C := rfl
    unfold controlOf
    rw [if_pos hfirst, EncodedAs.fromSlice (f := .binary) (switchRecord_encodedAs index)]
    rfl
  rw [classify_some hcontrol]
  rfl

omit [FloatText] in
/-- A number of `n + 1` groups is written in at most `n + 1` bytes. -/
theorem writeUvarintLoop_length_le (n : Nat) {fuel : Nat} {val : UInt64}
    (h : val.toNat < 128 ^ (n + 1)) : (writeUvarintLoop fuel val).length ≤ n + 1 := by
  induction n generalizing fuel val with
  | zero =>
    have hsmall : ¬ val ≥ 0x80 := by
      rw [ge_iff_le, UInt64.le_iff_toNat_le]
      simpa using h
    cases fuel with
    | zero => exact Nat.le_refl 1
    | succ fuel =>
      rw [writeUvarintLoop, if_neg hsmall]
      exact Nat.le_refl 1
  | succ n ih =>
    cases fuel with
    | zero => exact Nat.succ_le_succ (Nat.zero_le _)
    | succ fuel =>
      rw [writeUvarintLoop]
      split
      · have hshift : (val >>> 7).toNat < 128 ^ (n + 1) := by
          rw [shiftRight_seven]
          apply Nat.div_lt_of_lt_mul
          rwa [pow_succ, Nat.mul_comm] at h
        rw [List.length_cons]
        exact Nat.succ_le_succ (ih hshift)
      · exact Nat.succ_le_succ (Nat.zero_le _)

/-- What the longest switch record takes. -/
def switchBytes : Nat := 28

omit [FloatText] in
theorem switchRecord_length_le (index : Int64) : (switchRecord index).length ≤ switchBytes := by
  have hindex : (writeVarint index).length ≤ 10 := by
    apply writeUvarintLoop_length_le 9
    have hlt := (zigzag index).toNat_lt
    omega
  have hlength : (switchRecord index).length = 18 + (writeVarint index).length := by
    show (0x3C :: (_ ++ (0x3D :: ((0x02 :: writeVarint index) ++ [0x3E, 0x23])))).length = _
    rw [List.length_cons, List.length_append, List.length_cons, List.length_append,
      List.length_cons]
    show 13 + (_ + 1 + 2 + 1) + 1 = _
    omega
  unfold switchBytes
  omega

/-! ## What the bytes of a sink are read back as -/

/-- The bytes are read back as these rows, and leave the reader at this table. No record is
longer than the limit. -/
structure ReadsBack (limit : Nat) (bytes : List UInt8) (rows : List Row) (table : Int64)
    (records : List (Nat × List UInt8)) : Prop where
  splits : Splits (scanMeasure .binary) isSeparator 0 bytes records .clean
  delivers : Delivers .binary ⟨0, none, none⟩ records rows ⟨table, none, none⟩
  limited : ∀ r ∈ records, r.2.length ≤ limit

/-- A complete binary map row: it has no attributes in front. -/
structure IsMapRow (row : List UInt8) : Prop where
  complete : scanValue row .binary = .ok (.complete row.length)
  opens : row.head? = some 0x7B

namespace IsMapRow

variable {row : List UInt8}

theorem isRecord (h : IsMapRow row) : IsRecord (scanMeasure .binary) isSeparator row where
  complete := scanMeasure_complete.mpr h.complete
  head := by
    intro b hb
    rw [h.opens] at hb
    cases hb
    rfl

theorem classify (h : IsMapRow row) (offset : Nat) : classify row .binary offset = .ok .row := by
  unfold Job.classify
  rw [if_neg]
  show ¬ row.head? = some 0x3C
  rw [h.opens]
  decide

end IsMapRow

namespace ReadsBack

variable {limit : Nat} {bytes encoded : List UInt8} {rows : List Row} {table : Int64}
  {records : List (Nat × List UInt8)}

theorem nil (limit : Nat) : ReadsBack limit [] [] 0 [] where
  splits := .clean rfl
  delivers := .nil
  limited := List.forall_mem_nil _

theorem separator (h : ReadsBack limit bytes rows table records) :
    ReadsBack limit (bytes ++ [0x3B]) rows table records where
  splits := by
    have hsplits := h.splits.append scanMeasure_stable (.clean (s := [0x3B]) rfl)
    rwa [List.append_nil] at hsplits
  delivers := h.delivers
  limited := h.limited

/-- One more record, and the rows that it delivers. -/
theorem record {rows' : List Row} {table' : Int64} (h : ReadsBack limit bytes rows table records)
    (hrecord : IsRecord (scanMeasure .binary) isSeparator encoded) (hle : encoded.length ≤ limit)
    (hdelivers : Delivers .binary ⟨table, none, none⟩ [(bytes.length, encoded)] rows'
      ⟨table', none, none⟩) :
    ReadsBack limit (bytes ++ encoded) (rows ++ rows') table' (records ++ [(bytes.length, encoded)]) where
  splits := by
    have hsplits : Splits (scanMeasure .binary) isSeparator (0 + bytes.length) (encoded ++ [])
        [(0 + bytes.length, encoded)] .clean :=
      splits_record scanMeasure_stable hrecord (.clean rfl)
    rw [List.append_nil] at hsplits
    have happend := h.splits.append scanMeasure_stable hsplits
    rwa [Nat.zero_add] at happend
  delivers := h.delivers.append hdelivers
  limited := by
    intro r hr
    rcases List.mem_append.mp hr with hr | hr
    · exact h.limited r hr
    · rw [List.mem_singleton.mp hr]
      exact hle

theorem row (h : ReadsBack limit bytes rows table records) (hrow : IsMapRow encoded)
    (hle : encoded.length ≤ limit) :
    ReadsBack limit (bytes ++ encoded) (rows ++ [⟨table, none, none, encoded, .binary, bytes.length⟩]) table
      (records ++ [(bytes.length, encoded)]) :=
  h.record hrow.isRecord hle (.row (hrow.classify _) .nil)

theorem switch (h : ReadsBack limit bytes rows table records) (hlimit : switchBytes ≤ limit)
    (index : Int64) :
    ReadsBack limit (bytes ++ encodeTableSwitch index .binary) rows index
      (records ++ [(bytes.length, switchRecord index)]) := by
  have hrecord := h.record (switchRecord_isRecord index)
    ((switchRecord_length_le index).trans hlimit)
    (.control (classify_switchRecord index _) Classified.noConfusion Classified.noConfusion .nil)
  rw [List.append_nil] at hrecord
  rw [encodeTableSwitch_binary, ← List.append_assoc]
  exact hrecord.separator

/-- **A reader of these bytes gives these rows**, however it gets them. -/
theorem events {script : List ReadStep} (h : ReadsBack limit bytes rows table records)
    (hquiet : Quiet script) (size : Nat) :
    (JobReader.over bytes script size limit).events = (rows.map .row, none) := by
  rw [events_eq_interpret size hquiet h.splits ⟨h.limited, fun n hn => by cases hn⟩]
  exact h.delivers.interpret

end ReadsBack

/-! ## Calls of a sink -/

/-- A call that fails has taken nothing. -/
def AllOrNothing (script : List SinkStep) : Prop :=
  ∀ step ∈ script, ∀ written message, step = .failed written message → written = 0

/-- The next call fails. -/
def Sink.refuses (sink : Sink) : Bool :=
  match sink.script with
  | .failed _ _ :: _ => true
  | _ => false

omit [FloatText] in
theorem Sink.writeAll_cases (sink : Sink) (h : AllOrNothing sink.script) (data : List UInt8) :
    ∃ script, AllOrNothing script ∧
      ((sink.refuses = false ∧ sink.writeAll data = (.ok (), ⟨sink.bytes ++ data, script⟩)) ∨
        ∃ message, sink.refuses = true ∧
          sink.writeAll data = (.error message, ⟨sink.bytes, script⟩)) := by
  obtain ⟨bytes, script⟩ := sink
  cases script with
  | nil => exact ⟨[], h, .inl ⟨rfl, rfl⟩⟩
  | cons step script =>
    obtain ⟨hstep, hrest⟩ := List.forall_mem_cons.mp h
    refine ⟨script, hrest, ?_⟩
    cases step with
    | done => exact .inl ⟨rfl, rfl⟩
    | failed written message =>
      right
      refine ⟨message, rfl, ?_⟩
      -- nothing of the data is taken
      rw [hstep written message rfl]
      show (_, (⟨bytes ++ [], script⟩ : Sink)) = _
      rw [List.append_nil]

/-- A sink whose bytes are read back as these rows, and leave the reader at this table. -/
structure Filing (limit : Nat) (sink : Sink) (rows : List Row) (table : Int64) : Prop where
  allOrNothing : AllOrNothing sink.script
  reads : ∃ records, ReadsBack limit sink.bytes rows table records

namespace Filing

variable {limit : Nat} {sink : Sink} {row : List UInt8} {rows : List Row} {table : Int64}

/-- **A row and its separator.** The row is there or it is not, and it is in the table that
the stream is switched to. -/
theorem writeRow (h : Filing limit sink rows table) (hrow : IsMapRow row)
    (hle : row.length ≤ limit) :
    let written := sink.writeEach [row, [0x3B]]
    (Filing limit written.2 rows table ∧ written.1 ≠ .ok ()) ∨
      Filing limit written.2
        (rows ++ [⟨table, none, none, row, .binary, sink.bytes.length⟩]) table := by
  intro written
  obtain ⟨records, hreads⟩ := h.reads
  obtain ⟨script, hscript, hwrite⟩ := sink.writeAll_cases h.allOrNothing row
  rcases hwrite with ⟨-, hwrite⟩ | ⟨message, -, hwrite⟩
  · have hwritten : written = (⟨sink.bytes ++ row, script⟩ : Sink).writeEach [[0x3B]] := by
      show sink.writeEach _ = _
      rw [Sink.writeEach, hwrite]
    rw [hwritten]
    obtain ⟨script', hscript', hwrite'⟩ := Sink.writeAll_cases ⟨sink.bytes ++ row, script⟩
      hscript [0x3B]
    right
    rcases hwrite' with ⟨-, hwrite'⟩ | ⟨message, -, hwrite'⟩
    · rw [Sink.writeEach, hwrite']
      exact ⟨hscript', _, (hreads.row hrow hle).separator⟩
    · rw [Sink.writeEach, hwrite']
      exact ⟨hscript', _, hreads.row hrow hle⟩
  · left
    have hwritten : written = (.error message, ⟨sink.bytes, script⟩) := by
      show sink.writeEach _ = _
      rw [Sink.writeEach, hwrite]
    rw [hwritten]
    exact ⟨⟨hscript, records, hreads⟩, fun hok => by cases hok⟩

/-- A switch record that is lost changes nothing. -/
theorem lostSwitch (h : Filing limit sink rows table) (hrefuses : sink.refuses = true)
    (record : List UInt8) (rest : List (List UInt8)) :
    let written := sink.writeEach (record :: rest)
    Filing limit written.2 rows table ∧ written.1 ≠ .ok () := by
  intro written
  obtain ⟨script, hscript, hwrite⟩ := Sink.writeAll_cases sink h.allOrNothing record
  rcases hwrite with ⟨hquiet, -⟩ | ⟨message, -, hwrite⟩
  · rw [hrefuses] at hquiet
    cases hquiet
  · have hwritten : written = (.error message, ⟨sink.bytes, script⟩) := by
      show sink.writeEach _ = _
      rw [Sink.writeEach, hwrite]
    rw [hwritten]
    exact ⟨⟨hscript, h.reads⟩, fun hok => by cases hok⟩

/-- A switch record that arrives switches the stream. -/
theorem writeSwitch (h : Filing limit sink rows table) (hrefuses : sink.refuses = false)
    (hlimit : switchBytes ≤ limit) (index : Int64) (rest : List (List UInt8)) :
    ∃ switched : Sink, Filing limit switched rows index ∧
      sink.writeEach (encodeTableSwitch index .binary :: rest) = switched.writeEach rest := by
  obtain ⟨script, hscript, hwrite⟩ :=
    Sink.writeAll_cases sink h.allOrNothing (encodeTableSwitch index .binary)
  rcases hwrite with ⟨-, hwrite⟩ | ⟨message, hfails, -⟩
  · obtain ⟨records, hreads⟩ := h.reads
    refine ⟨⟨sink.bytes ++ encodeTableSwitch index .binary, script⟩,
      ⟨hscript, _, hreads.switch hlimit index⟩, ?_⟩
    rw [Sink.writeEach, hwrite]
  · rw [hrefuses] at hfails
    cases hfails

end Filing

/-! ## A writer in switch mode -/

/-- A writer in switch mode, switched to `current`. Its bytes are read back as these rows, and
leave the reader at `table`. -/
structure Switching (limit : Nat) (writer : JobWriter) (current : Int64) (rows : List Row)
    (table : Int64) : Prop where
  routing : writer.routing = .tableSwitches current
  format : writer.format = .binary
  sink : ∃ sink, writer.tables = [sink] ∧ Filing limit sink rows table

/-- The call has a switch record to write. -/
def JobWriter.dueSwitch (writer : JobWriter) (table : Nat) : Bool :=
  (writer.checkTable table).isOk && (writer.routing.route table).switch.isSome

/-- Whether the last switch record that was due has been lost, behind a call for this table;
`lost` says it of the calls before. -/
def JobWriter.lostAfter (writer : JobWriter) (lost : Bool) (table : Nat) : Bool :=
  if writer.dueSwitch table then
    writer.tables[(writer.routing.route table).sinkIndex]?.any Sink.refuses
  else lost

/-- The row as it is read back. -/
def rowIn (table : Int64) (row : List UInt8) (offset : Nat) : Row :=
  ⟨table, none, none, row, .binary, offset⟩

omit [FloatText] in
theorem route_same {current : Int64} {t : Nat} (h : current = switchIndex t) :
    (Routing.tableSwitches current).route t = ⟨0, none, .tableSwitches (switchIndex t)⟩ := by
  rw [← h]
  exact if_pos h

omit [FloatText] in
theorem route_other {current : Int64} {t : Nat} (h : current ≠ switchIndex t) :
    (Routing.tableSwitches current).route t =
      ⟨0, some (switchIndex t), .tableSwitches (switchIndex t)⟩ := by
  exact if_neg h

omit [FloatText] in
theorem mapError_eq_ok {outcome : Except String Unit} {f : String → WriteError} :
    outcome.mapError f = .ok () ↔ outcome = .ok () := by
  cases outcome with
  | error message => exact iff_of_false (fun h => by cases h) (fun h => by cases h)
  | ok u => exact iff_of_true rfl rfl

namespace Switching

variable {limit : Nat} {writer : JobWriter} {current table : Int64} {rows : List Row}
  {row : List UInt8} {t : Nat}

/-- What is behind a call that put these pieces into the sink. -/
theorem written {outcome : Except String Unit} {s sink : Sink} {rows' : List Row}
    {table' : Int64} {switch : Option Int64} (h : Switching limit writer current rows table)
    (htables : writer.tables = [s])
    (hroute : writer.routing.route t = ⟨0, switch, .tableSwitches (switchIndex t)⟩)
    (hpieces : s.writeEach ((switch.map fun index => encodeTableSwitch index .binary).toList ++
      [row, [0x3B]]) = (outcome, sink))
    (hfiling : Filing limit sink rows' table') :
    Switching limit (writer.writeBytes t row).2 (switchIndex t) rows' table' ∧
      ((writer.writeBytes t row).1 = .ok () ↔ outcome = .ok ()) := by
  have hwrite : writer.writeBytes t row = (outcome.mapError (.write t),
      { writer with routing := .tableSwitches (switchIndex t), tables := [sink] }) := by
    unfold JobWriter.writeBytes
    rw [hroute, htables, h.format]
    show ((s.writeEach _).1.mapError _, _) = _
    rw [hpieces]
    rfl
  rw [hwrite]
  exact ⟨⟨rfl, h.format, sink, rfl, hfiling⟩, mapError_eq_ok⟩

/-- **A call that needs no switch record** puts its row where the stream is. -/
theorem same (h : Switching limit writer current rows table) (hrow : IsMapRow row)
    (hle : row.length ≤ limit) (hsame : current = switchIndex t) :
    ∃ rows', Switching limit (writer.writeBytes t row).2 (switchIndex t) rows' table ∧
      ((writer.writeBytes t row).1 = .ok () →
        ∃ offset, rows' = rows ++ [rowIn table row offset]) := by
  obtain ⟨sink, htables, hfiling⟩ := h.sink
  have hroute : writer.routing.route t = ⟨0, none, .tableSwitches (switchIndex t)⟩ := by
    rw [h.routing]
    exact route_same hsame
  rcases hfiling.writeRow hrow hle with ⟨hkept, hfailed⟩ | hmore
  · obtain ⟨hbehind, hok⟩ := h.written htables hroute rfl hkept
    exact ⟨rows, hbehind, fun h => absurd (hok.mp h) hfailed⟩
  · obtain ⟨hbehind, -⟩ := h.written htables hroute rfl hmore
    exact ⟨_, hbehind, fun _ => ⟨sink.bytes.length, rfl⟩⟩

/-- **A call whose switch record is lost** leaves the stream where it is. -/
theorem lost (h : Switching limit writer current rows table) (row : List UInt8) (hne : current ≠ switchIndex t)
    (hlost : ∀ sink, writer.tables = [sink] → sink.refuses = true) :
    Switching limit (writer.writeBytes t row).2 (switchIndex t) rows table ∧
      (writer.writeBytes t row).1 ≠ .ok () := by
  obtain ⟨sink, htables, hfiling⟩ := h.sink
  have hroute : writer.routing.route t =
      ⟨0, some (switchIndex t), .tableSwitches (switchIndex t)⟩ := by
    rw [h.routing]
    exact route_other hne
  obtain ⟨hkept, hfailed⟩ := hfiling.lostSwitch (hlost sink htables)
    (encodeTableSwitch (switchIndex t) .binary) [row, [0x3B]]
  obtain ⟨hbehind, hok⟩ := h.written htables hroute rfl hkept
  exact ⟨hbehind, fun h => hfailed (hok.mp h)⟩

/-- **A call whose switch record arrives** puts its row in its table. -/
theorem switched (h : Switching limit writer current rows table) (hrow : IsMapRow row)
    (hle : row.length ≤ limit) (hlimit : switchBytes ≤ limit) (hne : current ≠ switchIndex t)
    (harrives : ∀ sink, writer.tables = [sink] → sink.refuses = false) :
    ∃ rows', Switching limit (writer.writeBytes t row).2 (switchIndex t) rows' (switchIndex t) ∧
      ((writer.writeBytes t row).1 = .ok () →
        ∃ offset, rows' = rows ++ [rowIn (switchIndex t) row offset]) := by
  obtain ⟨sink, htables, hfiling⟩ := h.sink
  have hroute : writer.routing.route t =
      ⟨0, some (switchIndex t), .tableSwitches (switchIndex t)⟩ := by
    rw [h.routing]
    exact route_other hne
  obtain ⟨behind, hbehind, hswitch⟩ := hfiling.writeSwitch (harrives sink htables) hlimit
    (switchIndex t) [row, [0x3B]]
  rcases hbehind.writeRow hrow hle with ⟨hkept, hfailed⟩ | hmore
  · obtain ⟨hafter, hok⟩ := h.written htables hroute hswitch hkept
    exact ⟨rows, hafter, fun h => absurd (hok.mp h) hfailed⟩
  · obtain ⟨hafter, -⟩ := h.written htables hroute hswitch hmore
    exact ⟨_, hafter, fun _ => ⟨behind.bytes.length, rfl⟩⟩

/-! ### Whether a switch record is lost -/

omit [FloatText] in
theorem lostAfter_refused {lost : Bool} {e : WriteError} (h : writer.checkTable t = .error e) :
    writer.lostAfter lost t = lost := by
  unfold JobWriter.lostAfter JobWriter.dueSwitch
  rw [h]
  rfl

theorem lostAfter_same {lost : Bool} (h : Switching limit writer current rows table)
    (hsame : current = switchIndex t) : writer.lostAfter lost t = lost := by
  have hdue : writer.dueSwitch t = false := by
    unfold JobWriter.dueSwitch
    rw [h.routing, route_same hsame]
    exact Bool.and_false _
  unfold JobWriter.lostAfter
  rw [hdue, if_neg Bool.false_ne_true]

theorem lostAfter_other {lost : Bool} {sink : Sink} (h : Switching limit writer current rows table)
    (hcheck : writer.checkTable t = .ok ()) (hne : current ≠ switchIndex t)
    (htables : writer.tables = [sink]) : writer.lostAfter lost t = sink.refuses := by
  have hdue : writer.dueSwitch t = true := by
    unfold JobWriter.dueSwitch
    rw [h.routing, route_other hne, hcheck]
    rfl
  unfold JobWriter.lostAfter
  rw [hdue, if_pos rfl, h.routing, route_other hne, htables]
  rfl

/-- **One call of `write_raw`** keeps the writer in step with its stream, or comes in step
with it, when the last switch record that was due has arrived. -/
theorem writeRaw {lost : Bool} (h : Switching limit writer current rows table)
    (hstep : lost = false → current = table) (hrow : IsMapRow row) (hle : row.length ≤ limit)
    (hlimit : switchBytes ≤ limit) :
    ∃ current' rows' table', Switching limit (writer.writeRaw t row).2 current' rows' table' ∧
      (writer.lostAfter lost t = false → current' = table' ∧
        ((writer.writeRaw t row).1 = .ok () →
          ∃ offset, rows' = rows ++ [rowIn (switchIndex t) row offset])) := by
  unfold JobWriter.writeRaw
  cases hcheck : writer.checkTable t with
  | error e =>
    rw [lostAfter_refused hcheck]
    exact ⟨current, rows, table, h, fun hkept => ⟨hstep hkept, fun hok => by cases hok⟩⟩
  | ok u =>
  by_cases hsame : current = switchIndex t
  · obtain ⟨rows', hbehind, hok⟩ := h.same hrow hle hsame
    refine ⟨_, rows', table, hbehind, ?_⟩
    rw [h.lostAfter_same hsame]
    intro hkept
    have htable : switchIndex t = table := hsame.symm.trans (hstep hkept)
    rw [htable]
    exact ⟨rfl, hok⟩
  · obtain ⟨sink, htables, -⟩ := h.sink
    rw [h.lostAfter_other hcheck hsame htables]
    cases hrefuses : sink.refuses with
    | true =>
      obtain ⟨hbehind, -⟩ := h.lost row hsame (by
        intro s hs
        rw [htables] at hs
        cases hs
        exact hrefuses)
      exact ⟨_, rows, table, hbehind, fun hkept => Bool.noConfusion hkept⟩
    | false =>
      obtain ⟨rows', hbehind, hok⟩ := h.switched hrow hle hlimit hsame (by
        intro s hs
        rw [htables] at hs
        cases hs
        exact hrefuses)
      exact ⟨_, rows', _, hbehind, fun _ => ⟨rfl, hok⟩⟩

/-- **A lost switch record misfiles**: when the same table is written again and that
succeeds, the row is read back in the table before. -/
theorem lost_switch_misfiles {again : List UInt8} (h : Switching limit writer table rows table)
    (hlost : writer.lostAfter false t = true) (hrow : IsMapRow again) (hle : again.length ≤ limit) :
    let retried := (writer.writeRaw t row).2.writeRaw t again
    retried.1 = .ok () → table ≠ switchIndex t ∧ ∃ offset,
      Switching limit retried.2 (switchIndex t) (rows ++ [rowIn table again offset]) table := by
  intro retried hok
  cases hcheck : writer.checkTable t with
  | error e =>
    rw [lostAfter_refused hcheck] at hlost
    cases hlost
  | ok u =>
  have hne : table ≠ switchIndex t := by
    intro hsame
    rw [h.lostAfter_same hsame] at hlost
    cases hlost
  obtain ⟨hbehind, -⟩ := h.lost row hne (by
    intro s hs
    rwa [h.lostAfter_other hcheck hne hs] at hlost)
  have hfirst : writer.writeRaw t row = writer.writeBytes t row := by
    unfold JobWriter.writeRaw
    rw [hcheck]
  have hsecond : retried = (writer.writeBytes t row).2.writeRaw t again := by
    show (writer.writeRaw t row).2.writeRaw t again = _
    rw [hfirst]
  rw [hsecond] at hok ⊢
  refine ⟨hne, ?_⟩
  unfold JobWriter.writeRaw at hok ⊢
  cases hcheck' : (writer.writeBytes t row).2.checkTable t with
  | error e =>
    rw [hcheck'] at hok
    cases hok
  | ok u =>
    rw [hcheck'] at hok
    -- the writer takes the stream to be at the table already
    obtain ⟨rows', hafter, hrows⟩ := hbehind.same hrow hle rfl
    obtain ⟨offset, rfl⟩ := hrows hok
    exact ⟨offset, hafter⟩

theorem output (h : Switching limit writer current rows table) {reads : List ReadStep}
    (hquiet : Quiet reads) (size : Nat) :
    (JobReader.over writer.output reads size limit).events = (rows.map .row, none) := by
  obtain ⟨sink, htables, hfiling⟩ := h.sink
  obtain ⟨records, hreads⟩ := hfiling.reads
  have hbytes : writer.output = sink.bytes := by
    unfold JobWriter.output
    rw [htables, List.flatMap_cons, List.flatMap_nil, List.append_nil]
  rw [hbytes]
  exact hreads.events hquiet size

theorem start (limit count : Nat) {script : List SinkStep} (h : AllOrNothing script) :
    Switching limit (.fromWriterWithSwitches ⟨[], script⟩ count .binary) 0 [] 0 where
  routing := rfl
  format := rfl
  sink := ⟨⟨[], script⟩, rfl, h, [], .nil limit⟩

end Switching

end Ytsaurus.Job
