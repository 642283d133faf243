import Ytsaurus.Proof.Job.Window

/-!
# `Proof/Job/Events.lean` — the events of a stream

What a stream means is `interpret`ed from the records that it splits into: a control record
sets an index, a row is reported with the indices in front of it, a key switch is reported.
`Lined` says of a reader that it is about to give certain events and then to end in a
certain way. A reader whose buffer is a window over the stream gives exactly the events of the
stream (`lined_interpret`).

`interpret` is the reader without its buffer: the classification of a record and the indices are
the code's own, and what is left out is how the bytes come. It is what the events depend on, and it
shows that they depend on nothing else. What the indices should be, as the documentation has it, is
another question, for `Proof/Job/Controls.lean`.

`ensure_pending` is what all the ways of reading go through: it looks for the next row or key
switch, remembers it as pending, and gives the same again until it is consumed. `Lined` follows it
through a stream, and asking again is part of the definition, since the group iterators do ask
again. That the reader stays at the end of its input is there for the same reason.
-/

set_option autoImplicit false

namespace Ytsaurus.Job

open Yson Framing

/-! ## What rows are reported with -/

/-- What the rows that follow are reported with. -/
structure Indices where
  tableIndex : Int64
  rowIndex : Option Int64
  rangeIndex : Option Int64

namespace Indices

def control (indices : Indices) : Classified → Indices
  | .tableIndex i => ⟨i, none, none⟩
  | .rowIndex i => { indices with rowIndex := some i }
  | .rangeIndex i => { indices with rangeIndex := some i }
  | _ => indices

def next (indices : Indices) : Indices :=
  { indices with rowIndex := indices.rowIndex.map (· + 1) }

def row (indices : Indices) (format : YsonFormat) (offset : Nat) (record : List UInt8) : Row where
  tableIndex := indices.tableIndex
  rowIndex := indices.rowIndex
  rangeIndex := indices.rangeIndex
  bytes := record
  format := format
  offset := offset

end Indices

def JobReader.indices (reader : JobReader) : Indices :=
  ⟨reader.tableIndex, reader.rowIndex, reader.rangeIndex⟩

theorem SameControl.indices {reader reader' : JobReader} (h : SameControl reader reader') :
    reader'.indices = reader.indices := by
  unfold JobReader.indices
  rw [h.tableIndex, h.rowIndex, h.rangeIndex]

theorem applyControl_indices (reader : JobReader) (control : Classified) :
    (applyControl reader control).indices = reader.indices.control control := by
  cases control <;> rfl

variable [FloatText]

/-! ## What a reader is about to give -/

/-- From what `ensure_pending` returned, the events that follow and how they end. Asking it
again gives the same. -/
inductive Lined : Except JobError (Option Pending × JobReader) → List Event → Option JobError →
    Prop
  | done {reader : JobReader} (hagain : ensurePending reader = .ok (none, reader)) :
      Lined (.ok (none, reader)) [] none
  | failed {e : JobError} : Lined (.error e) [] (some e)
  | row {reader : JobReader} {len : Nat} {events : List Event} {outcome : Option JobError}
      (hpending : reader.pending = some (.row len))
      (hrest : Lined (ensurePending (reader.consumed len)) events outcome) :
      Lined (.ok (some (.row len), reader)) (.row (reader.pendingRow len) :: events) outcome
  | keySwitch {reader : JobReader} {len : Nat} {events : List Event} {outcome : Option JobError}
      (hpending : reader.pending = some (.keySwitch len))
      (hrest : Lined (ensurePending (reader.consumed len)) events outcome) :
      Lined (.ok (some (.keySwitch len), reader)) (.keySwitch :: events) outcome

theorem ensurePending_none {reader : JobReader} (h : reader.pending = none) :
    ensurePending reader =
      ensurePendingLoop (reader.window.length + reader.input.rest.length + 1) reader := by
  unfold ensurePending
  rw [h]

theorem ensurePending_some {reader : JobReader} {pending : Pending}
    (h : reader.pending = some pending) : ensurePending reader = .ok (some pending, reader) := by
  unfold ensurePending
  rw [h]

/-- At the end of the input the reader stays where it is. -/
theorem ensurePending_ended {reader : JobReader} (hpending : reader.pending = none)
    (hdone : reader.inputDone = true) (hwindow : reader.window = []) :
    ensurePending reader = .ok (none, reader) := by
  have hskip : skipSeparators reader = .ok ((), reader) := by
    unfold skipSeparators
    rw [StateExcept.modify_apply, hwindow]
    rfl
  have hnext : nextRecordLen reader = .ok (none, reader) := by
    unfold nextRecordLen
    rw [nextRecordLenLoop_done hskip (scanWindow_nil hwindow) hdone, if_pos hwindow]
  rw [ensurePending_none hpending, ensurePendingLoop, StateExcept.bind_ok hnext]
  rfl

theorem nextEvent_none {reader reader' : JobReader} (h : ensurePending reader = .ok (none, reader')) :
    nextEvent reader = .ok (none, reader') := by
  unfold nextEvent
  rw [StateExcept.bind_ok h]
  rfl

theorem nextEvent_error {reader : JobReader} {e : JobError} (h : ensurePending reader = .error e) :
    nextEvent reader = .error e := by
  unfold nextEvent
  rw [StateExcept.bind_error h]

theorem nextEvent_row {reader reader' : JobReader} {len : Nat}
    (h : ensurePending reader = .ok (some (.row len), reader')) :
    nextEvent reader = .ok (some (.row (reader'.pendingRow len)), reader'.consumed len) := by
  unfold nextEvent
  rw [StateExcept.bind_ok h]
  rfl

theorem nextEvent_keySwitch {reader reader' : JobReader} {len : Nat}
    (h : ensurePending reader = .ok (some (.keySwitch len), reader')) :
    nextEvent reader = .ok (some .keySwitch, reader'.consumed len) := by
  unfold nextEvent
  rw [StateExcept.bind_ok h]
  rfl

/-- **Repeated calls of `next_event`** give the events that are lined up. -/
theorem Lined.eventsLoop {reader : JobReader} {events : List Event} {outcome : Option JobError}
    (h : Lined (ensurePending reader) events outcome) {fuel : Nat} (hfuel : events.length < fuel) :
    eventsLoop fuel reader = (events, outcome) := by
  generalize hx : ensurePending reader = x at h
  induction h generalizing reader fuel with
  | done _ =>
    obtain ⟨fuel, rfl⟩ := Nat.exists_eq_succ_of_ne_zero (Nat.ne_zero_of_lt hfuel)
    rw [Job.eventsLoop, nextEvent_none hx]
  | failed =>
    obtain ⟨fuel, rfl⟩ := Nat.exists_eq_succ_of_ne_zero (Nat.ne_zero_of_lt hfuel)
    rw [Job.eventsLoop, nextEvent_error hx]
  | row _ _ ih =>
    obtain ⟨fuel, rfl⟩ := Nat.exists_eq_succ_of_ne_zero (Nat.ne_zero_of_lt hfuel)
    rw [Job.eventsLoop, nextEvent_row hx]
    dsimp only
    rw [ih (Nat.lt_of_succ_lt_succ hfuel) rfl]
  | keySwitch _ _ ih =>
    obtain ⟨fuel, rfl⟩ := Nat.exists_eq_succ_of_ne_zero (Nat.ne_zero_of_lt hfuel)
    rw [Job.eventsLoop, nextEvent_keySwitch hx]
    dsimp only
    rw [ih (Nat.lt_of_succ_lt_succ hfuel) rfl]

/-! ## What a record can be refused for -/

/-- The stream is to blame, not the reader. -/
def JobError.ofStream : JobError → Bool
  | .yson _ _ => true
  | .truncatedRecord _ _ => true
  | .badControlRecord _ _ _ _ => true
  | _ => false

omit [FloatText] in
theorem asI64_ofStream {offset : Nat} {name : String} {v : YsonValue} {e : JobError}
    (h : asI64 offset name v = .error e) : e.ofStream := by
  unfold asI64 at h
  split at h
  · cases h
  · cases h
    rfl

omit [FloatText] in
theorem classifyAttributes_ofStream {offset : Nat} {attributes : List (List UInt8 × YsonValue)}
    {e : JobError} (h : classifyAttributes offset attributes = .error e) : e.ofStream := by
  induction attributes with
  | nil => cases h
  | cons entry attributes ih =>
    obtain ⟨key, v⟩ := entry
    rw [classifyAttributes] at h
    split at h
    · split at h
      · cases h
      · cases h
      · cases h
        rfl
    · split at h
      · exact asI64_ofStream (ExceptList.map_eq_error.mp h)
      · split at h
        · exact asI64_ofStream (ExceptList.map_eq_error.mp h)
        · split at h
          · exact asI64_ofStream (ExceptList.map_eq_error.mp h)
          · exact ih h

theorem classify_ofStream {record : List UInt8} {format : YsonFormat} {offset : Nat} {e : JobError}
    (h : classify record format offset = .error e) : e.ofStream := by
  unfold classify at h
  split at h
  · unfold classifyAttributed at h
    split at h
    · cases h
      rfl
    · split at h
      · exact classifyAttributes_ofStream h
      · cases h
      · cases h
  · cases h

/-! ## What a stream means -/

/-- How the events of a stream with this ending end. -/
def outcomeOf : Ending YsonError → Option JobError
  | .clean => none
  | .truncated offset len => some (.truncatedRecord offset len)
  | .malformed offset _ e => some (.yson offset e)

/-- The events of these records, and how they end. -/
def interpret (format : YsonFormat) (ending : Ending YsonError) :
    Indices → List (Nat × List UInt8) → List Event × Option JobError
  | _, [] => ([], outcomeOf ending)
  | indices, (offset, record) :: records =>
    match classify record format offset with
    | .error e => ([], some e)
    | .ok .row =>
      let rest := interpret format ending indices.next records
      (.row (indices.row format offset record) :: rest.1, rest.2)
    | .ok .keySwitch =>
      let rest := interpret format ending indices records
      (.keySwitch :: rest.1, rest.2)
    | .ok control => interpret format ending (indices.control control) records

theorem interpret_control {format : YsonFormat} {ending : Ending YsonError} {indices : Indices}
    {offset : Nat} {record : List UInt8} {records : List (Nat × List UInt8)} {control : Classified}
    (hclass : classify record format offset = .ok control) (hrow : control ≠ .row)
    (hswitch : control ≠ .keySwitch) :
    interpret format ending indices ((offset, record) :: records) =
      interpret format ending (indices.control control) records := by
  rw [interpret, hclass]
  cases control with
  | row => exact absurd rfl hrow
  | keySwitch => exact absurd rfl hswitch
  | skip => rfl
  | tableIndex i => rfl
  | rowIndex i => rfl
  | rangeIndex i => rfl

/-! ## The reader gives the events of its stream -/

section Loop

variable {reader reader' : JobReader} {fuel len : Nat}

theorem ensurePendingLoop_none (h : nextRecordLen reader = .ok (none, reader')) :
    ensurePendingLoop (fuel + 1) reader = .ok (none, reader') := by
  rw [ensurePendingLoop, StateExcept.bind_ok h]
  rfl

theorem ensurePendingLoop_error {e : JobError} (h : nextRecordLen reader = .error e) :
    ensurePendingLoop (fuel + 1) reader = .error e := by
  rw [ensurePendingLoop, StateExcept.bind_error h]

theorem ensurePendingLoop_refused {e : JobError} (h : nextRecordLen reader = .ok (some len, reader'))
    (hclass : classify (reader'.window.take len) reader'.format reader'.offset = .error e) :
    ensurePendingLoop (fuel + 1) reader = .error e := by
  rw [ensurePendingLoop, StateExcept.bind_ok h]
  dsimp only
  rw [StateExcept.get_bind, hclass]
  rfl

theorem ensurePendingLoop_row (h : nextRecordLen reader = .ok (some len, reader'))
    (hclass : classify (reader'.window.take len) reader'.format reader'.offset = .ok .row) :
    ensurePendingLoop (fuel + 1) reader =
      .ok (some (.row len), { reader' with pending := some (.row len) }) := by
  rw [ensurePendingLoop, StateExcept.bind_ok h]
  dsimp only
  rw [StateExcept.get_bind, hclass]
  rfl

theorem ensurePendingLoop_keySwitch (h : nextRecordLen reader = .ok (some len, reader'))
    (hclass : classify (reader'.window.take len) reader'.format reader'.offset = .ok .keySwitch) :
    ensurePendingLoop (fuel + 1) reader =
      .ok (some (.keySwitch len), { reader' with pending := some (.keySwitch len) }) := by
  rw [ensurePendingLoop, StateExcept.bind_ok h]
  dsimp only
  rw [StateExcept.get_bind, hclass]
  rfl

theorem ensurePendingLoop_control {control : Classified}
    (h : nextRecordLen reader = .ok (some len, reader'))
    (hclass : classify (reader'.window.take len) reader'.format reader'.offset = .ok control)
    (hrow : control ≠ .row) (hswitch : control ≠ .keySwitch) :
    ensurePendingLoop (fuel + 1) reader =
      ensurePendingLoop fuel { applyControl reader' control with pos := reader'.pos + len } := by
  rw [ensurePendingLoop, StateExcept.bind_ok h]
  dsimp only
  rw [StateExcept.get_bind, hclass]
  cases control with
  | row => exact absurd rfl hrow
  | keySwitch => exact absurd rfl hswitch
  | skip => rfl
  | tableIndex i => rfl
  | rowIndex i => rfl
  | rangeIndex i => rfl

end Loop

/-- **The events of the stream are lined up**, whatever part of it the buffer holds. -/
theorem lined_interpret {records : List (Nat × List UInt8)} {ending : Ending YsonError}
    {reader : JobReader} {off fuel : Nat} {s : List UInt8} (hholds : Holds reader off s)
    (hformat : reader.format = .binary) (hpending : reader.pending = none)
    (hsplits : Splits (scanMeasure .binary) isSeparator off s records ending)
    (hfits : Fits reader.maxRecordBytes records ending) (hfuel : records.length < fuel) :
    Lined (ensurePendingLoop fuel reader)
      (interpret .binary ending reader.indices records).1
      (interpret .binary ending reader.indices records).2 := by
  induction records generalizing reader off s fuel with
  | nil =>
    obtain ⟨fuel, rfl⟩ := Nat.exists_eq_succ_of_ne_zero (Nat.ne_zero_of_lt hfuel)
    have hnext := nextRecordLen_spec hholds hformat hsplits hfits
    generalize hx : nextRecordLen reader = x at hnext
    cases hnext with
    | clean hsame hdone hwindow =>
      rw [ensurePendingLoop_none hx]
      exact .done (ensurePending_ended (hsame.pending.trans hpending) hdone hwindow)
    | truncated =>
      rw [ensurePendingLoop_error hx]
      exact .failed
    | malformed =>
      rw [ensurePendingLoop_error hx]
      exact .failed
  | cons r records ih =>
    obtain ⟨fuel, rfl⟩ := Nat.exists_eq_succ_of_ne_zero (Nat.ne_zero_of_lt hfuel)
    have hnext := nextRecordLen_spec hholds hformat hsplits hfits
    generalize hx : nextRecordLen reader = x at hnext
    cases hnext with
    | @record o record s' _ _ reader₁ hsame hfront hle hrest =>
    rw [List.length_cons] at hfuel
    have hformat₁ : reader₁.format = .binary := hsame.format.trans hformat
    have hfits₁ : Fits reader₁.maxRecordBytes records ending := by
      rw [hsame.maxRecordBytes]
      exact ⟨fun r hr => hfits.records r (List.mem_cons_of_mem _ hr), hfits.tail⟩
    -- the record is what stands at the front of the window
    have hwindow : reader₁.window.take record.length = record := by
      have hstream := congrArg (List.take record.length) hfront.stream
      rwa [List.take_append_of_le_length hle, List.take_left] at hstream
    have hclassify : classify (reader₁.window.take record.length) reader₁.format reader₁.offset =
        classify record .binary o := by rw [hwindow, hformat₁, hfront.offset]
    have hrow : reader₁.pendingRow record.length = reader.indices.row .binary o record := by
      unfold JobReader.pendingRow
      rw [hwindow, hformat₁, hfront.offset, ← hsame.indices]
      rfl
    have hcount : records.length < s'.length + 1 := Nat.lt_succ_of_le
      (hrest.count_le scanMeasure_stable)
    cases hclass : classify record .binary o with
    | error e =>
      rw [ensurePendingLoop_refused hx (hclassify.trans hclass), interpret, hclass]
      exact .failed
    | ok control =>
    -- what is lined up behind the record once it has been handed out
    have hbehind : ∀ pending : Pending,
        Lined (ensurePending (JobReader.consumed { reader₁ with pending := some pending }
          record.length))
          (interpret .binary ending (JobReader.consumed { reader₁ with pending := some pending }
            record.length).indices records).1
          (interpret .binary ending (JobReader.consumed { reader₁ with pending := some pending }
            record.length).indices records).2 := by
      intro pending
      have hpassed : Holds (JobReader.consumed { reader₁ with pending := some pending }
          record.length) (o + record.length) s' :=
        hfront.passed hle rfl rfl rfl rfl rfl rfl
      rw [ensurePending_none rfl]
      refine ih hpassed hformat₁ rfl hrest hfits₁ ?_
      rw [← List.length_append, hpassed.stream]
      exact hcount
    by_cases hisRow : control = .row
    · subst hisRow
      rw [ensurePendingLoop_row hx (hclassify.trans hclass), interpret, hclass, ← hrow,
        ← hsame.indices]
      exact .row rfl (hbehind (.row record.length))
    · by_cases hisSwitch : control = .keySwitch
      · subst hisSwitch
        rw [ensurePendingLoop_keySwitch hx (hclassify.trans hclass), interpret, hclass,
          ← hsame.indices]
        exact .keySwitch rfl (hbehind (.keySwitch record.length))
      · rw [ensurePendingLoop_control hx (hclassify.trans hclass) hisRow hisSwitch,
          interpret_control hclass hisRow hisSwitch, ← hsame.indices, ← applyControl_indices]
        have hpassed : Holds { applyControl reader₁ control with pos := reader₁.pos + record.length }
            (o + record.length) s' := by
          cases control <;> exact hfront.passed hle rfl rfl rfl rfl rfl rfl
        have hformat₂ : (applyControl reader₁ control).format = .binary := by
          cases control <;> exact hformat₁
        have hfits₂ : Fits (applyControl reader₁ control).maxRecordBytes records ending := by
          cases control <;> exact hfits₁
        have hpending₂ : (applyControl reader₁ control).pending = none := by
          cases control <;> exact hsame.pending.trans hpending
        exact ih hpassed hformat₂ hpending₂ hrest hfits₂ (Nat.lt_of_succ_lt_succ hfuel)

end Ytsaurus.Job
