import Ytsaurus.Job.Reader
import Ytsaurus.Proof.Records
import Mathlib.Data.List.DropRight

/-!
# `Proof/Job/Window.lean` — the buffer is a window over the stream

Whatever compacting, growing and refilling does to the buffer, the window followed by what
the input has still to deliver is what is left of the stream, at the window's offset
(`Holds`). The scanner's verdicts on a window are stable, so `next_record_len` finds the
records of the whole stream. A record that is incomplete in a window fills it only if it is
longer than the window, so growing never meets the limit.

The reader decides by what it sees in the window, and a wrong decision on a part of a record could
not be taken back. What keeps it right is the stability of the scanner in binary: a length or an
error found on a window is that of the stream, and "incomplete" on a window that cannot be filled
any more is a truncated record. In terms of `Lib/Framing.lean` the stream splits into records and
an ending (`Splits`), and `NextRecord` is what the reader has to answer for such a split.

`Holds` has the arithmetic of the buffer in it (where the window begins, how much of it is valid,
that there is room) because compacting and growing are judged by it. `SameControl` is the frame:
the indices, the format and what is pending are not touched while a record is looked for. `Fits` is
the one condition on the limit. It has to admit every record, and a tail that is never completed
must stay below it; a limit equal to the length of the tail would be met before the end of the
input is.
-/

set_option autoImplicit false

namespace Ytsaurus.Job

open Yson Framing

/-- No call of `read` fails. -/
def Quiet (script : List ReadStep) : Prop := ∀ step ∈ script, ∀ message, step ≠ .failed message

/-- What is left of the stream, from this offset on. -/
structure Holds (reader : JobReader) (off : Nat) (s : List UInt8) : Prop where
  stream : reader.window ++ reader.input.rest = s
  offset : reader.offset = off
  pos : reader.pos ≤ reader.data.length
  size : reader.data.length ≤ reader.capacity
  room : 0 < reader.capacity
  done : reader.inputDone = true → reader.input.rest = []
  quiet : Quiet reader.input.script

/-- The same reader, as far as the buffer and the input do not matter. -/
structure SameControl (reader reader' : JobReader) : Prop where
  format : reader'.format = reader.format
  pending : reader'.pending = reader.pending
  maxRecordBytes : reader'.maxRecordBytes = reader.maxRecordBytes
  tableIndex : reader'.tableIndex = reader.tableIndex
  rowIndex : reader'.rowIndex = reader.rowIndex
  rangeIndex : reader'.rangeIndex = reader.rangeIndex

theorem SameControl.refl (reader : JobReader) : SameControl reader reader :=
  ⟨rfl, rfl, rfl, rfl, rfl, rfl⟩

theorem SameControl.trans {r₁ r₂ r₃ : JobReader} (h : SameControl r₁ r₂)
    (h' : SameControl r₂ r₃) : SameControl r₁ r₃ where
  format := h'.format.trans h.format
  pending := h'.pending.trans h.pending
  maxRecordBytes := h'.maxRecordBytes.trans h.maxRecordBytes
  tableIndex := h'.tableIndex.trans h.tableIndex
  rowIndex := h'.rowIndex.trans h.rowIndex
  rangeIndex := h'.rangeIndex.trans h.rangeIndex

section Buffer

variable {reader : JobReader} {off : Nat} {s : List UInt8}

theorem Holds.window_length (h : Holds reader off s) :
    reader.pos + reader.window.length = reader.data.length := by
  have hpos := h.pos
  unfold JobReader.window
  rw [List.length_drop]
  omega

/-! ## Moving within the window -/

/-- Passing over the front of the window. -/
theorem Holds.advance (h : Holds reader off s) {n : Nat} (hn : n ≤ reader.window.length) :
    Holds { reader with pos := reader.pos + n } (off + n) (s.drop n) := by
  have hwindow := h.window_length
  refine ⟨?_, ?_, ?_, h.size, h.room, h.done, h.quiet⟩
  · rw [← h.stream, List.drop_append_of_le_length hn]
    show reader.data.drop (reader.pos + n) ++ _ = (reader.data.drop reader.pos).drop n ++ _
    rw [List.drop_drop]
  · rw [← h.offset]
    exact (Nat.add_assoc _ _ _).symm
  · show reader.pos + n ≤ reader.data.length
    omega

/-- What passing over the record in front leaves of the stream; the indices do not matter. -/
theorem Holds.passed {reader reader' : JobReader} {o : Nat} {record s : List UInt8}
    (h : Holds reader o (record ++ s)) (hle : record.length ≤ reader.window.length)
    (hdata : reader'.data = reader.data) (hpos : reader'.pos = reader.pos + record.length)
    (hbase : reader'.baseOffset = reader.baseOffset) (hcapacity : reader'.capacity = reader.capacity)
    (hinput : reader'.input = reader.input) (hdone : reader'.inputDone = reader.inputDone) :
    Holds reader' (o + record.length) s := by
  have hadvance := h.advance hle
  rw [List.drop_left] at hadvance
  refine ⟨?_, ?_, ?_, ?_, ?_, ?_, ?_⟩
  · rw [← hadvance.stream]
    unfold JobReader.window
    rw [hdata, hpos, hinput]
  · rw [← hadvance.offset]
    unfold JobReader.offset
    rw [hbase, hpos]
  · rw [hpos, hdata]
    exact hadvance.pos
  · rw [hdata, hcapacity]
    exact h.size
  · rw [hcapacity]
    exact h.room
  · rw [hdone, hinput]
    exact h.done
  · rw [hinput]
    exact h.quiet

/-- Behind the separators, nothing but the position has changed. -/
theorem skipSeparators_apply (reader : JobReader) :
    ∃ reader', skipSeparators reader = .ok ((), reader') ∧ SameControl reader reader' ∧
      reader'.window = reader.window.dropWhile isSeparator ∧ reader'.input = reader.input ∧
      reader'.inputDone = reader.inputDone ∧
      reader' = { reader with
        pos := reader.pos + (reader.window.takeWhile isSeparator).length } := by
  refine ⟨_, rfl, ⟨rfl, rfl, rfl, rfl, rfl, rfl⟩, ?_, rfl, rfl, rfl⟩
  calc reader.data.drop (reader.pos + (reader.window.takeWhile isSeparator).length)
      = reader.window.drop (reader.window.takeWhile isSeparator).length := List.drop_drop.symm
    _ = (reader.window.takeWhile isSeparator ++ reader.window.dropWhile isSeparator).drop
          (reader.window.takeWhile isSeparator).length := by
        rw [List.takeWhile_append_dropWhile]
    _ = reader.window.dropWhile isSeparator := List.drop_left

theorem skipSeparators_holds (h : Holds reader off s) :
    ∃ reader', skipSeparators reader = .ok ((), reader') ∧ SameControl reader reader' ∧
      reader'.window = reader.window.dropWhile isSeparator ∧ reader'.input = reader.input ∧
      reader'.inputDone = reader.inputDone ∧
      Holds reader' (off + (reader.window.takeWhile isSeparator).length)
        (reader.window.dropWhile isSeparator ++ reader.input.rest) := by
  obtain ⟨reader', hskip, hsame, hwindow, hinput, hdone, heq⟩ := skipSeparators_apply reader
  refine ⟨reader', hskip, hsame, hwindow, hinput, hdone, ?_⟩
  have hholds := h.advance (List.takeWhile_prefix isSeparator).length_le
  rw [← heq] at hholds
  have hstream := hholds.stream
  rw [hwindow, hinput] at hstream
  rw [hstream]
  exact hholds

/-! ## Refilling -/

theorem compact_holds (h : Holds reader off s) :
    Holds (compact reader) off s ∧ SameControl reader (compact reader) ∧
      (compact reader).data = reader.window ∧ (compact reader).input = reader.input := by
  unfold compact
  by_cases hpos : reader.pos > 0
  · rw [if_pos hpos]
    have hwindow := h.window_length
    have hsize := h.size
    refine ⟨⟨h.stream, h.offset, Nat.zero_le _, ?_, h.room, h.done, h.quiet⟩,
      ⟨rfl, rfl, rfl, rfl, rfl, rfl⟩, rfl, rfl⟩
    show reader.window.length ≤ reader.capacity
    omega
  · rw [if_neg hpos]
    have hzero : reader.pos = 0 := Nat.eq_zero_of_not_pos hpos
    refine ⟨h, SameControl.refl reader, ?_, rfl⟩
    unfold JobReader.window
    rw [hzero, List.drop_zero]

/-- Growing succeeds below the limit, and makes room. -/
theorem grow_holds (h : Holds reader off s)
    (hlimit : reader.data.length = reader.capacity → reader.capacity < reader.maxRecordBytes) :
    ∃ reader', grow reader = .ok ((), reader') ∧ Holds reader' off s ∧
      SameControl reader reader' ∧ reader'.data = reader.data ∧ reader'.input = reader.input ∧
      reader'.pos = reader.pos ∧ reader.data.length < reader'.capacity := by
  have hsize := h.size
  have hroom := h.room
  unfold grow
  rw [StateExcept.get_bind]
  by_cases hfull : reader.data.length = reader.capacity
  · have hbelow := hlimit hfull
    rw [if_pos hfull, if_neg (Nat.not_le.mpr hbelow)]
    refine ⟨_, rfl, ⟨h.stream, h.offset, h.pos, ?_, ?_, h.done, h.quiet⟩,
      ⟨rfl, rfl, rfl, rfl, rfl, rfl⟩, rfl, rfl, rfl, ?_⟩
    · show reader.data.length ≤ min (reader.capacity * 2) reader.maxRecordBytes
      omega
    · show 0 < min (reader.capacity * 2) reader.maxRecordBytes
      omega
    · show reader.data.length < min (reader.capacity * 2) reader.maxRecordBytes
      omega
  · rw [if_neg hfull]
    exact ⟨reader, rfl, h, SameControl.refl reader, rfl, rfl, rfl, by omega⟩

/-- A quiet script delivers a part of what is left, and never nothing where there is room. -/
theorem readLoop_quiet {room : Nat} (hroom : 0 < room) {script : List ReadStep}
    (hquiet : Quiet script) (rest : List UInt8) :
    ∃ n script', 0 < n ∧ n ≤ room ∧ Quiet script' ∧
      readLoop room rest script = .ok (rest.take n, ⟨rest.drop n, script'⟩) := by
  induction script with
  | nil => exact ⟨room, [], hroom, Nat.le_refl _, List.forall_mem_nil _, rfl⟩
  | cons step script ih =>
    obtain ⟨hstep, hscript⟩ := List.forall_mem_cons.mp hquiet
    cases step with
    | interrupted => exact ih hscript
    | chunk n hn => exact ⟨min n room, script, by omega, Nat.min_le_right _ _, hscript, rfl⟩
    | failed message => exact absurd rfl (hstep message)

theorem readOnce_holds (h : Holds reader off s) (hroom : reader.data.length < reader.capacity) :
    ∃ reader', readOnce reader = .ok ((), reader') ∧ Holds reader' off s ∧
      SameControl reader reader' ∧
      (reader'.inputDone = true ∨ reader'.input.rest.length < reader.input.rest.length) := by
  have hpos := h.pos
  obtain ⟨n, script', hn, hle, hquiet, hread⟩ :=
    readLoop_quiet (Nat.sub_pos_of_lt hroom) h.quiet reader.input.rest
  unfold readOnce
  rw [hread]
  cases hrest : reader.input.rest with
  | nil =>
    -- the end of the input
    rw [List.take_nil, List.drop_nil]
    refine ⟨_, rfl, ⟨?_, h.offset, h.pos, h.size, h.room, fun _ => rfl, hquiet⟩,
      ⟨rfl, rfl, rfl, rfl, rfl, rfl⟩, .inl rfl⟩
    rw [← h.stream, hrest]
    rfl
  | cons b rest =>
    obtain ⟨n, rfl⟩ := Nat.exists_eq_succ_of_ne_zero (Nat.ne_of_gt hn)
    rw [List.take_succ_cons, List.drop_succ_cons]
    refine ⟨_, rfl, ⟨?_, h.offset, ?_, ?_, h.room, ?_, hquiet⟩,
      ⟨rfl, rfl, rfl, rfl, rfl, rfl⟩, .inr ?_⟩
    · rw [← h.stream, hrest]
      show (reader.data ++ b :: rest.take n).drop reader.pos ++ rest.drop n = _
      rw [List.drop_append_of_le_length hpos, List.append_assoc, List.cons_append,
        List.take_append_drop]
      rfl
    · show reader.pos ≤ (reader.data ++ b :: rest.take n).length
      rw [List.length_append]
      omega
    · show (reader.data ++ b :: rest.take n).length ≤ reader.capacity
      rw [List.length_append, List.length_cons, List.length_take]
      omega
    · intro hdone
      have hnil := h.done hdone
      rw [hrest] at hnil
      cases hnil
    · show (rest.drop n).length < (b :: rest).length
      rw [List.length_drop, List.length_cons]
      omega

/-- **Refilling keeps the stream**, and reads a byte or finds the end of the input. -/
theorem fill_holds (h : Holds reader off s)
    (hlimit : reader.window.length = reader.capacity → reader.capacity < reader.maxRecordBytes) :
    ∃ reader', fill reader = .ok ((), reader') ∧ Holds reader' off s ∧
      SameControl reader reader' ∧
      (reader'.inputDone = true ∨ reader'.input.rest.length < reader.input.rest.length) := by
  obtain ⟨hcompact, hsame₁, hdata₁, hinput₁⟩ := compact_holds h
  have hcapacity : (compact reader).capacity = reader.capacity := by
    unfold compact
    split <;> rfl
  have hlimit' : (compact reader).data.length = (compact reader).capacity →
      (compact reader).capacity < (compact reader).maxRecordBytes := by
    rw [hdata₁, hcapacity, hsame₁.maxRecordBytes]
    exact hlimit
  obtain ⟨r₂, hgrow, hholds₂, hsame₂, hdata₂, hinput₂, _, hroom⟩ := grow_holds hcompact hlimit'
  rw [← hdata₂] at hroom
  obtain ⟨r₃, hread, hholds₃, hsame₃, hprogress⟩ := readOnce_holds hholds₂ hroom
  refine ⟨r₃, ?_, hholds₃, (hsame₁.trans hsame₂).trans hsame₃, ?_⟩
  · unfold fill
    rw [StateExcept.modify_bind, StateExcept.bind_ok hgrow, hread]
  · rw [← hinput₁, ← hinput₂]
    exact hprogress

end Buffer

/-! ## The next record -/

variable [FloatText]

/-- What `next_record_len` is to give for a stream that splits into these records and this
ending: a record stands at the front of the window. -/
inductive NextRecord (reader : JobReader) : List (Nat × List UInt8) → Ending YsonError →
    Except JobError (Option Nat × JobReader) → Prop where
  | record {o : Nat} {record s' : List UInt8} {records : List (Nat × List UInt8)}
      {ending : Ending YsonError} {reader' : JobReader} (hsame : SameControl reader reader')
      (hholds : Holds reader' o (record ++ s')) (hle : record.length ≤ reader'.window.length)
      (hrest : Splits (scanMeasure .binary) isSeparator (o + record.length) s' records ending) :
      NextRecord reader ((o, record) :: records) ending (.ok (some record.length, reader'))
  | clean {reader' : JobReader} (hsame : SameControl reader reader')
      (hdone : reader'.inputDone = true) (hwindow : reader'.window = []) :
      NextRecord reader [] .clean (.ok (none, reader'))
  | truncated {o n : Nat} : NextRecord reader [] (.truncated o n) (.error (.truncatedRecord o n))
  | malformed {o n : Nat} {e : YsonError} :
      NextRecord reader [] (.malformed o n e) (.error (.yson o e))

theorem NextRecord.trans {r₁ r₂ : JobReader} (h : SameControl r₁ r₂)
    {records : List (Nat × List UInt8)} {ending : Ending YsonError}
    {result : Except JobError (Option Nat × JobReader)} (hnext : NextRecord r₂ records ending result) :
    NextRecord r₁ records ending result := by
  cases hnext with
  | record hsame hholds hle hrest => exact .record (h.trans hsame) hholds hle hrest
  | clean hsame hdone hwindow => exact .clean (h.trans hsame) hdone hwindow
  | truncated => exact .truncated
  | malformed => exact .malformed

/-- The limit is at least as large as the next record, and larger than a tail. -/
structure Fits (limit : Nat) (records : List (Nat × List UInt8)) (ending : Ending YsonError) :
    Prop where
  records : ∀ r ∈ records, r.2.length ≤ limit
  tail : ∀ n, ending.tail = some n → n < limit

section Next

variable {reader : JobReader} {off : Nat} {s : List UInt8}
  {records : List (Nat × List UInt8)} {ending : Ending YsonError}

theorem scanWindow_nil (h : reader.window = []) : scanWindow reader = .ok (none, reader) := by
  unfold scanWindow
  rw [StateExcept.get_bind, if_pos h]
  rfl

theorem scanWindow_complete {len : Nat} (hwindow : reader.window ≠ [])
    (h : scanMeasure reader.format reader.window = .complete len) :
    scanWindow reader = .ok (some len, reader) := by
  unfold scanWindow
  rw [StateExcept.get_bind, if_neg hwindow, scanMeasure_complete.mp h]
  rfl

theorem scanWindow_malformed {e : YsonError} (hwindow : reader.window ≠ [])
    (h : scanMeasure reader.format reader.window = .malformed e) :
    scanWindow reader = .error (.yson reader.offset e) := by
  unfold scanWindow
  rw [StateExcept.get_bind, if_neg hwindow, scanMeasure_malformed.mp h]
  rfl

theorem scanWindow_incomplete (hwindow : reader.window ≠ [])
    (h : scanMeasure reader.format reader.window = .incomplete) :
    scanWindow reader = .ok (none, reader) := by
  have hscan : scanValue reader.window reader.format = .ok .incomplete := by
    unfold scanMeasure at h
    cases hscan : scanValue reader.window reader.format with
    | error e => rw [hscan] at h; cases h
    | ok scan =>
      rw [hscan] at h
      cases scan with
      | incomplete => rfl
      | complete n => cases h
  unfold scanWindow
  rw [StateExcept.get_bind, if_neg hwindow, hscan]
  rfl

/-- A window on which a record is incomplete leaves room to grow. -/
theorem below_limit {limit : Nat} (hfits : Fits limit records ending)
    (hsplits : Splits (scanMeasure .binary) isSeparator off s records ending) {w rest : List UInt8}
    (hs : w ++ rest = s) (hw : w ≠ []) (hdrop : s.dropWhile isSeparator = s)
    (hincomplete : scanMeasure .binary w = .incomplete) : w.length < limit := by
  have hne : s ≠ [] := by
    rw [← hs]
    exact List.append_ne_nil_of_left_ne_nil hw rest
  have hle : w.length ≤ s.length := by
    rw [← hs, List.length_append]
    exact Nat.le_add_right _ _
  rcases hsplits.of_verdict hne hdrop with ⟨_, _, rfl⟩ | ⟨e, _, _, rfl⟩ | ⟨len, _, hlen, rfl, _⟩
  · exact Nat.lt_of_le_of_lt hle (hfits.tail _ rfl)
  · exact Nat.lt_of_le_of_lt hle (hfits.tail _ rfl)
  · rw [← hs] at hlen
    have hshort := scanMeasure_stable.short hlen hincomplete
    have hrecord := hfits.records _ List.mem_cons_self
    have hlenLe := (scanMeasure_stable.take_complete hlen).2.1
    rw [hs] at hlenLe
    have htake : (s.take len).length = len := List.length_take_of_le hlenLe
    rw [htake] at hrecord
    omega

/-- A verdict on the window ends the search. -/
theorem nextRecordLenLoop_some {fuel len : Nat} {reader₁ : JobReader}
    (hskip : skipSeparators reader = .ok ((), reader₁))
    (hscan : scanWindow reader₁ = .ok (some len, reader₁)) :
    nextRecordLenLoop (fuel + 1) reader = .ok (some len, reader₁) := by
  rw [nextRecordLenLoop, StateExcept.bind_ok hskip, StateExcept.bind_ok hscan]
  rfl

theorem nextRecordLenLoop_malformed {fuel : Nat} {e : JobError} {reader₁ : JobReader}
    (hskip : skipSeparators reader = .ok ((), reader₁)) (hscan : scanWindow reader₁ = .error e) :
    nextRecordLenLoop (fuel + 1) reader = .error e := by
  rw [nextRecordLenLoop, StateExcept.bind_ok hskip, StateExcept.bind_error hscan]

theorem nextRecordLenLoop_done {fuel : Nat} {reader₁ : JobReader}
    (hskip : skipSeparators reader = .ok ((), reader₁))
    (hscan : scanWindow reader₁ = .ok (none, reader₁)) (hdone : reader₁.inputDone = true) :
    nextRecordLenLoop (fuel + 1) reader =
      if reader₁.window = [] then .ok (none, reader₁)
      else .error (.truncatedRecord reader₁.offset reader₁.window.length) := by
  rw [nextRecordLenLoop, StateExcept.bind_ok hskip, StateExcept.bind_ok hscan]
  show (if reader₁.inputDone = true then _ else _ : JobM (Option Nat)) reader₁ = _
  rw [if_pos hdone, StateExcept.ite_apply]
  rfl

theorem nextRecordLenLoop_fill {fuel : Nat} {reader₁ reader₂ : JobReader}
    (hskip : skipSeparators reader = .ok ((), reader₁))
    (hscan : scanWindow reader₁ = .ok (none, reader₁)) (hdone : ¬ reader₁.inputDone = true)
    (hfill : fill reader₁ = .ok ((), reader₂)) :
    nextRecordLenLoop (fuel + 1) reader = nextRecordLenLoop fuel reader₂ := by
  rw [nextRecordLenLoop, StateExcept.bind_ok hskip, StateExcept.bind_ok hscan]
  show (if reader₁.inputDone = true then _ else _ : JobM (Option Nat)) reader₁ = _
  rw [if_neg hdone, StateExcept.bind_ok hfill]

/-- **The next record of the stream is found**, however little of it the buffer holds. -/
theorem nextRecordLenLoop_spec {fuel : Nat} (h : Holds reader off s)
    (hformat : reader.format = .binary)
    (hsplits : Splits (scanMeasure .binary) isSeparator off s records ending)
    (hfits : Fits reader.maxRecordBytes records ending)
    (hfuel : reader.input.rest.length + (if reader.inputDone then 0 else 1) < fuel) :
    NextRecord reader records ending (nextRecordLenLoop fuel reader) := by
  induction fuel generalizing reader off s with
  | zero => exact absurd hfuel (Nat.not_lt_zero _)
  | succ fuel ih =>
  obtain ⟨reader₁, hskip, hsame, hwindow, hinput, hdone, hholds⟩ := skipSeparators_holds h
  -- the separators in the window only move the offset
  have hstream : reader.window.takeWhile isSeparator ++
      (reader.window.dropWhile isSeparator ++ reader.input.rest) = s := by
    rw [← List.append_assoc, List.takeWhile_append_dropWhile, h.stream]
  rw [← hstream, Splits.append_seps fun b hb => List.mem_takeWhile_imp hb] at hsplits
  rw [← hwindow, ← hinput] at hholds hsplits
  rw [← hsame.format] at hformat
  rw [← hinput, ← hdone] at hfuel
  rw [← hsame.maxRecordBytes] at hfits
  apply NextRecord.trans hsame
  -- a window without a verdict is refilled, if the input has not ended
  have hrefill : scanWindow reader₁ = .ok (none, reader₁) → ¬ reader₁.inputDone = true →
      (reader₁.window.length = reader₁.capacity → reader₁.capacity < reader₁.maxRecordBytes) →
      NextRecord reader₁ records ending (nextRecordLenLoop (fuel + 1) reader) := by
    intro hscan hnot hlimit
    obtain ⟨reader₂, hfill, hholds₂, hsame₂, hprogress⟩ := fill_holds hholds hlimit
    rw [nextRecordLenLoop_fill hskip hscan hnot hfill]
    apply NextRecord.trans hsame₂
    apply ih hholds₂ (hsame₂.format.trans hformat) hsplits (hsame₂.maxRecordBytes ▸ hfits)
    rw [if_neg hnot] at hfuel
    rcases hprogress with hend | hless
    · rw [if_pos hend, hholds₂.done hend]
      exact Nat.lt_of_le_of_lt (Nat.zero_le _) (Nat.lt_of_succ_lt_succ hfuel)
    · split <;> omega
  by_cases hnil : reader₁.window = []
  · have hscan := scanWindow_nil hnil
    by_cases hend : reader₁.inputDone = true
    · rw [nextRecordLenLoop_done hskip hscan hend, if_pos hnil]
      rw [hnil, hholds.done hend] at hsplits
      cases hsplits with
      | clean _ => exact .clean (SameControl.refl reader₁) hend hnil
      | truncated hs _ => exact absurd rfl hs
      | malformed hs _ => exact absurd rfl hs
      | record hs _ _ => exact absurd rfl hs
    · apply hrefill hscan hend
      intro hfull
      rw [hnil] at hfull
      exact absurd hfull (Nat.ne_of_lt hholds.room)
  · have hfront : reader₁.window.dropWhile isSeparator = reader₁.window := by
      rw [hwindow, List.dropWhile_idempotent]
    have hne : reader₁.window ++ reader₁.input.rest ≠ [] := List.append_ne_nil_of_left_ne_nil hnil _
    have hdrop : (reader₁.window ++ reader₁.input.rest).dropWhile isSeparator =
        reader₁.window ++ reader₁.input.rest := by
      rw [List.dropWhile_append, hfront, if_neg (by rwa [List.isEmpty_iff])]
    have hverdict := hsplits.of_verdict hne hdrop
    cases hmeasure : scanMeasure .binary reader₁.window with
    | complete len =>
      have hscan := scanWindow_complete hnil (hformat ▸ hmeasure)
      have hle := (scanMeasure_stable.take_complete hmeasure).2.1
      rw [scanMeasure_stable.extend_complete hmeasure] at hverdict
      rcases hverdict with ⟨hx, _⟩ | ⟨e, hx, _⟩ | ⟨n, rest, hx, rfl, hrest⟩
      · cases hx
      · cases hx
      · cases hx
        have hlength : ((reader₁.window ++ reader₁.input.rest).take len).length = len :=
          List.length_take_of_le (by rw [List.length_append]; exact Nat.le_add_right_of_le hle)
        rw [nextRecordLenLoop_some hskip hscan]
        conv => arg 4; rw [← hlength]
        apply NextRecord.record (SameControl.refl reader₁)
        · rw [List.take_append_drop]
          exact hholds
        · rw [hlength]
          exact hle
        · rw [hlength]
          exact hrest
    | malformed e =>
      have hscan := scanWindow_malformed hnil (hformat ▸ hmeasure)
      rw [scanMeasure_stable.extend_malformed hmeasure] at hverdict
      rcases hverdict with ⟨hx, _⟩ | ⟨e', hx, rfl, rfl⟩ | ⟨n, rest, hx, _⟩
      · cases hx
      · cases hx
        rw [nextRecordLenLoop_malformed hskip hscan, hholds.offset]
        exact .malformed
      · cases hx
    | incomplete =>
      have hscan := scanWindow_incomplete hnil (hformat ▸ hmeasure)
      by_cases hend : reader₁.inputDone = true
      · rw [nextRecordLenLoop_done hskip hscan hend, if_neg hnil, hholds.offset]
        rw [hholds.done hend, List.append_nil, hmeasure] at hverdict
        rcases hverdict with ⟨_, rfl, rfl⟩ | ⟨e, hx, _⟩ | ⟨n, rest, hx, _⟩
        · exact .truncated
        · cases hx
        · cases hx
      · apply hrefill hscan hend
        intro hfull
        rw [← hfull]
        exact below_limit hfits hsplits rfl hnil hdrop hmeasure

theorem nextRecordLen_spec (h : Holds reader off s) (hformat : reader.format = .binary)
    (hsplits : Splits (scanMeasure .binary) isSeparator off s records ending)
    (hfits : Fits reader.maxRecordBytes records ending) :
    NextRecord reader records ending (nextRecordLen reader) := by
  apply nextRecordLenLoop_spec h hformat hsplits hfits
  split <;> omega

end Next

end Ytsaurus.Job
