import Ytsaurus.Proof.Job.Events

/-!
# `Proof/Job/Chunks.lean` — how the input is cut does not matter

The events of a stream are what it is `interpret`ed as, for every cut of the input, every
buffer size and every limit that the records fit under (`events_eq_interpret`). So two
readers of one stream that fit give the same events and the same outcome.

The cuts are a script: what each call of `read` does, an interrupt, some bytes, or a failure, until
the script is used up and the rest comes at once. A quiet script has no failures; an interrupted
call is made again, and takes nothing. The size of the buffer is only where it starts.

Against what should such a reader be compared? The reader that gets the whole stream in one read is
one of those the theorem is about, so it is a matter of proving the same of both. The limit has to
admit the records for that (`Fits`), since a reader with a lower limit refuses a record that the
other takes; `Fits.of_length` is the simple case, in which the limit is above the length of the
stream.
-/

set_option autoImplicit false

namespace Ytsaurus.Job

open Yson Framing

/-- A reader of binary YSON, as it is built. -/
def JobReader.over (stream : List UInt8) (script : List ReadStep) (bytes limit : Nat) : JobReader :=
  ((JobReader.withFormat ⟨stream, script⟩ .binary).withBufferSize bytes).withMaxRecordBytes limit

theorem over_holds (stream : List UInt8) {script : List ReadStep} (hquiet : Quiet script)
    (bytes limit : Nat) : Holds (JobReader.over stream script bytes limit) 0 stream where
  stream := rfl
  offset := rfl
  pos := Nat.le_refl 0
  size := Nat.zero_le _
  room := by
    show 0 < max bytes 64
    omega
  done := fun hdone => Bool.noConfusion hdone
  quiet := hquiet

variable [FloatText]

/-! ## What the limit has to allow -/

/-- A limit above the length of the stream always fits. -/
theorem Fits.of_length {off limit : Nat} {s : List UInt8} {records : List (Nat × List UInt8)}
    {ending : Ending YsonError}
    (h : Splits (scanMeasure .binary) isSeparator off s records ending) (hlimit : s.length < limit) :
    Fits limit records ending := by
  induction h with
  | clean _ =>
    refine ⟨List.forall_mem_nil _, ?_⟩
    intro n hn
    cases hn
  | @truncated off s hs _ =>
    have hle : (s.dropWhile isSeparator).length ≤ s.length :=
      (List.dropWhile_suffix isSeparator).length_le
    refine ⟨List.forall_mem_nil _, ?_⟩
    intro n hn
    cases hn
    exact Nat.lt_of_le_of_lt hle hlimit
  | @malformed off s e hs _ =>
    have hle : (s.dropWhile isSeparator).length ≤ s.length :=
      (List.dropWhile_suffix isSeparator).length_le
    refine ⟨List.forall_mem_nil _, ?_⟩
    intro n hn
    cases hn
    exact Nat.lt_of_le_of_lt hle hlimit
  | @record off len s records ending hs _ _ ih =>
    have hle : (s.dropWhile isSeparator).length ≤ s.length :=
      (List.dropWhile_suffix isSeparator).length_le
    have hrest := ih (by rw [List.length_drop]; omega)
    refine ⟨List.forall_mem_cons.mpr ⟨?_, hrest.records⟩, hrest.tail⟩
    show ((s.dropWhile isSeparator).take len).length ≤ limit
    rw [List.length_take]
    omega

/-! ## The outcome -/

theorem interpret_ofStream {format : YsonFormat} {ending : Ending YsonError} {indices : Indices}
    {records : List (Nat × List UInt8)} {e : JobError}
    (h : (interpret format ending indices records).2 = some e) : e.ofStream := by
  induction records generalizing indices with
  | nil =>
    cases ending with
    | clean => cases h
    | truncated offset len =>
      cases h
      rfl
    | malformed offset len e =>
      cases h
      rfl
  | cons r records ih =>
    obtain ⟨offset, record⟩ := r
    cases hclass : classify record format offset with
    | error e' =>
      rw [interpret, hclass] at h
      cases h
      exact classify_ofStream hclass
    | ok control =>
      by_cases hrow : control = .row
      · subst hrow
        rw [interpret, hclass] at h
        exact ih h
      · by_cases hswitch : control = .keySwitch
        · subst hswitch
          rw [interpret, hclass] at h
          exact ih h
        · rw [interpret_control hclass hrow hswitch] at h
          exact ih h

theorem interpret_length_le (format : YsonFormat) (ending : Ending YsonError) (indices : Indices)
    (records : List (Nat × List UInt8)) :
    (interpret format ending indices records).1.length ≤ records.length := by
  induction records generalizing indices with
  | nil => exact Nat.le_refl 0
  | cons r records ih =>
    obtain ⟨offset, record⟩ := r
    cases hclass : classify record format offset with
    | error e =>
      rw [interpret, hclass]
      exact Nat.zero_le _
    | ok control =>
      by_cases hrow : control = .row
      · subst hrow
        rw [interpret, hclass]
        exact Nat.succ_le_succ (ih _)
      · by_cases hswitch : control = .keySwitch
        · subst hswitch
          rw [interpret, hclass]
          exact Nat.succ_le_succ (ih _)
        · rw [interpret_control hclass hrow hswitch]
          exact Nat.le_succ_of_le (ih _)

/-! ## Cutting the input -/

section Chunks

variable {stream : List UInt8} {script : List ReadStep} {limit : Nat}
  {records : List (Nat × List UInt8)} {ending : Ending YsonError}

/-- **A reader gives what its stream means.** -/
theorem events_eq_interpret (bytes : Nat) (hquiet : Quiet script)
    (hsplits : Splits (scanMeasure .binary) isSeparator 0 stream records ending)
    (hfits : Fits limit records ending) :
    (JobReader.over stream script bytes limit).events =
      interpret .binary ending ⟨0, none, none⟩ records := by
  have hholds := over_holds stream hquiet bytes limit
  have hcount := hsplits.count_le scanMeasure_stable
  have hlined := lined_interpret hholds rfl rfl hsplits hfits (Nat.lt_succ_of_le hcount)
  have hsame : stream.length + 1 = (JobReader.over stream script bytes limit).window.length +
      (JobReader.over stream script bytes limit).input.rest.length + 1 := by
    rw [← List.length_append, hholds.stream]
  unfold JobReader.events
  rw [← hsame]
  have hle := interpret_length_le .binary ending (JobReader.over stream script bytes limit).indices
    records
  have hpending : ensurePending (JobReader.over stream script bytes limit) =
      ensurePendingLoop (stream.length + 1) (JobReader.over stream script bytes limit) := by
    rw [ensurePending_none rfl, ← hsame]
  rw [← hpending] at hlined
  exact hlined.eventsLoop (Nat.lt_succ_of_le (hle.trans hcount))

/-- **Chunk independence.** However the input is cut and interrupted, and whatever size the
buffer starts with: under a limit that the records fit under, the events and the outcome are
those of a reader that gets the whole stream in one read. -/
theorem chunk_independence (bytes : Nat) (hquiet : Quiet script)
    (hfits : ∀ records ending, Splits (scanMeasure .binary) isSeparator 0 stream records ending →
      Fits limit records ending) :
    (JobReader.over stream script bytes limit).events =
        (JobReader.over stream [] stream.length limit).events ∧
      ∀ offset limit', (JobReader.over stream script bytes limit).events.2 ≠
        some (.recordTooLarge offset limit') := by
  obtain ⟨records, ending, hsplits⟩ := scanMeasure_stable.splits_exists isSeparator 0 stream
  have hfit := hfits records ending hsplits
  have hevents := events_eq_interpret bytes hquiet hsplits hfit
  have hwhole := events_eq_interpret stream.length (List.forall_mem_nil _) hsplits hfit
  constructor
  · rw [hevents, hwhole]
  · intro offset limit' htoo
    rw [hevents] at htoo
    have hblame := interpret_ofStream htoo
    cases hblame

/-- A row, a key switch and the beginning of a row. -/
def cutStream : List UInt8 :=
  ascii "\x7b\x7d;<" ++ [0x01, 0x14] ++ ascii "key_switch=" ++ [0x05] ++ ascii ">#;\x7b"

omit [FloatText] in
/-- The key switch arrives in pieces. -/
theorem chunk_independence_cut :
    (@JobReader.events plainFloatText (JobReader.over cutStream
        [.interrupted, .chunk 5 (by decide), .interrupted, .chunk 1 (by decide)] 0 100) =
      @JobReader.events plainFloatText (JobReader.over cutStream [] cutStream.length 100) ∧
      ∀ offset limit', (@JobReader.events plainFloatText (JobReader.over cutStream
        [.interrupted, .chunk 5 (by decide), .interrupted, .chunk 1 (by decide)] 0 100)).2 ≠
          some (.recordTooLarge offset limit')) ∧
      (@JobReader.events plainFloatText
        (JobReader.over cutStream [] cutStream.length 100)).1.length = 2 := by
  constructor
  · apply @chunk_independence plainFloatText cutStream _ 100 0
    · intro step hstep message heq
      subst heq
      simp at hstep
    · intro records ending hsplits
      exact @Fits.of_length plainFloatText _ _ _ _ _ hsplits (by decide)
  · decide +kernel

end Chunks

end Ytsaurus.Job
