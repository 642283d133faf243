import Ytsaurus.Proof.Rpc.Rowset

/-!
# `Proof/Rpc/Hostile.lean` — the rowset decoder on bytes that are not a rowset

Where a rowset was cut short the decoder says so, and whatever the bytes are it looks at none
that are not there. What it does accept has the size of the rowset it stands for: the limits that
the decoder checks, and the length of its input, are all the limits of the writer.

There are three questions here, and they need different things of the readers. A proper prefix of
a rowset is refused as truncated, at a place within it, by way of the reader that would have read
the whole (`decodeRowset_cut`); this holds of each reader that reads what its writer wrote, and is
kept by sequencing. That no slice is taken outside of the input holds on any bytes, because every
`take` is behind a `need` of as many; `outOfBounds` is the panic the model would show otherwise.

The third is about what is accepted. Counts and lengths that came from the input were checked
against the same limits that the writer checks, and what was read of each value is exactly its
padded size; so an accepted input is a rowset within the limits, of its own length
(`takes_readRowset`), and the writer takes it back. It need not be the same bytes: flags and padding
are not looked at.
-/

set_option autoImplicit false

namespace Ytsaurus
namespace Rpc
namespace Wire

open LittleEndian Positional StateExcept
open Bus (slice slice_length)

/-! ## A rowset that was cut short -/

/-- The input ends too early, and the error says where. -/
def Short (input : List UInt8) (e : WireError) : Prop :=
  ∃ offset needed, e = .truncated offset needed ∧ 0 < needed ∧ offset ≤ input.length

namespace Reader

theorem lacks_need_takeBytes {count : Nat} {bytes : List UInt8} (hlength : bytes.length = count) :
    Lacks Short (need count >>= fun _ => takeBytes count) bytes := by
  intro before cut more hmore hcut
  have hshort : cut.length < count := by
    rw [← hlength, ← hcut, List.length_append]
    exact Nat.lt_add_of_pos_right (List.length_pos_iff.mpr hmore)
  refine ⟨_, bind_error ((need_between count before cut).trans (if_pos hshort)), _, _, rfl,
    Nat.sub_pos_of_lt hshort, ?_⟩
  rw [List.length_append]
  exact Nat.le_add_right _ _

theorem reads_both {count : Nat} {bytes : List UInt8} (hlength : bytes.length = count) :
    Reads (need count >>= fun _ => takeBytes count) bytes bytes := by
  have h := reads_need_takeBytes (f := pure) hlength (Reads.pure bytes)
  simp only [bind_pure, List.append_nil] at h
  exact h

theorem lacks_bind {α : Type} {count : Nat} {bytes rest : List UInt8} {f : List UInt8 → Read α}
    (hlength : bytes.length = count) (hf : Lacks Short (f bytes) rest) :
    Lacks Short (need count >>= fun _ => takeBytes count >>= f) (bytes ++ rest) := by
  have h := (lacks_need_takeBytes hlength).bind (reads_both hlength) hf
  rwa [bind_assoc] at h

theorem lacks_map {α : Type} {count : Nat} {bytes : List UInt8} {f : List UInt8 → Read α}
    (hlength : bytes.length = count) :
    Lacks Short (need count >>= fun _ => takeBytes count >>= f) bytes := by
  have h := lacks_bind hlength (Lacks.nil (f bytes))
  rwa [List.append_nil] at h

theorem lacks_readU64 (word : BitVec 64) : Lacks Short readU64 (toLeBytes 8 word) :=
  lacks_map (toLeBytes_length 8 word)

theorem lacks_count {count : Nat} : Lacks Short readU64 (leBytes 8 count) :=
  lacks_map (leBytes_length 8 count)

theorem lacks_readBlob (value : List UInt8 → Value) {blob : List UInt8}
    (h : blob.length ≤ maxValueLength) :
    Lacks Short (readBlob value blob.length)
      (blob ++ List.replicate (paddingFor blob.length) 0) := by
  unfold readBlob
  rw [if_neg (Nat.not_lt.mpr h)]
  exact lacks_map (padded_length blob)

theorem lacks_readPayload {value : UnversionedValue} (h : ValueFits value) :
    Lacks Short (readPayload (value.value.blob.elim 0 List.length) value.value.valueType)
      (valuePayload value.value) := by
  unfold ValueFits at h
  cases hvalue : value.value with
  | null => exact Lacks.nil _
  | int64 word => exact (lacks_readU64 word).map (reads_readU64 word)
  | uint64 word => exact (lacks_readU64 word).map (reads_readU64 word)
  | double bits => exact (lacks_readU64 bits).map (reads_readU64 bits)
  | boolean b =>
    exact (lacks_readU64 (if b then 1 else 0)).map (reads_readU64 (if b then 1 else 0))
  | string blob => exact lacks_readBlob .string (h blob (by rw [hvalue]; rfl))
  | any blob => exact lacks_readBlob .any (h blob (by rw [hvalue]; rfl))
  | composite blob => exact lacks_readBlob .composite (h blob (by rw [hvalue]; rfl))

theorem lacks_readValue {value : UnversionedValue} (h : ValueFits value) :
    Lacks Short readValue (encodeValueUnchecked value) := by
  unfold readValue encodeValueUnchecked
  apply lacks_bind (valueHeader_length value)
  rw [valueHeader_id, valueHeader_type, valueHeader_aggregate, valueHeader_blobLength h]
  dsimp only
  rw [ValueType.fromWire_toWire]
  exact (lacks_readPayload h).map (reads_readPayload h)

theorem lacks_readValues {row : Row} (h : ∀ value ∈ row, ValueFits value) :
    Lacks Short (readValues row.length) (row.flatMap encodeValueUnchecked) := by
  induction row with
  | nil => exact Lacks.nil _
  | cons value row ih =>
    obtain ⟨hvalue, hrow⟩ := List.forall_mem_cons.mp h
    rw [List.length_cons, readValues, List.flatMap_cons]
    exact (lacks_readValue hvalue).bind (reads_readValue hvalue)
      ((ih hrow).map (reads_readValues hrow))

theorem lacks_readRows {index : Nat} {rows : List MaybeRow} (h : ∀ row ∈ rows, RowFits row) :
    Lacks Short (readRows index rows.length) (rows.flatMap encodeRowUnchecked) := by
  induction rows generalizing index with
  | nil => exact Lacks.nil _
  | cons row rows ih =>
    obtain ⟨hrow, hrows⟩ := List.forall_mem_cons.mp h
    have hrest : ∀ f : List MaybeRow → Read (List MaybeRow),
        Lacks Short (readRows (index + 1) rows.length >>= f) (rows.flatMap encodeRowUnchecked) :=
      fun f => (ih hrows).map (reads_readRows hrows)
    rw [List.length_cons, List.flatMap_cons, readRows]
    cases row with
    | none =>
      rw [encodeRowUnchecked]
      apply lacks_count.bind (reads_count (by decide : nullRowMarker < 2 ^ 64))
      rw [if_pos (by decide)]
      exact hrest _
    | some row =>
      obtain ⟨hcount, hvalues⟩ := hrow row rfl
      have hlimit : maxValuesPerRow < nullRowMarker := by decide
      have hmarker : nullRowMarker < 2 ^ 64 := by decide
      have hword : (BitVec.ofNat 64 row.length).toNat = row.length := by
        rw [BitVec.toNat_ofNat]
        exact Nat.mod_eq_of_lt (by omega)
      rw [encodeRowUnchecked, List.append_assoc]
      apply lacks_count.bind (reads_count (by omega))
      rw [hword, if_neg (by omega), if_neg (Nat.not_lt.mpr hcount)]
      exact (lacks_readValues hvalues).bind (reads_readValues hvalues) (hrest _)

theorem lacks_readRowset {rows : List MaybeRow} (h : WithinLimits rows) :
    Lacks Short readRowset (encodeRowsetUnchecked rows) := by
  have hlimit : maxRowsPerRowset < 2 ^ 64 := by decide
  have hcount : rows.length < 2 ^ 64 := Nat.lt_of_le_of_lt h.rowCount hlimit
  have hword : (BitVec.ofNat 64 rows.length).toNat = rows.length := by
    rw [BitVec.toNat_ofNat]
    exact Nat.mod_eq_of_lt hcount
  unfold readRowset encodeRowsetUnchecked
  apply lacks_count.bind (reads_count hcount)
  rw [hword, if_neg (Nat.not_lt.mpr h.rowCount)]
  exact (lacks_readRows h.rowFits).map (reads_readRows h.rowFits)

end Reader

/-- **A rowset that was cut short is refused as such.** -/
theorem decodeRowset_cut {rows : List MaybeRow} (h : WithinLimits rows) {cut : List UInt8}
    (hcut : cut <+: encodeRowsetUnchecked rows) (hproper : cut ≠ encodeRowsetUnchecked rows) :
    ∃ e, decodeRowset cut = .error e ∧ Short cut e := by
  obtain ⟨more, hmore⟩ := hcut
  have hnonempty : more ≠ [] := by
    intro hnil
    rw [hnil, List.append_nil] at hmore
    exact hproper hmore
  obtain ⟨e, he, hshort⟩ := Reader.lacks_readRowset h [] cut more hnonempty hmore
  exact ⟨e, ExceptList.map_eq_error.mpr he, hshort⟩

/-! ## Any bytes -/

/-- Everything but a slice that is not within the input. -/
def NoPanic (e : WireError) : Prop := e ≠ .outOfBounds

namespace Reader

theorem takes_both (count : Nat) :
    Takes NoPanic (need count >>= fun _ => takeBytes count)
      fun bytes n => n = count ∧ bytes.length = count := by
  have hstep : ∀ reader : Reader, reader.offset ≤ reader.input.length →
      (need count >>= fun _ => takeBytes count) reader =
        if reader.offset + count ≤ reader.input.length then
          .ok (slice reader.input reader.offset count,
            { reader with offset := reader.offset + count })
        else
          .error (.truncated reader.offset (count - (reader.input.length - reader.offset))) := by
    intro reader hwithin
    by_cases henough : reader.offset + count ≤ reader.input.length
    · have hneed : need count reader = .ok ((), reader) := by
        unfold need
        rw [get_bind, StateExcept.ite_apply, if_neg (by omega)]
        rfl
      rw [if_pos henough, bind_ok hneed]
      unfold takeBytes
      rw [get_bind, StateExcept.ite_apply, if_pos henough]
      rfl
    · have hneed : need count reader =
          .error (.truncated reader.offset (count - (reader.input.length - reader.offset))) := by
        unfold need
        rw [get_bind, StateExcept.ite_apply, if_pos (by omega)]
        rfl
      rw [if_neg henough, bind_error hneed]
  constructor
  · intro reader e hwithin he
    rw [hstep reader hwithin] at he
    split at he
    · cases he
    · cases he
      exact fun h => by cases h
  · intro reader reader' bytes hwithin hok
    rw [hstep reader hwithin] at hok
    split at hok
    · rename_i henough
      cases hok
      exact ⟨rfl, henough, count, rfl, rfl, slice_length henough⟩
    · cases hok

theorem takes_bytes {α : Type} {count : Nat} {f : List UInt8 → Read α} {taken : α → Nat → Prop}
    (hf : ∀ bytes, bytes.length = count →
      Takes NoPanic (f bytes) fun a more => taken a (count + more)) :
    Takes NoPanic (need count >>= fun _ => takeBytes count >>= f) taken := by
  rw [← bind_assoc]
  apply (takes_both count).bind
  rintro bytes n ⟨rfl, hlength⟩
  exact hf bytes hlength

theorem takes_readU64 : Takes NoPanic readU64 fun _ n => n = alignment :=
  takes_bytes fun _ _ => Takes.pure rfl

/-- What a value with this payload takes behind its header. -/
def TakesPayload (x : Read Value) : Prop :=
  Takes NoPanic x fun value n => value.wireSize = alignment + n ∧
    ∀ blob, value.blob = some blob → blob.length ≤ maxValueLength

theorem takes_readScalar {value : BitVec 64 → Value}
    (h : ∀ word, (value word).wireSize = alignment + alignment ∧ (value word).blob = none) :
    TakesPayload (readScalar value) := by
  apply takes_readU64.bind
  rintro word n rfl
  refine Takes.pure ⟨(h word).1, ?_⟩
  intro blob hblob
  rw [(h word).2] at hblob
  cases hblob

theorem takes_readBlob {value : List UInt8 → Value} {length : Nat}
    (h : ∀ bytes, (value bytes).wireSize = alignment + (bytes.length + paddingFor bytes.length) ∧
      (value bytes).blob = some bytes) : TakesPayload (readBlob value length) := by
  unfold readBlob
  by_cases hlong : length > maxValueLength
  · rw [if_pos hlong]
    exact Takes.throw fun h => by cases h
  · rw [if_neg hlong]
    apply takes_bytes
    intro bytes hlength
    have htake : (bytes.take length).length = length := by
      rw [List.length_take, hlength]
      exact Nat.min_eq_left (Nat.le_add_right _ _)
    refine Takes.pure ⟨?_, ?_⟩
    · rw [(h _).1, htake]
      rfl
    · intro blob hblob
      rw [(h _).2] at hblob
      cases hblob
      rw [htake]
      exact Nat.not_lt.mp hlong

theorem takes_readPayload (length : Nat) (valueType : ValueType) :
    TakesPayload (readPayload length valueType) := by
  cases valueType with
  | null => exact Takes.pure ⟨rfl, fun blob hblob => by cases hblob⟩
  | int64 | uint64 | double => exact takes_readScalar fun _ => ⟨rfl, rfl⟩
  | boolean => exact takes_readScalar fun _ => ⟨rfl, rfl⟩
  | string | any | composite => exact takes_readBlob fun _ => ⟨rfl, rfl⟩

theorem takes_readValue :
    Takes NoPanic readValue fun value n => n = value.wireSize ∧ ValueFits value := by
  unfold readValue
  apply takes_bytes
  intro header _
  dsimp only
  cases ValueType.fromWire (header.getD 2 0) with
  | none => exact Takes.throw fun h => by cases h
  | some valueType =>
    apply (takes_readPayload _ valueType).bind
    rintro value n ⟨hsize, hfits⟩
    exact Takes.pure ⟨hsize.symm, hfits⟩

theorem takes_readValues (count : Nat) :
    Takes NoPanic (readValues count) fun row n => row.length = count ∧
      n = (row.map UnversionedValue.wireSize).sum ∧ ∀ value ∈ row, ValueFits value := by
  induction count with
  | zero => exact Takes.pure ⟨rfl, rfl, List.forall_mem_nil _⟩
  | succ count ih =>
    rw [readValues]
    apply takes_readValue.bind
    rintro value n ⟨rfl, hvalue⟩
    apply ih.bind
    rintro row more ⟨rfl, rfl, hrow⟩
    exact Takes.pure ⟨rfl, rfl, List.forall_mem_cons.mpr ⟨hvalue, hrow⟩⟩

theorem takes_readRows (index count : Nat) :
    Takes NoPanic (readRows index count) fun rows n => rows.length = count ∧
      n = (rows.map rowSize).sum ∧ ∀ row ∈ rows, RowFits row := by
  induction count generalizing index with
  | zero => exact Takes.pure ⟨rfl, rfl, List.forall_mem_nil _⟩
  | succ count ih =>
    rw [readRows]
    apply takes_readU64.bind
    rintro valueCount n rfl
    by_cases hnull : valueCount.toNat = nullRowMarker
    · rw [if_pos hnull]
      apply (ih (index + 1)).bind
      rintro rows more ⟨rfl, rfl, hrows⟩
      refine Takes.pure ⟨rfl, rfl, List.forall_mem_cons.mpr ⟨?_, hrows⟩⟩
      intro values hvalues
      cases hvalues
    · rw [if_neg hnull]
      by_cases hmany : valueCount.toNat > maxValuesPerRow
      · rw [if_pos hmany]
        exact Takes.throw fun h => by cases h
      · rw [if_neg hmany]
        apply (takes_readValues _).bind
        rintro row size ⟨hlength, rfl, hvalues⟩
        apply (ih (index + 1)).bind
        rintro rows more ⟨rfl, rfl, hrows⟩
        refine Takes.pure ⟨rfl, ?_, List.forall_mem_cons.mpr ⟨?_, hrows⟩⟩
        · rw [List.map_cons, List.sum_cons, rowSize]
          omega
        · intro values hvalues'
          cases hvalues'
          exact ⟨hlength ▸ Nat.not_lt.mp hmany, hvalues⟩

/-- A rowset takes the whole input, and it is within the limits that the decoder checks. -/
theorem takes_readRowset {input : List UInt8} :
    (∀ e, readRowset ⟨input, 0⟩ = .error e → NoPanic e) ∧
      ∀ rows reader, readRowset ⟨input, 0⟩ = .ok (rows, reader) →
        rows.length ≤ maxRowsPerRowset ∧ (∀ row ∈ rows, RowFits row) ∧
          encodedSize rows = input.length := by
  have hcount := takes_readU64
  unfold readRowset
  cases hfirst : readU64 ⟨input, 0⟩ with
  | error e =>
    rw [bind_error hfirst]
    refine ⟨?_, fun rows reader h => by cases h⟩
    rintro _ ⟨⟩
    exact hcount.error (Nat.zero_le _) hfirst
  | ok counted =>
    obtain ⟨rowCount, reader⟩ := counted
    obtain ⟨hinput, hwithin, n, hoffset, rfl⟩ := hcount.ok (Nat.zero_le _) hfirst
    rw [bind_ok hfirst]
    by_cases hmany : rowCount.toNat > maxRowsPerRowset
    · rw [if_pos hmany]
      refine ⟨?_, fun rows reader h => by cases h⟩
      rintro _ ⟨⟩ h
      cases h
    · rw [if_neg hmany]
      show (∀ e, (readRows 0 rowCount.toNat >>= _) reader = .error e → _) ∧
        ∀ rows reader', (readRows 0 rowCount.toNat >>= _) reader = .ok (rows, reader') → _
      cases hrows : readRows 0 rowCount.toNat reader with
      | error e =>
        rw [bind_error hrows]
        refine ⟨?_, fun rows reader h => by cases h⟩
        rintro _ ⟨⟩
        exact (takes_readRows 0 _).error hwithin hrows
      | ok read =>
        obtain ⟨rows, reader'⟩ := read
        obtain ⟨hinput', _, size, hoffset', hlength, rfl, hfits⟩ :=
          (takes_readRows 0 _).ok hwithin hrows
        rw [bind_ok hrows, get_bind, StateExcept.ite_apply]
        by_cases hend : reader'.offset ≠ reader'.input.length
        · rw [if_pos hend]
          refine ⟨?_, fun rows reader h => by cases h⟩
          rintro _ ⟨⟩ h
          cases h
        · rw [if_neg hend]
          refine ⟨fun e h => (by cases h), ?_⟩
          rintro rows _ ⟨⟩
          refine ⟨hlength ▸ Nat.not_lt.mp hmany, hfits, ?_⟩
          have hwhole := Classical.not_not.mp hend
          rw [hinput', hinput, hoffset', hoffset] at hwhole
          unfold encodedSize
          rw [← hwhole]
          exact congrArg (· + _) (Nat.zero_add _).symm

end Reader

/-- What the decoder accepts is within the limits of the writer, and has the size of its input. -/
theorem decodeRowset_within {input : List UInt8} (hlimit : input.length ≤ maxRowsetSize)
    {rows : List MaybeRow} (h : decodeRowset input = .ok rows) :
    WithinLimits rows ∧ encodedSize rows = input.length := by
  obtain ⟨⟨_, reader⟩, hread, rfl⟩ := ExceptList.map_eq_ok.mp h
  obtain ⟨hcount, hfits, hsize⟩ := Reader.takes_readRowset.2 _ _ hread
  refine ⟨⟨hcount, ?_, ?_, ?_⟩, hsize⟩
  · intro row hrow
    exact (hfits _ hrow row rfl).1
  · intro row hrow value hvalue blob hblob
    exact (hfits _ hrow row rfl).2 value hvalue blob hblob
  · rw [hsize]
    exact hlimit

/-- **The rowset decoder on hostile bytes.** A rowset that was cut short is refused as such, at a
place within what is left of it; whatever the bytes are, none are looked at that are not there; and
what is accepted is written again, in as many bytes, as the same rows. -/
theorem hostile_rowset (reserve : Nat → Bool) :
    (∀ rows bytes, encodeRowset reserve rows = .ok bytes → ∀ cut, cut <+: bytes → cut ≠ bytes →
      ∃ offset needed, decodeRowset cut = .error (.truncated offset needed) ∧ 0 < needed ∧
        offset ≤ cut.length) ∧
    (∀ input, decodeRowset input ≠ .error .outOfBounds) ∧
    ∀ input rows, input.length ≤ maxRowsetSize → reserve input.length = true →
      decodeRowset input = .ok rows →
      ∃ bytes, encodeRowset reserve rows = .ok bytes ∧ bytes.length = input.length ∧
        decodeRowset bytes = .ok rows := by
  refine ⟨?_, ?_, ?_⟩
  · intro rows bytes hencode cut hcut hproper
    obtain ⟨size, hsize, hbytes⟩ := ExceptList.bind_eq_ok.mp hencode
    have hlimits := (validateAndMeasure_eq_ok.mp hsize).1
    have hwritten : bytes = encodeRowsetUnchecked rows := by
      by_cases hreserve : reserve size = true
      · rw [if_pos hreserve] at hbytes
        exact (Except.ok.inj hbytes).symm
      · rw [if_neg hreserve] at hbytes
        cases hbytes
    subst hwritten
    obtain ⟨_, herror, offset, needed, rfl, hneeded, hoffset⟩ :=
      decodeRowset_cut hlimits hcut hproper
    exact ⟨offset, needed, herror, hneeded, hoffset⟩
  · intro input h
    exact Reader.takes_readRowset.1 _ (ExceptList.map_eq_error.mp h) rfl
  · intro input rows hlimit hreserve hdecode
    obtain ⟨hlimits, hsize⟩ := decodeRowset_within hlimit hdecode
    refine ⟨encodeRowsetUnchecked rows, ?_, (encodeRowsetUnchecked_length rows).trans hsize,
      decodeRowset_encodeRowsetUnchecked hlimits⟩
    have hmeasure := validateAndMeasure_eq_ok.mpr ⟨hlimits, rfl⟩
    refine ExceptList.bind_eq_ok.mpr ⟨encodedSize rows, hmeasure, ?_⟩
    rw [hsize, if_pos hreserve]
    rfl

end Wire
end Rpc
end Ytsaurus
