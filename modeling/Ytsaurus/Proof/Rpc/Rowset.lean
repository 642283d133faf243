import Ytsaurus.Proof.Rpc.Limits
import Ytsaurus.Proof.Bus.Header

/-!
# `Proof/Rpc/Rowset.lean` — a rowset that was written is read back

Every reader takes exactly the bytes its writer produced, wherever they stand in the input:
`Reads` for a word, a value, a row and the rows. An attachment boundary is nothing that the
decoder sees, since it reads the concatenation.

Values are a header of eight bytes and, for strings and blobs, a payload that is padded to eight;
the type in the header says what the other bytes mean, and the length is zero where there is none.
A row is its number of values, or a marker for the null row, which no count can be within the
limit (`reads_readRows_cons`). The two sides are compared element by element from the
bottom up, and what puts them together are the rules of `Lib/Positional.lean` for readers that
count from the beginning of their input.

The writer's output is reserved in one piece before anything is written, and a reservation may
fail; `reserve` stands for the allocator, and the round trip is about one that grants what it is
asked for. A refused rowset leaves the output as it was, since the limits are checked before
anything is appended (`encodeRowsetInto_refused`).
-/

set_option autoImplicit false

namespace Ytsaurus
namespace Rpc
namespace Wire

open LittleEndian Positional StateExcept
open Bus (slice slice_front slice_skip)

namespace Reader

/-! ## Words -/

/-- What is left is counted from where the reader stands. -/
theorem need_between (count : Nat) (before after : List UInt8) :
    need count (.between before after) =
      if after.length < count then .error (.truncated before.length (count - after.length))
      else .ok ((), .between before after) := by
  unfold need
  rw [get_bind, StateExcept.ite_apply, Positional.Reader.between_input,
    Positional.Reader.between_offset, List.length_append, Nat.add_sub_cancel_left]
  rfl

theorem reads_takeBytes {count : Nat} {bytes : List UInt8} (hlength : bytes.length = count) :
    Reads (takeBytes count) bytes bytes := by
  intro before after
  have hwithin : (Positional.Reader.between before (bytes ++ after)).offset + count ≤
      (Positional.Reader.between before (bytes ++ after)).input.length := by
    rw [Positional.Reader.between_input, Positional.Reader.between_offset, List.length_append,
      List.length_append, hlength]
    exact Nat.add_le_add_left (Nat.le_add_right _ _) _
  unfold takeBytes
  rw [get_bind, StateExcept.ite_apply, if_pos hwithin, set_bind, pure_apply]
  congr 2
  · show slice (before ++ (bytes ++ after)) (before.length + 0) count = bytes
    rw [slice_skip rfl, slice_front hlength]
  · unfold Positional.Reader.between
    rw [List.append_assoc before, List.length_append, hlength]

/-- Taking bytes that `need` has found. -/
theorem reads_need_takeBytes {α : Type} {count : Nat} {bytes rest : List UInt8}
    {f : List UInt8 → Read α} {a : α} (hlength : bytes.length = count)
    (hf : Reads (f bytes) rest a) :
    Reads (need count >>= fun _ => takeBytes count >>= f) (bytes ++ rest) a := by
  intro before after
  have hneed : need count (.between before (bytes ++ rest ++ after)) =
      .ok ((), .between before (bytes ++ rest ++ after)) := by
    rw [need_between, if_neg]
    rw [List.append_assoc, List.length_append, hlength]
    exact Nat.not_lt.mpr (Nat.le_add_right _ _)
  rw [bind_ok hneed]
  exact (reads_takeBytes hlength).bind hf before after

/-- Taking bytes, and returning something made of them. -/
theorem reads_need_takeBytes_map {α : Type} {count : Nat} {bytes : List UInt8}
    (f : List UInt8 → α) (hlength : bytes.length = count) :
    Reads (do need count; let bytes ← takeBytes count; return f bytes : Read α) bytes
      (f bytes) := by
  have h := reads_need_takeBytes (f := fun bytes => (pure (f bytes) : Read α)) hlength
    (Reads.pure (f bytes))
  rwa [List.append_nil] at h

theorem reads_readU64 (word : BitVec 64) : Reads readU64 (toLeBytes 8 word) word := by
  have hword : fromLeBytes 64 (toLeBytes 8 word) = word := @fromLeBytes_toLeBytes 8 64 rfl word
  have h := reads_need_takeBytes_map (fromLeBytes 64) (toLeBytes_length 8 word)
  rwa [hword] at h

/-- A count is read as a word. -/
theorem reads_count {count : Nat} (h : count < 2 ^ 64) :
    Reads readU64 (leBytes 8 count) (BitVec.ofNat 64 count) := by
  have hcount : toLeBytes 8 (BitVec.ofNat 64 count) = leBytes 8 count := by
    rw [toLeBytes, BitVec.toNat_ofNat, Nat.mod_eq_of_lt h]
  rw [← hcount]
  exact reads_readU64 _

/-! ## Values -/

theorem reads_readScalar (value : BitVec 64 → Value) (word : BitVec 64) :
    Reads (readScalar value) (toLeBytes 8 word) (value word) :=
  (reads_readU64 word).map

theorem reads_readBlob (value : List UInt8 → Value) {blob : List UInt8}
    (h : blob.length ≤ maxValueLength) :
    Reads (readBlob value blob.length) (blob ++ List.replicate (paddingFor blob.length) 0)
      (value blob) := by
  have hread := reads_need_takeBytes_map (fun bytes => value (bytes.take blob.length))
    (padded_length blob)
  rw [List.take_left' rfl] at hread
  unfold readBlob
  rw [if_neg (Nat.not_lt.mpr h)]
  exact hread

/-- The payload, by the type and the length in the header. -/
theorem reads_readPayload {value : UnversionedValue} (h : ValueFits value) :
    Reads (readPayload (value.value.blob.elim 0 List.length) value.value.valueType)
      (valuePayload value.value) value.value := by
  unfold ValueFits at h
  cases hvalue : value.value with
  | null => exact Reads.pure _
  | int64 word => exact reads_readScalar .int64 word
  | uint64 word => exact reads_readScalar .uint64 word
  | double bits => exact reads_readScalar .double bits
  | boolean b =>
    have hread := reads_readScalar (fun word => .boolean (word ≠ 0)) (if b then 1 else 0)
    cases b <;> exact hread
  | string blob => exact reads_readBlob .string (h blob (by rw [hvalue]; rfl))
  | any blob => exact reads_readBlob .any (h blob (by rw [hvalue]; rfl))
  | composite blob => exact reads_readBlob .composite (h blob (by rw [hvalue]; rfl))

end Reader

theorem ValueType.fromWire_toWire (valueType : ValueType) :
    fromWire valueType.toWire = some valueType := by
  cases valueType <;> rfl

section Header

variable (value : UnversionedValue)

/-- The header, byte by byte from the third. -/
theorem valueHeader_eq :
    valueHeader value = toLeBytes 2 value.id ++ (value.value.valueType.toWire ::
      (if value.aggregate then 1 else 0) :: leBytes 4 (value.value.blob.elim 0 List.length)) := by
  unfold valueHeader
  rw [List.append_assoc, List.append_assoc]
  rfl

theorem valueHeader_id : fromLeBytes 16 (slice (valueHeader value) 0 2) = value.id := by
  rw [valueHeader_eq, slice_front (toLeBytes_length 2 _)]
  exact fromLeBytes_toLeBytes rfl _

theorem valueHeader_type : (valueHeader value).getD 2 0 = value.value.valueType.toWire := by
  rw [valueHeader_eq]
  rfl

theorem valueHeader_aggregate : ((valueHeader value).getD 3 0 != 0) = value.aggregate := by
  rw [valueHeader_eq]
  cases value.aggregate <;> rfl

variable {value}

theorem valueHeader_blobLength (h : ValueFits value) :
    ofLeBytes (slice (valueHeader value) 4 4) = value.value.blob.elim 0 List.length := by
  have hlimit : maxValueLength < 256 ^ 4 := by decide
  have hfits : value.value.blob.elim 0 List.length < 256 ^ 4 := by
    cases hblob : value.value.blob with
    | none => exact Nat.lt_of_le_of_lt (Nat.zero_le _) hlimit
    | some blob => exact Nat.lt_of_le_of_lt (h blob hblob) hlimit
  rw [valueHeader_eq]
  show ofLeBytes (slice _ (2 + 2) 4) = _
  rw [slice_skip (toLeBytes_length 2 _)]
  show ofLeBytes ((leBytes 4 _).take 4) = _
  rw [List.take_of_length_le (leBytes_length 4 _).le, ofLeBytes_leBytes hfits]

end Header

namespace Reader

theorem reads_readValue {value : UnversionedValue} (h : ValueFits value) :
    Reads readValue (encodeValueUnchecked value) value := by
  unfold readValue encodeValueUnchecked
  apply reads_need_takeBytes (valueHeader_length value)
  rw [valueHeader_id, valueHeader_type, valueHeader_aggregate, valueHeader_blobLength h]
  dsimp only
  rw [ValueType.fromWire_toWire]
  exact (reads_readPayload h).map

/-! ## Rows -/

theorem reads_readValues {row : Row} (h : ∀ value ∈ row, ValueFits value) :
    Reads (readValues row.length) (row.flatMap encodeValueUnchecked) row := by
  induction row with
  | nil => exact Reads.pure []
  | cons value row ih =>
    obtain ⟨hvalue, hrow⟩ := List.forall_mem_cons.mp h
    rw [List.length_cons, readValues, List.flatMap_cons]
    exact (reads_readValue hvalue).bind (ih hrow).map

/-- One row: the marker and a count that is within the limit are told apart. -/
theorem reads_readRows_cons {index count : Nat} {row : MaybeRow} {rows : List MaybeRow}
    {bytes : List UInt8} (h : RowFits row) (hrows : Reads (readRows (index + 1) count) bytes rows) :
    Reads (readRows index (count + 1)) (encodeRowUnchecked row ++ bytes) (row :: rows) := by
  rw [readRows]
  cases row with
  | none =>
    rw [encodeRowUnchecked]
    apply (reads_count (by decide : nullRowMarker < 2 ^ 64)).bind
    rw [if_pos (by decide)]
    exact hrows.map
  | some row =>
    obtain ⟨hcount, hvalues⟩ := h row rfl
    have hlimit : maxValuesPerRow < nullRowMarker := by decide
    have hmarker : nullRowMarker < 2 ^ 64 := by decide
    have hword : (BitVec.ofNat 64 row.length).toNat = row.length := by
      rw [BitVec.toNat_ofNat]
      exact Nat.mod_eq_of_lt (by omega)
    rw [encodeRowUnchecked, List.append_assoc]
    apply (reads_count (by omega)).bind
    rw [hword, if_neg (by omega), if_neg (Nat.not_lt.mpr hcount)]
    exact (reads_readValues hvalues).bind hrows.map

theorem reads_readRows {index : Nat} {rows : List MaybeRow} (h : ∀ row ∈ rows, RowFits row) :
    Reads (readRows index rows.length) (rows.flatMap encodeRowUnchecked) rows := by
  induction rows generalizing index with
  | nil => exact Reads.pure []
  | cons row rows ih =>
    obtain ⟨hrow, hrows⟩ := List.forall_mem_cons.mp h
    rw [List.length_cons, List.flatMap_cons]
    exact reads_readRows_cons hrow (ih hrows)

end Reader

/-- **A rowset within the limits is read back.** -/
theorem decodeRowset_encodeRowsetUnchecked {rows : List MaybeRow} (h : WithinLimits rows) :
    decodeRowset (encodeRowsetUnchecked rows) = .ok rows := by
  have hlimit : maxRowsPerRowset < 2 ^ 64 := by decide
  have hcount : rows.length < 2 ^ 64 := Nat.lt_of_le_of_lt h.rowCount hlimit
  have hword : (BitVec.ofNat 64 rows.length).toNat = rows.length := by
    rw [BitVec.toNat_ofNat]
    exact Nat.mod_eq_of_lt hcount
  have hread : Reads (Reader.readRows 0 (BitVec.ofNat 64 rows.length).toNat)
      (rows.flatMap encodeRowUnchecked) rows := by
    rw [hword]
    exact Reader.reads_readRows h.rowFits
  have hfirst : Reader.readU64 ⟨encodeRowsetUnchecked rows, 0⟩ =
      .ok (_, .between (leBytes 8 rows.length) (rows.flatMap encodeRowUnchecked)) :=
    Reader.reads_count hcount [] (rows.flatMap encodeRowUnchecked)
  have hrest := hread (leBytes 8 rows.length) []
  rw [List.append_nil] at hrest
  have hend : Reader.readRowset ⟨encodeRowsetUnchecked rows, 0⟩ =
      .ok (rows, .between (leBytes 8 rows.length ++ rows.flatMap encodeRowUnchecked) []) := by
    unfold Reader.readRowset
    rw [bind_ok hfirst, if_neg (by rw [hword]; exact Nat.not_lt.mpr h.rowCount)]
    show (Reader.readRows 0 (BitVec.ofNat 64 rows.length).toNat >>= _) _ = _
    rw [bind_ok hrest, get_bind, if_neg]
    · rfl
    rw [Positional.Reader.between_offset, Positional.Reader.between_input, List.append_nil]
    exact not_not_intro rfl
  rw [decodeRowset, hend]
  rfl

/-! ## Attachments -/

/-- The descriptor does not announce another version of the format. -/
def CurrentVersion (descriptor : Option TRowsetDescriptor) : Prop :=
  ∀ version, descriptor.bind TRowsetDescriptor.wireFormatVersion = some version →
    version = currentWireFormatVersion

theorem decodeRowsetAttachments_current {attachments : List (List UInt8)}
    {descriptor : Option TRowsetDescriptor} (hversion : CurrentVersion descriptor) :
    decodeRowsetAttachments attachments descriptor = decodeRowsetAttachments attachments none := by
  unfold decodeRowsetAttachments
  unfold CurrentVersion at hversion
  cases hdescriptor : descriptor.bind TRowsetDescriptor.wireFormatVersion with
  | none => rfl
  | some version =>
    dsimp only
    rw [if_neg (not_not_intro (hversion version hdescriptor))]
    rfl

/-- Where the bytes are cut does not matter. -/
theorem decodeRowsetAttachments_flatten {attachments : List (List UInt8)}
    {descriptor : Option TRowsetDescriptor} (hversion : CurrentVersion descriptor)
    (hattachments : attachments ≠ []) :
    decodeRowsetAttachments attachments descriptor =
      (decodeRowset attachments.flatten).mapError .wire := by
  rw [decodeRowsetAttachments_current hversion]
  cases attachments with
  | nil => exact absurd rfl hattachments
  | cons first rest =>
    cases rest with
    | nil =>
      rw [List.flatten_cons, List.flatten_nil, List.append_nil]
      rfl
    | cons second rest => rfl

theorem attachments_round_trip {rows : List MaybeRow} (h : WithinLimits rows)
    {attachments : List (List UInt8)} (hattachments : attachments ≠ [])
    (hcut : attachments.flatten = encodeRowsetUnchecked rows)
    {descriptor : Option TRowsetDescriptor} (hversion : CurrentVersion descriptor) :
    decodeRowsetAttachments attachments descriptor = .ok rows := by
  rw [decodeRowsetAttachments_flatten hversion hattachments, hcut,
    decodeRowset_encodeRowsetUnchecked h]
  rfl

/-! ## The codec -/

section Encode

variable {reserve : Nat → Bool} {rows : List MaybeRow}

theorem encodeRowset_eq_ok {bytes : List UInt8} (hreserve : ∀ size, reserve size = true) :
    encodeRowset reserve rows = .ok bytes ↔
      WithinLimits rows ∧ bytes = encodeRowsetUnchecked rows := by
  unfold encodeRowset
  rw [ExceptList.bind_eq_ok]
  constructor
  · rintro ⟨size, hsize, h⟩
    rw [if_pos (hreserve size)] at h
    exact ⟨(validateAndMeasure_eq_ok.mp hsize).1, (Except.ok.inj h).symm⟩
  · rintro ⟨hlimits, rfl⟩
    refine ⟨encodedSize rows, validateAndMeasure_eq_ok.mpr ⟨hlimits, rfl⟩, ?_⟩
    rw [if_pos (hreserve _)]
    rfl

/-- A refusal leaves the output as it was. -/
theorem encodeRowsetInto_refused (h : ¬ WithinLimits rows) (out : List UInt8) :
    ∃ e, encodeRowsetInto rows out = (.error e, out) := by
  unfold encodeRowsetInto
  cases hvalidate : validateAndMeasure rows with
  | error e => exact ⟨e, rfl⟩
  | ok size => exact absurd (validateAndMeasure_eq_ok.mp hvalidate).1 h

end Encode

/-- **The rowset codec.** A rowset is encoded exactly when it is within the limits. What is
written then has the announced size, a multiple of eight, and is the same rowset again
wherever it is cut into attachments. A rowset that is refused leaves no trace in the output. -/
theorem rowset_codec {reserve : Nat → Bool} (hreserve : ∀ size, reserve size = true)
    (rows : List MaybeRow) :
    ((∃ bytes, encodeRowset reserve rows = .ok bytes) ↔ WithinLimits rows) ∧
      (∀ bytes, encodeRowset reserve rows = .ok bytes →
        bytes.length = encodedSize rows ∧ 8 ∣ bytes.length ∧
          ∀ attachments : List (List UInt8), attachments ≠ [] → attachments.flatten = bytes →
            ∀ descriptor, CurrentVersion descriptor →
              decodeRowsetAttachments attachments descriptor = .ok rows) ∧
      ∀ out, ¬ WithinLimits rows → ∃ e, encodeRowsetInto rows out = (.error e, out) := by
  refine ⟨?_, ?_, ?_⟩
  · constructor
    · rintro ⟨bytes, h⟩
      exact ((encodeRowset_eq_ok hreserve).mp h).1
    · intro h
      exact ⟨_, (encodeRowset_eq_ok hreserve).mpr ⟨h, rfl⟩⟩
  · intro bytes h
    obtain ⟨hlimits, rfl⟩ := (encodeRowset_eq_ok hreserve).mp h
    have hlength := encodeRowsetUnchecked_length rows
    refine ⟨hlength, ?_, ?_⟩
    · rw [hlength]
      exact dvd_encodedSize rows
    · intro attachments hattachments hcut descriptor hversion
      exact attachments_round_trip hlimits hattachments hcut hversion
  · intro out h
    exact encodeRowsetInto_refused h out

/-- A null row, an empty one, and a row with a negative zero and a blob that is padded, cut in
the middle of a word. -/
theorem rowset_codec_cut :
    decodeRowsetAttachments
      [(encodeRowsetUnchecked [none, some [],
          some [⟨3, true, .double 0x8000000000000000⟩, ⟨0, false, .string [0x79, 0x74]⟩]]).take 13,
        (encodeRowsetUnchecked [none, some [],
          some [⟨3, true, .double 0x8000000000000000⟩, ⟨0, false, .string [0x79, 0x74]⟩]]).drop 13]
      (some ⟨some 1⟩) = .ok [none, some [],
        some [⟨3, true, .double 0x8000000000000000⟩, ⟨0, false, .string [0x79, 0x74]⟩]] := by
  refine ((@rowset_codec (fun _ => true) (fun _ => rfl) [none, some [],
    some [⟨3, true, .double 0x8000000000000000⟩, ⟨0, false, .string [0x79, 0x74]⟩]]).2.1 _
    rfl).2.2 _ (List.cons_ne_nil _ _) ?_ _ ?_
  · rw [List.flatten_cons, List.flatten_cons, List.flatten_nil, List.append_nil]
    exact List.take_append_drop 13 _
  · intro version h
    cases h
    rfl

end Wire
end Rpc
end Ytsaurus
