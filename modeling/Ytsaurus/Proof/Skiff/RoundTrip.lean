import Ytsaurus.Lib.Drain
import Ytsaurus.Proof.Skiff.Decode
import Ytsaurus.Proof.Skiff.Encode
import Ytsaurus.Proof.Skiff.Reencode
import Ytsaurus.Proof.Skiff.Row

/-!
# `Proof/Skiff/RoundTrip.lean` — rows through an encoder and a decoder

An encoder for one table and a decoder for the format that has just that table speak the
same stream: `SpellsStream` is the spellings of the rows, each behind the table index zero.
What the encoder wrote is read back row for row, within the decoder's limits. What the
decoder read to a clean end is written again byte for byte, when every boolean byte is one an
encoder writes and no blob is beyond the limit of the encoder that writes it: the two limits
are set apart from each other, and a decoder may be set to take more than an encoder would.

The first direction needs that the decoder is within its limits on these rows: the blobs, and the
charge of every row against the budget of a row. The second needs nothing of the kind, since what
was read was within them. Its two conditions are about what the encoder would not do: write a
byte other than zero and one for a boolean, or a blob beyond its own limit. Both are tight;
`raised_not_rewritten` is a decoder whose limit was raised by one.

A stream that fails in the middle is neither: the rows in front of the failure are as in any
stream, and nothing is said about writing them again.
-/

set_option autoImplicit false

namespace Ytsaurus
namespace Skiff

open LittleEndian

/-! ## The stream of one table -/

/-- The rows of one table, each behind the table index zero. -/
inductive SpellsStream (schema : Schema) : List Value → List UInt8 → Prop
  | nil : SpellsStream schema [] []
  | cons {v : Value} {rows : List Value} {bytes rest : List UInt8} (h : Spells schema v bytes)
      (hrest : SpellsStream schema rows rest) :
      SpellsStream schema (v :: rows) (0 :: 0 :: (bytes ++ rest))

namespace Encoder

/-- A sequence of writes, up to the first that is refused. -/
def writeAll : List Value → Encoder → Except CodecError Encoder
  | [], encoder => .ok encoder
  | row :: rows, encoder =>
    match (encoder.write row).1 with
    | .error e => .error e
    | .ok () => writeAll rows (encoder.write row).2

/-- The encoder after these bytes. -/
def append (encoder : Encoder) (bytes : List UInt8) : Encoder :=
  { encoder with output := encoder.output ++ bytes }

theorem write_of_spells {encoder : Encoder} {row : Value} {bytes : List UInt8}
    (h : Spells encoder.schema row bytes) (hwithin : row.BlobsWithin encoder.maxBlobBytes) :
    encoder.write row = (.ok (), encoder.append (0 :: 0 :: bytes)) := by
  have hwrote : encoder.encodeRow row = .wrote ([0, 0] ++ bytes) () :=
    Written.bind_wrote_wrote (encode_of_spells h hwithin)
  unfold write
  rw [hwrote]
  rfl

theorem spells_of_write {encoder : Encoder} {row : Value}
    (h : (encoder.write row).1 = .ok ()) :
    ∃ bytes, Spells encoder.schema row bytes ∧ row.BlobsWithin encoder.maxBlobBytes ∧
      (encoder.write row).2 = encoder.append (0 :: 0 :: bytes) := by
  have hresult : encoder.encodeRow row = .wrote (encoder.encodeRow row).bytes () :=
    Written.eq_wrote h
  obtain ⟨_, first, second, hfirst, hsecond, hbytes⟩ := Written.bind_eq_wrote hresult
  obtain ⟨rfl, _⟩ := Written.wrote_inj.mp hfirst
  obtain ⟨hspells, hwithin⟩ := (encodeValue_iff encoder.valid).mp hsecond
  refine ⟨second, hspells, hwithin, ?_⟩
  rw [write_of_spells hspells hwithin]

/-- **A sequence of writes writes the stream of its rows**, and is accepted when there is one
and the blobs fit. -/
theorem writeAll_eq_ok {rows : List Value} {encoder final : Encoder} :
    writeAll rows encoder = .ok final ↔
      ∃ stream, SpellsStream encoder.schema rows stream ∧
        (∀ row ∈ rows, row.BlobsWithin encoder.maxBlobBytes) ∧ final = encoder.append stream := by
  induction rows generalizing encoder with
  | nil =>
    constructor
    · intro h
      cases h
      refine ⟨[], .nil, fun _ hrow => absurd hrow List.not_mem_nil, ?_⟩
      rw [append, List.append_nil]
    · intro h
      obtain ⟨stream, hstream, _, rfl⟩ := h
      cases hstream
      rw [append, List.append_nil]
      rfl
  | cons row rows ih =>
    unfold writeAll
    constructor
    · intro h
      cases hwrite : (encoder.write row).1 with
      | error e =>
        rw [hwrite] at h
        cases h
      | ok u =>
        obtain ⟨bytes, hspells, hwithin, hnext⟩ := spells_of_write hwrite
        rw [hwrite, hnext] at h
        obtain ⟨stream, hstream, hall, hfinal⟩ := ih.mp h
        refine ⟨0 :: 0 :: (bytes ++ stream), .cons hspells hstream,
          List.forall_mem_cons.mpr ⟨hwithin, hall⟩, ?_⟩
        rw [hfinal, append, append, append, List.append_assoc]
        rfl
    · intro h
      obtain ⟨stream, hstream, hall, rfl⟩ := h
      obtain ⟨hwithin, hrest⟩ := List.forall_mem_cons.mp hall
      cases hstream with
      | @cons _ _ bytes more hspells hmore =>
        rw [write_of_spells hspells hwithin]
        apply ih.mpr
        refine ⟨more, hmore, hrest, ?_⟩
        rw [append, append, append, List.append_assoc]
        rfl

end Encoder

/-! ## The format of one table -/

theorem Format.fromParts_ok {tableSchemas : List SchemaRef} {registry : Registry}
    (h : FormatParts.validate ⟨tableSchemas, registry⟩ = .ok ()) :
    Format.fromParts tableSchemas registry = .ok ⟨⟨tableSchemas, registry⟩, h⟩ := by
  unfold Format.fromParts
  split
  · rename_i e he
    rw [h] at he
    cases he
  · rfl

theorem Format.new_single {schema : Schema} (hvalid : schema.validate = .ok ())
    (htable : schema.validateTableSchema = .ok ()) :
    ∃ format, Format.new [.inline schema] = .ok format ∧
      format.toFormatParts = ⟨[.inline schema], .empty⟩ := by
  have hcheck : FormatParts.validate ⟨[.inline schema], .empty⟩ = .ok () := by
    show (schema.validate >>= fun _ => schema.validateTableSchema) >>= _ = _
    rw [hvalid, htable]
    rfl
  exact ⟨_, Format.fromParts_ok hcheck, rfl⟩

/-- This decoder reads the rows of one table. -/
def Decoder.Single (schema : Schema) (decoder : Decoder) : Prop :=
  decoder.format.toFormatParts = ⟨[.inline schema], .empty⟩

namespace Decoder

variable {schema : Schema} {decoder : Decoder}

theorem Single.tableSchema_zero (h : decoder.Single schema) :
    decoder.format.tableSchema 0 = .ok schema := by
  rw [h]
  rfl

theorem Single.index_zero (h : decoder.Single schema) {index : Nat} {found : Schema}
    (hfound : decoder.format.tableSchema index = .ok found) : index = 0 ∧ found = schema := by
  cases index with
  | zero =>
    rw [h.tableSchema_zero] at hfound
    cases hfound
    exact ⟨rfl, rfl⟩
  | succ index =>
    rw [h] at hfound
    cases hfound

/-- The budget a row of this decoder starts with. -/
def rowBudget (decoder : Decoder) : RowBudget :=
  RowBudget.new decoder.maxBlobBytes decoder.maxRowBytes

theorem rowFront_zero (h : decoder.Single schema) (rest : List UInt8) :
    decoder.rowFront 0 (0 :: rest) = .ok (0, schema, ⟨rest, decoder.rowBudget⟩) := by
  have htag : takeExact 1 "table Variant16 tag" (0 :: rest) = .ok (⟨[0], rfl⟩, rest) := by
    have hle : 1 ≤ ((0 : UInt8) :: rest).length := Nat.le_add_left 1 rest.length
    unfold takeExact
    rw [dif_pos hle]
    rfl
  unfold rowFront
  rw [htag]
  show Except.bind ((decoder.format.tableSchema 0).mapError _) _ = _
  rw [h.tableSchema_zero]
  rfl

theorem rowFront_eq_ok (h : decoder.Single schema) {first : UInt8} {rest : List UInt8}
    {front : Nat × Schema × Cursor} (hfront : decoder.rowFront first rest = .ok front) :
    ∃ more, first :: rest = 0 :: 0 :: more ∧ front = (0, schema, ⟨more, decoder.rowBudget⟩) := by
  obtain ⟨tag, htag, hrest⟩ := ExceptList.bind_eq_ok.mp hfront
  obtain ⟨found, hfound, hpure⟩ := ExceptList.bind_eq_ok.mp hrest
  cases hpure
  have htable : decoder.format.tableSchema (ofLeBytes (first :: tag.1.val)) = .ok found := by
    cases hcase : decoder.format.tableSchema (ofLeBytes (first :: tag.1.val)) with
    | error e =>
      rw [hcase] at hfound
      cases hfound
    | ok schema =>
      rw [hcase] at hfound
      cases hfound
      rfl
  obtain ⟨hindex, rfl⟩ := h.index_zero htable
  unfold takeExact at htag
  split at htag
  · cases htag
    cases rest with
    | nil => contradiction
    | cons second more =>
      have hbytes : first.toNat + 256 * (second.toNat + 256 * 0) = 0 := hindex
      have hfirst : first = 0 := UInt8.toNat.inj (show first.toNat = 0 by omega)
      have hsecond : second = 0 := UInt8.toNat.inj (show second.toNat = 0 by omega)
      subst hfirst hsecond
      exact ⟨more, rfl, rfl⟩
  · cases htag

variable [ValueLayout]

/-- **The stream of the rows is read back**, to a clean end. -/
theorem reads_stream {rows : List Value} {stream : List UInt8}
    (hstream : SpellsStream schema rows stream) {decoder : Decoder}
    (hsingle : decoder.Single schema) (hinput : decoder.input = stream)
    (hlimits : ∀ row ∈ rows, row.charge ≤ decoder.maxRowBytes ∧
      row.BlobsWithin decoder.maxBlobBytes) :
    Drain.Runs nextRow decoder (rows.map fun row => (0, row)) .finished := by
  induction hstream generalizing decoder with
  | nil => exact .finished (nextRow_nil hinput)
  | @cons v rows bytes rest h hrest ih =>
    obtain ⟨hfirst, hothers⟩ := List.forall_mem_cons.mp hlimits
    have hnext : nextRow decoder = .ok (some (0, v), { decoder with input := rest }) := by
      rw [nextRow_cons hinput, rowFront_zero hsingle]
      dsimp only [Except.bind]
      rw [Decode.decode_of_spells h _ rest hfirst.2 hfirst.1]
      rfl
    exact .yields hnext (ih hsingle rfl hothers)

/-! ## Reading a stream and writing it again -/

/-- The boolean bytes of the next row. -/
def nextBooleans (decoder : Decoder) : Except CodecError (Option (List (BitVec 8)) × Decoder) :=
  match decoder.input with
  | [] => .ok (none, decoder)
  | first :: rest =>
    (decoder.rowFront first rest).bind fun front =>
      (Decode.booleanBytes front.2.1 front.2.2).map fun row =>
        (some row.1, { decoder with input := row.2.input })

theorem nextBooleans_cons {first : UInt8} {rest : List UInt8}
    (h : decoder.input = first :: rest) :
    decoder.nextBooleans = (decoder.rowFront first rest).bind fun front =>
      (Decode.booleanBytes front.2.1 front.2.2).map fun row =>
        (some row.1, { decoder with input := row.2.input }) := by
  unfold nextBooleans
  rw [h]

/-- A row that was read, when its boolean bytes are strict. -/
theorem row_of_nextRow (hsingle : decoder.Single schema) {decoder' : Decoder}
    {row : Nat × Value} (h : nextRow decoder = .ok (some row, decoder')) :
    decoder'.Single schema ∧ row.1 = 0 ∧
      ∃ bools, nextBooleans decoder = .ok (some bools, decoder') ∧
        (Decode.Strict bools → ∃ bytes, Spells schema row.2 bytes ∧
          decoder.input = 0 :: 0 :: (bytes ++ decoder'.input)) := by
  cases hinput : decoder.input with
  | nil =>
    rw [nextRow_nil hinput] at h
    cases h
  | cons first rest =>
    rw [nextRow_cons hinput] at h
    obtain ⟨front, hfront, hvalue⟩ := ExceptList.bind_eq_ok.mp h
    obtain ⟨more, hbytes, rfl⟩ := rowFront_eq_ok hsingle hfront
    obtain ⟨result, hdecode, hpair⟩ := ExceptList.map_eq_ok.mp hvalue
    obtain ⟨v, s'⟩ := result
    cases hpair
    obtain ⟨bools, hread, hspells⟩ := Decode.spells_of_decode schema hdecode
    refine ⟨hsingle, rfl, bools, ?_, ?_⟩
    · rw [nextBooleans_cons hinput, hfront]
      dsimp only [Except.bind]
      rw [hread]
      rfl
    · intro hstrict
      obtain ⟨bytes, hmore, hspelled⟩ := hspells hstrict
      refine ⟨bytes, hspelled, ?_⟩
      rw [hbytes]
      exact congrArg (fun input => 0 :: 0 :: input) hmore

/-- **What was read to a clean end is the stream of the rows**, boolean bytes being strict. -/
theorem stream_of_reads {rows : List (Nat × Value)} {outcome : Drain.Outcome CodecError}
    (hruns : Drain.Runs nextRow decoder rows outcome) (hclean : outcome = .finished)
    (hsingle : decoder.Single schema) :
    ∃ bools, Drain.Runs nextBooleans decoder bools .finished ∧
      (Decode.Strict bools.flatten → SpellsStream schema (rows.map Prod.snd) decoder.input) := by
  induction hruns with
  | failed h => cases hclean
  | @finished decoder decoder' h =>
    have hend : decoder.input = [] := by
      cases hinput : decoder.input with
      | nil => rfl
      | cons first rest =>
        rw [nextRow_cons hinput] at h
        obtain ⟨front, _, hvalue⟩ := ExceptList.bind_eq_ok.mp h
        obtain ⟨_, _, hpair⟩ := ExceptList.map_eq_ok.mp hvalue
        cases hpair
    have hbooleans : nextBooleans decoder = .ok (none, decoder) := by
      unfold nextBooleans
      rw [hend]
    refine ⟨[], .finished hbooleans, fun _ => ?_⟩
    rw [hend]
    exact .nil
  | yields h _ ih =>
    obtain ⟨hsingle', _, bools, hbooleans, hspells⟩ := row_of_nextRow hsingle h
    obtain ⟨more, hmore, hstream⟩ := ih hclean hsingle'
    refine ⟨bools :: more, .yields hbooleans hmore, ?_⟩
    intro hstrict
    rw [List.flatten_cons] at hstrict
    obtain ⟨bytes, hspelled, hinput⟩ := hspells hstrict.left
    rw [hinput]
    exact .cons hspelled (hstream hstrict.right)

end Decoder

/-! ## The two directions -/

theorem Encoder.new_eq_ok {output : List UInt8} {schema : Schema} {encoder : Encoder}
    (h : Encoder.new output schema = .ok encoder) :
    encoder.output = output ∧ encoder.schema = schema := by
  unfold Encoder.new at h
  split at h
  · cases h
  · split at h
    · cases h
    · split at h
      · cases h
      · cases h
        exact ⟨rfl, rfl⟩

/-- **Encoding and decoding are inverse to each other.** For a schema that `Encoder::new`
accepts, the rows that were written are read back, under the table index zero and to a clean
end, within the limits of the decoder; and a stream that was read to a clean end is written
again byte for byte, boolean bytes being strict, by an encoder whose blob limit admits the
decoded blobs. -/
theorem encode_decode_inverse [ValueLayout] {schema : Schema} {encoder : Encoder}
    (hnew : Encoder.new [] schema = .ok encoder) :
    ∃ format, Format.new [.inline schema] = .ok format ∧
      (∀ (limit maxBlobBytes maxRowBytes : Nat) (rows : List Value) (final : Encoder),
        Encoder.writeAll rows (encoder.withMaxBlobBytes limit) = .ok final →
        (∀ row ∈ rows, row.charge ≤ maxRowBytes ∧ row.BlobsWithin maxBlobBytes) →
        Drain.Runs Decoder.nextRow ⟨final.output, format, maxBlobBytes, maxRowBytes⟩
          (rows.map fun row => (0, row)) .finished) ∧
      ∀ (stream : List UInt8) (maxBlobBytes maxRowBytes : Nat) (rows : List (Nat × Value)),
        Drain.Runs Decoder.nextRow ⟨stream, format, maxBlobBytes, maxRowBytes⟩ rows .finished →
        ∃ bools, Drain.Runs Decoder.nextBooleans ⟨stream, format, maxBlobBytes, maxRowBytes⟩
            bools .finished ∧
          (Decode.Strict bools.flatten → ∀ limit : Nat, (∀ row ∈ rows, row.2.BlobsWithin limit) →
            ∃ final, Encoder.writeAll (rows.map Prod.snd) (encoder.withMaxBlobBytes limit) =
              .ok final ∧ final.output = stream) := by
  obtain ⟨houtput, rfl⟩ := Encoder.new_eq_ok hnew
  obtain ⟨format, hformat, hparts⟩ := Format.new_single encoder.valid encoder.table
  refine ⟨format, hformat, ?_, ?_⟩
  · intro limit maxBlobBytes maxRowBytes rows final hwrite hlimits
    obtain ⟨stream, hstream, _, rfl⟩ := Encoder.writeAll_eq_ok.mp hwrite
    refine Decoder.reads_stream hstream hparts ?_ hlimits
    show encoder.output ++ stream = stream
    rw [houtput, List.nil_append]
  · intro stream maxBlobBytes maxRowBytes rows hruns
    obtain ⟨bools, hbooleans, hspells⟩ := Decoder.stream_of_reads hruns rfl hparts
    refine ⟨bools, hbooleans, ?_⟩
    intro hstrict limit hwithin
    have hrows : ∀ row ∈ rows.map Prod.snd, row.BlobsWithin limit := by
      intro row hrow
      obtain ⟨indexed, hindexed, rfl⟩ := List.mem_map.mp hrow
      exact hwithin indexed hindexed
    refine ⟨_, Encoder.writeAll_eq_ok.mpr ⟨stream, hspells hstrict, hrows, rfl⟩, ?_⟩
    show encoder.output ++ stream = stream
    rw [houtput, List.nil_append]

/-- The size of a `Value` where pointers have eight bytes. -/
@[reducible] def valueLayout64 : ValueLayout := ⟨48⟩

/-- A table with one string column. -/
def stringTable : Schema := ⟨.tuple, none, [.named "a" .string32]⟩

def stringEncoder : Encoder := ⟨[], stringTable, defaultMaxBlobBytes, rfl, rfl⟩

/-- A table with a string, and a boolean that may be missing. -/
def noteTable : Schema :=
  ⟨.tuple, none, [.named "text" .string32,
    ⟨.variant8, some "done", [.leaf .nothing, .leaf .boolean]⟩]⟩

def noteEncoder : Encoder := ⟨[], noteTable, defaultMaxBlobBytes, rfl, rfl⟩

def noteRows : List Value :=
  [.tuple [.bytes [0x41], .variant 1 (.boolean true)], .tuple [.bytes [], .variant 0 .nothing]]

def noteStream : List UInt8 := [0, 0, 1, 0, 0, 0, 0x41, 1, 1, 0, 0, 0, 0, 0, 0, 0]

/-- Two rows there, and back. -/
theorem encode_decode_inverse_notes :
    ∃ format, Format.new [.inline noteTable] = .ok format ∧
      @Drain.Runs _ _ _ (@Decoder.nextRow valueLayout64) ⟨noteStream, format, 16, 1000⟩
        (noteRows.map fun row => (0, row)) .finished ∧
      ∃ bools, @Drain.Runs _ _ _ (@Decoder.nextBooleans valueLayout64)
          ⟨noteStream, format, 16, 1000⟩ bools .finished ∧
        (Decode.Strict bools.flatten →
          ∃ final, Encoder.writeAll noteRows (noteEncoder.withMaxBlobBytes 16) = .ok final ∧
            final.output = noteStream) := by
  let _ : ValueLayout := valueLayout64
  obtain ⟨format, hformat, hreads, hwrites⟩ := encode_decode_inverse
    (show Encoder.new [] noteTable = .ok noteEncoder from rfl)
  have hwrite : Encoder.writeAll noteRows (noteEncoder.withMaxBlobBytes 16) =
      .ok ((noteEncoder.withMaxBlobBytes 16).append noteStream) := rfl
  have hshort : [(0x41 : UInt8)].length ≤ 16 ∧ ([] : List UInt8).length ≤ 16 := by decide
  have hruns : Drain.Runs Decoder.nextRow ⟨noteStream, format, 16, 1000⟩
      (noteRows.map fun row => (0, row)) .finished := by
    refine hreads 16 16 1000 _ _ hwrite ?_
    simp only [noteRows, List.mem_cons, List.not_mem_nil, or_false, forall_eq_or_imp, forall_eq]
    exact ⟨⟨by decide, hshort.1, trivial, trivial⟩, by decide, hshort.2, trivial, trivial⟩
  obtain ⟨bools, hbooleans, hback⟩ := hwrites noteStream 16 1000 _ hruns
  refine ⟨format, hformat, hruns, bools, hbooleans, ?_⟩
  intro hstrict
  refine hback hstrict 16 ?_
  simp only [noteRows, List.map_cons, List.map_nil, List.mem_cons, List.not_mem_nil, or_false,
    forall_eq_or_imp, forall_eq]
  exact ⟨⟨hshort.1, trivial, trivial⟩, hshort.2, trivial, trivial⟩

/-! ### An encoder that takes less than the decoder

The decoder's blob limit may be raised above the encoder's. -/

/-- Writing the rows that were read again, with an encoder as `Encoder::new` makes it. -/
def Rewrites [ValueLayout] (schema : Schema) (decoder : Decoder) (rows : List (Nat × Value)) :
    Prop :=
  ∀ encoder, Encoder.new [] schema = .ok encoder → decoder.Single schema →
    Drain.Runs Decoder.nextRow decoder rows .finished →
    (∃ bools, Drain.Runs Decoder.nextBooleans decoder bools .finished ∧
      Decode.Strict bools.flatten) →
    ∃ final, Encoder.writeAll (rows.map Prod.snd) encoder = .ok final ∧
      final.output = decoder.input

def stringFormat : Format := ⟨⟨[.inline stringTable], .empty⟩, rfl⟩

/-- A decoder whose blob limit is one more than the default, over one row. -/
def raisedDecoder (v : List UInt8) : Decoder :=
  ⟨0 :: 0 :: (leBytes 4 v.length ++ v), stringFormat, defaultMaxBlobBytes + 1, defaultMaxRowBytes⟩

theorem stringTable_spells {v : List UInt8} (h : v.length < 0x100000000) :
    SpellsStream stringTable [.tuple [.bytes v]] (0 :: 0 :: (leBytes 4 v.length ++ v)) := by
  have hcolumn : Spells (.named "a" .string32) (.bytes v) (leBytes 4 v.length ++ v) :=
    .leaf (.string32 h)
  have hrow : Spells stringTable (.tuple [.bytes v]) ((leBytes 4 v.length ++ v) ++ []) :=
    .tuple (.cons hcolumn .nil)
  rw [List.append_nil] at hrow
  have hstream := SpellsStream.cons hrow .nil
  rw [List.append_nil] at hstream
  exact hstream

/-- A string column has no boolean byte. -/
theorem stringTable_booleans [ValueLayout] {v : List UInt8} (hwidth : v.length < 0x100000000)
    (budget : RowBudget) (hlimit : v.length ≤ budget.maxBlobBytes)
    (hcharge : ValueLayout.sizeOfValue + (ValueLayout.sizeOfValue + v.length) ≤ budget.remaining) :
    ∃ spent, Decode.booleanBytes stringTable ⟨leBytes 4 v.length ++ v, budget⟩ =
      .ok ([], ⟨[], spent⟩) := by
  let forColumn := budget.spend ValueLayout.sizeOfValue
  let forBlob := forColumn.spend ValueLayout.sizeOfValue
  have hroot : ValueLayout.sizeOfValue ≤ budget.remaining := Nat.le_of_add_right_le hcharge
  have hleft : ValueLayout.sizeOfValue + v.length ≤ forColumn.remaining :=
    Nat.le_sub_of_add_le' hcharge
  have hcolumn : ValueLayout.sizeOfValue ≤ forColumn.remaining := Nat.le_of_add_right_le hleft
  have hblob : v.length ≤ forBlob.remaining := Nat.le_sub_of_add_le' hleft
  have hread : Decode.decodeNode .string32 [] ⟨leBytes 4 v.length ++ v ++ [], forBlob⟩ =
      .ok (.bytes v, ⟨[], forBlob.spend v.length⟩) :=
    Decode.decodeNode_leaf (.string32 hwidth) rfl hlimit hblob
  rw [List.append_nil] at hread
  have hbooleans : Decode.booleanBytes (.named "a" .string32)
      ⟨leBytes 4 v.length ++ v, forColumn⟩ = .ok ([], ⟨[], forBlob.spend v.length⟩) := by
    unfold Schema.named
    rw [Decode.booleanBytes_node, StateExcept.bind_ok (Decode.charge_ok hcolumn)]
    exact StateExcept.bind_ok hread
  refine ⟨forBlob.spend v.length, ?_⟩
  unfold stringTable
  rw [Decode.booleanBytes_node, StateExcept.bind_ok (Decode.charge_ok hroot)]
  exact StateExcept.bind_ok hbooleans

/-- The default encoder refuses what the raised decoder takes. -/
theorem raised_not_rewritten {v : List UInt8} (h : v.length = defaultMaxBlobBytes + 1) :
    ¬ @Rewrites valueLayout64 stringTable (raisedDecoder v) [(0, .tuple [.bytes v])] := by
  let _ : ValueLayout := valueLayout64
  have hwidth : v.length < 0x100000000 := by
    rw [h]
    decide
  have hcharge : 48 + (48 + v.length) ≤ defaultMaxRowBytes := by
    rw [h]
    decide
  have hlimit : v.length ≤ defaultMaxBlobBytes + 1 := Nat.le_of_eq h
  have hstream := stringTable_spells hwidth
  have hreads : Drain.Runs Decoder.nextRow (raisedDecoder v) [(0, .tuple [.bytes v])] .finished := by
    refine Decoder.reads_stream hstream rfl rfl ?_
    intro row hrow
    obtain rfl := List.mem_singleton.mp hrow
    exact ⟨hcharge, hlimit, trivial⟩
  have hbools : ∃ bools, Drain.Runs Decoder.nextBooleans (raisedDecoder v) bools .finished ∧
      Decode.Strict bools.flatten := by
    obtain ⟨spent, hread⟩ := stringTable_booleans hwidth (raisedDecoder v).rowBudget
      hlimit hcharge
    have hnext : Decoder.nextBooleans (raisedDecoder v) =
        .ok (some [], { raisedDecoder v with input := [] }) := by
      have hinput : (raisedDecoder v).input = 0 :: 0 :: (leBytes 4 v.length ++ v) := rfl
      have hsingle : (raisedDecoder v).Single stringTable := rfl
      rw [Decoder.nextBooleans_cons hinput, Decoder.rowFront_zero hsingle]
      dsimp only [Except.bind]
      rw [hread]
      rfl
    exact ⟨[[]], .yields hnext (.finished rfl), fun _ hb => absurd hb List.not_mem_nil⟩
  intro hrewrites
  obtain ⟨final, hwrite, _⟩ := hrewrites stringEncoder rfl rfl hreads hbools
  obtain ⟨_, _, hwithin, _⟩ := Encoder.writeAll_eq_ok.mp hwrite
  have hlong : v.length ≤ defaultMaxBlobBytes := (hwithin _ List.mem_cons_self).1
  rw [h] at hlong
  exact absurd hlong (Nat.not_succ_le_self _)

/-- A blob one byte longer than the default limit. -/
theorem long_blob_not_rewritten :
    ¬ @Rewrites valueLayout64 stringTable
      (raisedDecoder (List.replicate (defaultMaxBlobBytes + 1) 0x41))
      [(0, .tuple [.bytes (List.replicate (defaultMaxBlobBytes + 1) 0x41)])] :=
  raised_not_rewritten List.length_replicate

end Skiff
end Ytsaurus
