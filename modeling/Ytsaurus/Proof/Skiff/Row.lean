import Ytsaurus.Proof.Skiff.Total

/-!
# `Proof/Skiff/Row.lean` — the rows of a stream

A row is a table index and a value of that table's schema. `rowFront` is what `next_row` and
`skip_row` do before they come to the value; they do it alike, so a fact about the front of a
row is a fact about both.

The index is two bytes, of which the first is looked for alone: a stream that ends there is a stream
that ends, and one that ends behind it was cut. An index that no table has is an error, and it is
reported before the value is looked at. The budget is new for every row.
-/

set_option autoImplicit false

namespace Ytsaurus
namespace Skiff

open LittleEndian

namespace Decoder

/-- The front of a row, which both readers handle alike: its table index, and the schema and
the cursor its value is read with. -/
def rowFront (decoder : Decoder) (first : UInt8) (rest : List UInt8) :
    Except CodecError (Nat × Schema × Cursor) := do
  let tag ← takeExact 1 "table Variant16 tag" rest
  let index := ofLeBytes (first :: tag.1.val)
  let schema ← (decoder.format.tableSchema index).mapError .invalidSchema
  return (index, schema, ⟨tag.2, RowBudget.new decoder.maxBlobBytes decoder.maxRowBytes⟩)

theorem takeExact_genuine {count : Nat} {context : String} {input : List UInt8} {e : CodecError}
    (h : takeExact count context input = .error e) : e.Genuine := by
  unfold takeExact at h
  split at h
  · cases h
  · cases h
    exact ⟨by simp, by simp⟩

theorem rowFront_genuine {decoder : Decoder} {first : UInt8} {rest : List UInt8} {e : CodecError}
    (h : decoder.rowFront first rest = .error e) : e.Genuine := by
  unfold rowFront at h
  cases htag : takeExact 1 "table Variant16 tag" rest with
  | error e' =>
    rw [htag] at h
    cases h
    exact takeExact_genuine htag
  | ok tag =>
    rw [htag] at h
    dsimp only [bind, Except.bind] at h
    cases hschema : decoder.format.tableSchema (ofLeBytes (first :: tag.1.val)) with
    | error e' =>
      rw [hschema] at h
      cases h
      exact ⟨by simp, by simp⟩
    | ok schema =>
      rw [hschema] at h
      cases h

variable [ValueLayout]

theorem nextRow_nil {decoder : Decoder} (h : decoder.input = []) :
    decoder.nextRow = .ok (none, decoder) := by
  unfold nextRow
  rw [h]

theorem skipRow_nil {decoder : Decoder} (h : decoder.input = []) :
    decoder.skipRow = .ok (none, decoder) := by
  unfold skipRow
  rw [h]

theorem nextRow_cons {decoder : Decoder} {first : UInt8} {rest : List UInt8}
    (h : decoder.input = first :: rest) :
    decoder.nextRow = (decoder.rowFront first rest).bind fun front =>
      (Decode.decodeValue front.2.1 front.2.2).map fun row =>
        (some (front.1, row.1), { decoder with input := row.2.input }) := by
  unfold nextRow rowFront
  rw [h]
  dsimp only
  cases takeExact 1 "table Variant16 tag" rest with
  | error e => rfl
  | ok tag =>
    dsimp only [bind, Except.bind]
    cases (decoder.format.tableSchema (ofLeBytes (first :: tag.1.val))).mapError
        CodecError.invalidSchema with
    | error e => rfl
    | ok schema =>
      dsimp only [Except.bind, pure, Except.pure, StateT.run]
      cases Decode.decodeValue schema _ <;> rfl

theorem skipRow_cons {decoder : Decoder} {first : UInt8} {rest : List UInt8}
    (h : decoder.input = first :: rest) :
    decoder.skipRow = (decoder.rowFront first rest).bind fun front =>
      (Decode.skipValue front.2.1 front.2.2).map fun row =>
        (some front.1, { decoder with input := row.2.input }) := by
  unfold skipRow rowFront
  rw [h]
  dsimp only
  cases takeExact 1 "table Variant16 tag" rest with
  | error e => rfl
  | ok tag =>
    dsimp only [bind, Except.bind]
    cases (decoder.format.tableSchema (ofLeBytes (first :: tag.1.val))).mapError
        CodecError.invalidSchema with
    | error e => rfl
    | ok schema =>
      dsimp only [Except.bind, pure, Except.pure, StateT.run]
      cases Decode.skipValue schema _ <;> rfl

/-- Reading a row answers with a row or with an error of the wire. -/
theorem nextRow_genuine {decoder : Decoder} {e : CodecError} (h : decoder.nextRow = .error e) :
    e.Genuine := by
  cases hinput : decoder.input with
  | nil =>
    rw [nextRow_nil hinput] at h
    cases h
  | cons first rest =>
    rw [nextRow_cons hinput] at h
    cases hfront : decoder.rowFront first rest with
    | error e' =>
      rw [hfront] at h
      cases h
      exact rowFront_genuine hfront
    | ok front =>
      rw [hfront] at h
      have hvalue := ExceptList.map_eq_error.mp h
      exact (Decode.decodeValue_total front.2.1 front.2.2).genuine hvalue

end Decoder

end Skiff
end Ytsaurus
