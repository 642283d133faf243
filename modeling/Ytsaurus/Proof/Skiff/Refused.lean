import Ytsaurus.Proof.Skiff.RoundTrip

/-!
# `Proof/Skiff/Refused.lean` — what a refused row leaves in the stream

The encoder writes the table index of a row before it looks at the row, and then each value as it
validates it. What was written when a row is refused stays written: at least the index.

So no refused row leaves the output as it was: two bytes are in it before the first check
(`leaves_no_trace_iff`). A reader of the output takes them for the index of a row, and what stands
behind them for its value, so the next row is not read back either (`behind_refusedRow`). Who has
been refused a row can only throw the encoder away. The writer of YSON rows goes about it in
another way and encodes into a buffer of its own first.
-/

set_option autoImplicit false

namespace Ytsaurus
namespace Skiff

namespace Encoder

/-- A row leaves the table index and what was written of its value, whether or not it is
accepted. -/
theorem write_output (encoder : Encoder) (row : Value) :
    (encoder.write row).2.output =
      encoder.output ++ ([0, 0] ++
        (encodeValue encoder.maxBlobBytes row encoder.schema).bytes) := rfl

theorem write_output_ne (encoder : Encoder) (row : Value) :
    (encoder.write row).2.output ≠ encoder.output := by
  intro hsame
  rw [write_output] at hsame
  have hnil := List.append_right_eq_self.mp hsame
  cases hnil

/-- **Every refused row leaves a trace**: only a row that is accepted leaves none if refused. -/
theorem leaves_no_trace_iff (encoder : Encoder) (row : Value) :
    ((encoder.write row).1 ≠ .ok () → (encoder.write row).2.output = encoder.output) ↔
      (encoder.write row).1 = .ok () := by
  constructor
  · intro hnothing
    apply Classical.byContradiction
    intro hrefused
    exact write_output_ne encoder row (hnothing hrefused)
  · intro haccepted hrefused
    exact absurd haccepted hrefused

/-- A value of another type than its column, and a row behind it. -/
def refusedRow : Value := .tuple [.int64 1]

def acceptedRow : Value := .tuple [.bytes [0x41]]

end Encoder

/-- The row behind a refused one is not read back: its own table index is taken for the beginning
of a blob's length. -/
theorem behind_refusedRow :
    (stringEncoder.write Encoder.refusedRow).1 =
        .error (.valueDoesNotMatchSchema .string32 "int64") ∧
      (stringEncoder.write Encoder.refusedRow).2.output = [0, 0] ∧
      ((stringEncoder.write Encoder.refusedRow).2.write Encoder.acceptedRow).1 = .ok () ∧
      ∃ format, Format.new [.inline stringTable] = .ok format ∧
        @Decoder.nextRow valueLayout64
          (.new ((stringEncoder.write Encoder.refusedRow).2.write Encoder.acceptedRow).2.output
            format) = .error (.truncated "blob payload") :=
  ⟨rfl, rfl, rfl, ⟨⟨[.inline stringTable], .empty⟩, rfl⟩, rfl, rfl⟩

end Skiff
end Ytsaurus
