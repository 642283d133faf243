import Ytsaurus.Lib.Drain
import Ytsaurus.Proof.Skiff.Row
import Ytsaurus.Proof.Skiff.Skip

/-!
# `Proof/Skiff/Mixture.lean` — skipping and reading rows of one stream

`skip_row` is `next_row` without the row. A caller may therefore choose at every row whether
to read it or to skip it: the rows stand at the same positions, under the same table indexes,
and the stream ends or fails at the same place.

Errors are compared as errors, with everything in them, and that they are genuine is part of the
statement: none of them is a panic of the source or a loop of the model that was cut short. Without
this the two could agree by failing in the same unreal way.

`follow` is what a caller with a plan sees of a stream: the table index and the position behind each
row, and the error that stopped it. Two plans of the same length see the same. A plan is any list
of choices; that a choice may depend on the rows read before is no more than that, for a given
stream.
-/

set_option autoImplicit false

namespace Ytsaurus
namespace Skiff

namespace Decoder

variable [ValueLayout]

/-- What is left of a row when its value is thrown away. -/
def rowIndex (r : Option (Nat × Value) × Decoder) : Option Nat × Decoder := (r.1.map Prod.fst, r.2)

/-- A row is skipped exactly as it is read. -/
theorem skipRow_eq (decoder : Decoder) : decoder.skipRow = decoder.nextRow.map rowIndex := by
  cases hinput : decoder.input with
  | nil =>
    rw [skipRow_nil hinput, nextRow_nil hinput]
    rfl
  | cons first rest =>
    rw [skipRow_cons hinput, nextRow_cons hinput]
    cases decoder.rowFront first rest with
    | error e => rfl
    | ok front =>
      dsimp only [Except.bind]
      rw [(Decode.skipValue_sameEffect front.2.1).eq_map]
      cases Decode.decodeValue front.2.1 front.2.2 <;> rfl

/-! ## Any mixture -/

/-- What a caller does with the row in front of it. -/
inductive Access where
  | read
  | skip
  deriving DecidableEq, Repr

def access : Access → Decoder → Except CodecError (Option Nat × Decoder)
  | .read, decoder => decoder.nextRow.map rowIndex
  | .skip, decoder => decoder.skipRow

theorem access_eq (how how' : Access) (decoder : Decoder) :
    access how decoder = access how' decoder := by
  cases how <;> cases how' <;> simp only [access, skipRow_eq]

/-- The table index and the position behind it of every row a caller gets past, and the error
that stopped it. -/
def follow : List Access → Decoder → List (Option Nat × List UInt8) × Option CodecError
  | [], _ => ([], none)
  | how :: hows, decoder =>
    match access how decoder with
    | .error e => ([], some e)
    | .ok (index, decoder) =>
      let rest := follow hows decoder
      ((index, decoder.input) :: rest.1, rest.2)

theorem follow_eq {hows hows' : List Access} (h : hows.length = hows'.length)
    (decoder : Decoder) : follow hows decoder = follow hows' decoder := by
  induction hows generalizing hows' decoder with
  | nil =>
    cases hows' with
    | nil => rfl
    | cons how' hows' => cases h
  | cons how hows ih =>
    cases hows' with
    | nil => cases h
    | cons how' hows' =>
      unfold follow
      rw [access_eq how how']
      cases access how' decoder with
      | error e => rfl
      | ok r =>
        have hrest : follow hows r.2 = follow hows' r.2 := ih (Nat.succ.inj h) r.2
        show (_ :: (follow hows r.2).1, (follow hows r.2).2) = _
        rw [hrest]

/-- A stream that decodes skips, under the same table indexes and to the same end. -/
theorem skips_of_reads {decoder : Decoder} {rows : List (Nat × Value)}
    {outcome : Drain.Outcome CodecError} (h : Drain.Runs nextRow decoder rows outcome) :
    Drain.Runs skipRow decoder (rows.map Prod.fst) outcome := by
  induction h with
  | failed h =>
    apply Drain.Runs.failed
    rw [skipRow_eq, h]
    rfl
  | finished h =>
    apply Drain.Runs.finished
    rw [skipRow_eq, h]
    rfl
  | yields h _ ih =>
    refine Drain.Runs.yields ?_ ih
    rw [skipRow_eq, h]
    rfl

/-- A stream that skips decodes. -/
theorem reads_of_skips {decoder : Decoder} {indexes : List Nat}
    {outcome : Drain.Outcome CodecError} (h : Drain.Runs skipRow decoder indexes outcome) :
    ∃ rows, Drain.Runs nextRow decoder rows outcome ∧ rows.map Prod.fst = indexes := by
  induction h with
  | failed h =>
    rw [skipRow_eq] at h
    exact ⟨[], .failed (ExceptList.map_eq_error.mp h), rfl⟩
  | finished h =>
    rw [skipRow_eq] at h
    obtain ⟨r, hread, hindex⟩ := ExceptList.map_eq_ok.mp h
    obtain ⟨row, decoder'⟩ := r
    cases row with
    | none => exact ⟨[], .finished hread, rfl⟩
    | some row => cases hindex
  | yields h _ ih =>
    rw [skipRow_eq] at h
    obtain ⟨r, hread, hindex⟩ := ExceptList.map_eq_ok.mp h
    obtain ⟨row, decoder'⟩ := r
    cases row with
    | none => cases hindex
    | some row =>
      cases hindex
      obtain ⟨rows, hrows, hindexes⟩ := ih
      exact ⟨row :: rows, .yields hread hrows, congrArg (row.1 :: ·) hindexes⟩

/-- **Skipping agrees with decoding.** At every row the two return the same table index from
the same place or fail with the same error, none of them a panic or a loop cut short; so any
two mixtures of skips and reads see the same rows at the same positions, and a stream that
skips is a stream that decodes. -/
theorem skip_agrees_with_read (decoder : Decoder) :
    decoder.skipRow = decoder.nextRow.map rowIndex ∧
    (∀ e, decoder.nextRow = .error e → e.Genuine) ∧
    (∀ hows hows' : List Access, hows.length = hows'.length →
      follow hows decoder = follow hows' decoder) ∧
    ∀ (indexes : List Nat) (outcome : Drain.Outcome CodecError),
      Drain.Runs skipRow decoder indexes outcome ↔
        ∃ rows, Drain.Runs nextRow decoder rows outcome ∧ rows.map Prod.fst = indexes := by
  refine ⟨skipRow_eq decoder, fun e => nextRow_genuine, ?_, ?_⟩
  · intro hows hows' h
    exact follow_eq h decoder
  · intro indexes outcome
    constructor
    · exact reads_of_skips
    · intro h
      obtain ⟨rows, hrows, hindexes⟩ := h
      rw [← hindexes]
      exact skips_of_reads hrows

end Decoder

end Skiff
end Ytsaurus
