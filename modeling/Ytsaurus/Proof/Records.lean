import Ytsaurus.Lib.Framing
import Ytsaurus.Proof.Delimit

/-!
# `Proof/Records.lean` — the scanner as a measure of records

The job reader is told how its records lie by `scan_value`: how long the value at the front of
what it has is, that it is not all there, or that there is none. That is a measure in the sense of
`Lib/Framing.lean`, and what that library proves of any stable measure is what the reader's
modules use; so this module only has to show that the scanner is one.

In binary it is stable (`scanMeasure_stable`): more bytes change neither a length nor an error
that is about the bytes. Every value the serializer writes is a record of it, with exactly its own
length, as long as its document scans: the bytes of an encoded document are measured to their last
one, whatever stands behind them. That a value within the nesting limit has such a document is
said in `Proof/Delimit.lean`.

In text the measure is not stable and records end at a line; the reader keeps them apart
otherwise, and nothing of this module is used there.
-/

set_option autoImplicit false

namespace Ytsaurus.Yson

open Framing

variable [FloatText]

def scanMeasure (format : YsonFormat) (x : List UInt8) : Measured YsonError :=
  match scanValue x format with
  | .ok (.complete len) => .complete len
  | .ok .incomplete => .incomplete
  | .error e => .malformed e

theorem scanMeasure_complete {format : YsonFormat} {x : List UInt8} {len : Nat} :
    scanMeasure format x = .complete len ↔ scanValue x format = .ok (.complete len) := by
  unfold scanMeasure
  constructor
  · intro h
    cases hscan : scanValue x format with
    | error e => rw [hscan] at h; cases h
    | ok scan =>
      rw [hscan] at h
      cases scan with
      | incomplete => cases h
      | complete n => cases h; rfl
  · intro h
    rw [h]

theorem scanMeasure_malformed {format : YsonFormat} {x : List UInt8} {e : YsonError} :
    scanMeasure format x = .malformed e ↔ scanValue x format = .error e := by
  unfold scanMeasure
  constructor
  · intro h
    cases hscan : scanValue x format with
    | error e => rw [hscan] at h; cases h; rfl
    | ok scan =>
      rw [hscan] at h
      cases scan with
      | incomplete => cases h
      | complete n => cases h
  · intro h
    rw [h]

/-- A measured record is measured the same when nothing follows it. -/
theorem scanValue_take_complete {x : List UInt8} {format : YsonFormat} {len : Nat}
    (h : scanValue x format = .ok (.complete len)) :
    scanValue (x.take len) format = .ok (.complete len) := by
  obtain ⟨d, it, hd, hlex, rfl⟩ := scanValue_complete_iff.mp h
  obtain ⟨n, _, hn⟩ := hlex.advanced
  have hpos : it.pos = n := by
    have hpos := hn.pos
    simpa [YsonIterator.new] using hpos
  rw [hpos]
  exact scanValue_complete_iff.mpr ⟨d, it.take (n - n), hd, hlex.take hn (Nat.le_refl n), hpos⟩

/-- **More bytes do not change what the scanner said of a binary value.** -/
theorem scanMeasure_stable : Stable (scanMeasure .binary) where
  extend_complete h z :=
    scanMeasure_complete.mpr (scanValue_extend_complete (scanMeasure_complete.mp h) z)
  extend_malformed h z :=
    scanMeasure_malformed.mpr (scanValue_extend_error (scanMeasure_malformed.mp h) z)
  take_complete h := by
    have hscan := scanMeasure_complete.mp h
    obtain ⟨hle, hpos, _⟩ := scanValue_take hscan
    exact ⟨hpos, hle, scanMeasure_complete.mpr (scanValue_take_complete hscan)⟩

/-! ## Where a value begins -/

/-- Whitespace is nothing in binary. -/
theorem nextToken_whitespace {b : UInt8} (h : isAsciiWhitespace b) (x : List UInt8) (pos : Nat)
    (r : Token × YsonIterator) : nextToken ⟨b :: x, pos, true⟩ ≠ .ok r := by
  intro hnext
  simp only [isAsciiWhitespace, Bool.or_eq_true, beq_iff_eq] at h
  rcases h with (((rfl | rfl) | rfl) | rfl) | rfl
  all_goals cases hnext

/-- A binary value begins with neither a separator nor whitespace. -/
theorem Doc.binary_head {d : Doc} {b : UInt8} {x : List UInt8} {pos : Nat} {it : YsonIterator}
    (h : Lexes ⟨b :: x, pos, true⟩ d.toks it) : b ≠ 0x3B ∧ isAsciiWhitespace b = false := by
  obtain ⟨t, ts, htoks, hstarts⟩ := d.toks_head
  rw [htoks] at h
  obtain ⟨it₁, hnext, _⟩ := Lexes.cons_iff.mp h
  obtain ⟨c, hpeek, hleads⟩ := peekByte_of_nextToken hnext
  cases hpeek
  constructor
  · intro hsep
    have ht : t = .itemSeparator := (hleads.eq_iff (u := .itemSeparator) rfl).mp hsep
    exact startsValue_ne_separator hstarts ht
  · cases hspace : isAsciiWhitespace b with
    | false => rfl
    | true => exact absurd hnext (nextToken_whitespace hspace x pos _)

/-! ## What the serializer writes -/

/-- These bytes are how a document is written. -/
structure EncodedAs (isBinary : Bool) (bytes : List UInt8) (d : Doc) : Prop where
  writes : Writes isBinary d.toks bytes
  singleSep : d.SingleSep

namespace EncodedAs

variable {isBinary : Bool} {bytes : List UInt8} {d : Doc} {f : YsonFormat}

theorem spells (h : EncodedAs f.isBinary bytes d) : Spells bytes f d.toks := by
  obtain ⟨it, hlex, hrest⟩ := h.writes.spells
  exact ⟨it, hlex, exhausted_of_rest hrest⟩

/-- **An encoded document that the scanner accepts is a record.** -/
theorem isRecord (h : EncodedAs true bytes d) (hscans : d.Scans MAX_DEPTH 0) :
    scanMeasure .binary bytes = .complete bytes.length := by
  have hlex := h.writes [] 0 trivial
  rw [List.append_nil, Nat.zero_add] at hlex
  exact scanMeasure_complete.mpr (scanValue_complete_iff.mpr ⟨d, _, hscans, hlex, rfl⟩)

theorem head (h : EncodedAs true bytes d) :
    ∀ b ∈ bytes.head?, b ≠ 0x3B ∧ isAsciiWhitespace b = false := by
  intro b hb
  have hlex := h.writes [] 0 trivial
  cases bytes with
  | nil => cases hb
  | cons c x =>
    cases hb
    exact Doc.binary_head hlex

theorem length_le (h : EncodedAs isBinary bytes d) : d.toks.length ≤ bytes.length := by
  have hlength := (h.writes [] 0 trivial).length_le
  rwa [List.append_nil, List.length_nil, Nat.zero_add] at hlength

theorem length_pos (h : EncodedAs isBinary bytes d) : 0 < bytes.length :=
  Nat.lt_of_lt_of_le d.toks_length_pos h.length_le

theorem fromSlice (h : EncodedAs f.isBinary bytes d) :
    YsonValue.fromSlice bytes f = d.value depthLimit 0 :=
  YsonValue.fromSlice_of_spells h.spells h.singleSep

end EncodedAs

/-- **What `to_vec` wrote is how a document is written**, in either format. -/
theorem YsonValue.encodedAs_of_toVec {v : YsonValue} {f : YsonFormat} {bytes : List UInt8}
    (hfloat : f = .text → FloatText.Inverse) (hvalid : v.All Valid) (h : v.toVec f = .ok bytes) :
    ∃ d : Doc, EncodedAs f.isBinary bytes d := by
  have hfloat' : f.isBinary = false → FloatText.Inverse := by
    intro hb
    cases f with
    | text => exact hfloat rfl
    | binary => cases hb
  obtain ⟨ser, hrun, hout⟩ := ExceptList.map_eq_ok.mp h
  obtain ⟨d, hd⟩ := ((v.shaped hvalid).encodable hfloat').1 _ _ rfl rfl hrun
  obtain ⟨bytes', hrun', hwrites⟩ := hd.serialize (.new f.isBinary) rfl rfl
  cases hrun.symm.trans hrun'
  obtain rfl : bytes' = bytes := hout
  exact ⟨d, hwrites, hd.singleSep⟩

/-- **The binary encoding of a value.** -/
theorem YsonValue.toVec_encodedAs {v : YsonValue} (hvalid : v.All Valid) :
    ∃ bytes, v.toVec .binary = .ok bytes ∧ EncodedAs true bytes v.doc := by
  have hencodes : Encodes true v.toData v.doc :=
    YsonValue.encodes (fun hb => by cases hb) v hvalid (fun hb => by cases hb)
  obtain ⟨bytes, hrun, hwrites⟩ := hencodes.serialize (.new true) rfl rfl
  refine ⟨bytes, ?_, hwrites, hencodes.singleSep⟩
  show Yson.toVec v.toData .binary = .ok bytes
  unfold Yson.toVec
  rw [show YsonFormat.binary.isBinary = true from rfl, hrun]
  rfl

end Ytsaurus.Yson
