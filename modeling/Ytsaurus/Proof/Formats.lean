import Ytsaurus.Client.Dynamic
import Ytsaurus.Proof.Scalars
import Ytsaurus.Proof.Spells

/-!
# `Proof/Formats.lean` — an input of both formats is one value

Where the two lexers stand at the same byte and both read a token, that byte is punctuation:
the binary markers are no bytes a text token starts with, and what text passes over is no
binary marker. So the two token streams of an input that is binary and text are the same, step
by step, and so is what they spell.

The payload of a `Value::Any` does not say which format it is in. `value_to_yson` tries binary
first and text then, and a caller may have put either in; so the order of the two attempts would
matter if some bytes were a value in both and not the same one. There are none
(`fromSlice_formats`): an input of both formats consists of brackets, separators, `=` and the
entity. From this, a payload that is text is read as what it says, whether binary refuses it or
not (`any_text_read`).

The comparison is of whole inputs. At a single byte the lexers may well differ, where one of them
refuses; they are compared only as long as both go on, and the end of the input is the end for
both.
-/

set_option autoImplicit false

namespace Ytsaurus

namespace Yson

/-- A byte that starts a binary token is punctuation or one of the six markers. -/
theorem parseBinaryToken_marker {pos : Nat} {b : UInt8} {x : List UInt8} {r : Token × Nat}
    (h : parseBinaryToken pos (b :: x) = .ok r) :
    (∃ t : Token, t.lead = some b) ∨ b ∈ ([0x01, 0x02, 0x03, 0x04, 0x05, 0x06] : List UInt8) := by
  obtain ⟨p, hp, _⟩ := ExceptList.map_eq_ok.mp h
  unfold parseBinaryPayload at hp
  split at hp
  case h_7 =>
    cases hpunct : punctuation b with
    | none =>
      rw [hpunct] at hp
      cases hp
    | some t => exact .inl ⟨t, punctuation_eq_some.mp hpunct⟩
  all_goals exact .inr (by simp)

/-- What text passes over starts no binary token. -/
theorem parseBinaryToken_significant {pos : Nat} {b : UInt8} {x : List UInt8} {r : Token × Nat}
    (h : parseBinaryToken pos (b :: x) = .ok r) : isAsciiWhitespace b = false ∧ b ≠ 0x2F := by
  rcases parseBinaryToken_marker h with ⟨t, ht⟩ | hmarker
  · exact lead_significant ht
  · simp only [List.mem_cons, List.not_mem_nil, or_false] at hmarker
    rcases hmarker with rfl | rfl | rfl | rfl | rfl | rfl <;> decide

variable [FloatText]

/-- Text has no token for a binary marker. -/
theorem parseTextToken_marker {b : UInt8}
    (h : b ∈ ([0x01, 0x02, 0x03, 0x04, 0x05, 0x06] : List UInt8)) (pos : Nat) (x : List UInt8) :
    parseTextToken pos (b :: x) = .error (.invalidMarker b pos) := by
  simp only [List.mem_cons, List.not_mem_nil, or_false] at h
  rcases h with rfl | rfl | rfl | rfl | rfl | rfl <;> rfl

/-- **Two cursors at one byte**: what both read is the same token, and they stay together. -/
theorem nextToken_formats {rest : List UInt8} {pos pos' : Nat} {t u : Token}
    {it it' : YsonIterator} (hbinary : nextToken ⟨rest, pos, true⟩ = .ok (t, it))
    (htext : nextToken ⟨rest, pos', false⟩ = .ok (u, it')) :
    t = u ∧ ∃ more p p', it = ⟨more, p, true⟩ ∧ it' = ⟨more, p', false⟩ := by
  obtain ⟨r, hparse, _⟩ := ExceptList.map_eq_ok.mp hbinary
  cases rest with
  | nil => cases hparse
  | cons b x =>
    have hsig := parseBinaryToken_significant hparse
    have hskip := skipIgnored_significant hsig.1 hsig.2 x
    rcases parseBinaryToken_marker hparse with ⟨v, hv⟩ | hmarker
    · -- punctuation is punctuation in both
      have hbinary' := nextToken_of_lead (by rw [hskip pos true]) hv
      have htext' := nextToken_of_lead (by rw [hskip pos' false]) hv
      rw [hskip] at hbinary' htext'
      cases hbinary.symm.trans hbinary'
      cases htext.symm.trans htext'
      exact ⟨rfl, x, _, _, rfl, rfl⟩
    · -- text does not pass over a marker, and stops at it
      obtain ⟨r', hparse', _⟩ := ExceptList.map_eq_ok.mp htext
      rw [hskip] at hparse'
      cases (parseTextToken_marker hmarker pos' x).symm.trans hparse'

/-- Text is not at its end where binary reads on. -/
theorem not_exhausted_text {rest : List UInt8} {pos pos' : Nat} {r : Token × YsonIterator}
    (h : nextToken ⟨rest, pos, true⟩ = .ok r) :
    ¬ (⟨rest, pos', false⟩ : YsonIterator).Exhausted := by
  obtain ⟨p, hparse, _⟩ := ExceptList.map_eq_ok.mp h
  cases rest with
  | nil => cases hparse
  | cons b x =>
    have hsig := parseBinaryToken_significant hparse
    unfold YsonIterator.Exhausted
    rw [skipIgnored_significant hsig.1 hsig.2]
    exact List.cons_ne_nil b x

/-- **The two token streams of an input are one.** -/
theorem lexes_formats {rest : List UInt8} {pos pos' : Nat} {ts us : List Token}
    {it it' : YsonIterator} (hbinary : Lexes ⟨rest, pos, true⟩ ts it)
    (htext : Lexes ⟨rest, pos', false⟩ us it') (hend : it.Exhausted) (hend' : it'.Exhausted) :
    ts = us := by
  induction ts generalizing rest pos pos' us with
  | nil =>
    -- binary has read all bytes, and text finds none
    cases Lexes.nil_iff.mp hbinary
    have hempty : rest = [] := hend
    subst hempty
    cases us with
    | nil => rfl
    | cons u us =>
      obtain ⟨_, hnext, _⟩ := Lexes.cons_iff.mp htext
      cases hnext
  | cons t ts ih =>
    obtain ⟨it₁, hnext, hrun⟩ := Lexes.cons_iff.mp hbinary
    cases us with
    | nil =>
      cases Lexes.nil_iff.mp htext
      exact absurd hend' (not_exhausted_text hnext)
    | cons u us =>
      obtain ⟨it₂, hnext', hrun'⟩ := Lexes.cons_iff.mp htext
      obtain ⟨rfl, more, p, p', rfl, rfl⟩ := nextToken_formats hnext hnext'
      rw [ih hrun hrun']

theorem spells_formats {bytes : List UInt8} {ts us : List Token}
    (hbinary : Spells bytes .binary ts) (htext : Spells bytes .text us) : ts = us := by
  obtain ⟨it, hrun, hend⟩ := hbinary
  obtain ⟨it', hrun', hend'⟩ := htext
  exact lexes_formats hrun hrun' hend hend'

/-- **The formats are unambiguous**: bytes that are a value in both are the same value in both. -/
theorem fromSlice_formats {bytes : List UInt8} {v w : YsonValue}
    (hbinary : YsonValue.fromSlice bytes .binary = .ok v)
    (htext : YsonValue.fromSlice bytes .text = .ok w) : v = w := by
  obtain ⟨d, hspells, _, hvalue⟩ := YsonValue.fromSlice_ok_iff.mp hbinary
  obtain ⟨d', hspells', _, hvalue'⟩ := YsonValue.fromSlice_ok_iff.mp htext
  have htoks := spells_formats hspells hspells'
  obtain ⟨rfl, _⟩ := Doc.toks_inj d d' (congrArg (· ++ []) htoks)
  cases hvalue.symm.trans hvalue'
  rfl

end Yson

/-! ## `Value::Any` -/

namespace Client

open Yson

variable [FloatText]

/-- **A text payload is read as what it says**: binary, which is tried first, refuses it or
reads the same value. -/
theorem any_text_read {bytes : List UInt8} {w : YsonValue}
    (htext : YsonValue.fromSlice bytes .text = .ok w) :
    (∀ v, YsonValue.fromSlice bytes .binary = .ok v → v = w) ∧
    valueToYson (.any bytes) = .ok w := by
  refine ⟨fun v hbinary => fromSlice_formats hbinary htext, ?_⟩
  show anyToYson bytes = .ok w
  unfold anyToYson
  cases hbinary : YsonValue.fromSlice bytes .binary with
  | ok v =>
    rw [fromSlice_formats hbinary htext]
  | error e =>
    rw [htext]

omit [FloatText] in
theorem any_text_read_empty : ∃ w,
    (∀ v, @YsonValue.fromSlice plainFloatText (ascii "[#;[]]") .binary = .ok v → v = w) ∧
    @valueToYson plainFloatText (.any (ascii "[#;[]]")) = .ok w := by
  obtain ⟨w, hw⟩ := ExceptList.exists_ok (x := @YsonValue.fromSlice plainFloatText
    (ascii "[#;[]]") .text) (by decide +kernel)
  exact ⟨w, @any_text_read plainFloatText _ _ hw⟩

end Client

end Ytsaurus
