import Ytsaurus.Proof.Scalars
import Ytsaurus.Proof.ScanStable
import Ytsaurus.Proof.Value

/-!
# `Proof/Agree.lean` — the scanner, the decoder and the documented grammar

Three readers of one input. The scanner delimits documents with any number of separators;
the decoder takes one separator at a time and counts a level of nesting more for a
container behind an attribute block (`scanned_decodes_iff`). What the decoder accepts it
has read as the one document the input spells (`decoded_document`), which need not be one
the grammar in the comments derives.

The comment above the scanner promises that whatever it accepts can be decoded as well. The
theorem says when that is so, for every input the scanner has delimited: no two `;` in a row in a
list or a plain map, and the decoder's own count of levels within its limit. Maps that carry both
`$value` and plain keys are set aside (`Doc.OneBody`); they are refused for what they say and not
for how they are written. Attribute blocks are read by a loop that steps over any number of `;`, so
nothing is asked of them.

`Doc.Grammatical` is the documented grammar, as a predicate on documents. It is narrower than what
is read: separators may be missing or stand in front, and blocks may be stacked. The theorem about
the decoder therefore speaks of documents, and the three inputs of `accepts_ungrammatical` show
that the grammar itself would not do.
-/

set_option autoImplicit false

namespace Ytsaurus.Yson

variable [FloatText]

/-- **What the scanner delimits is decoded exactly when no two `;` stand in a row in a list or
a plain map and the decoder's count of levels stays within its limit**, maps with two bodies
aside. -/
theorem scanned_decodes_iff {bytes : List UInt8} {f : YsonFormat} {len : Nat}
    (h : scanValue bytes f = .ok (.complete len)) :
    ∃ d : Doc, Spells (bytes.take len) f d.toks ∧
      (d.OneBody → ((∃ v, YsonValue.fromSlice (bytes.take len) f = .ok v) ↔
        d.SingleSep ∧ d.levels ≤ depthLimit)) := by
  obtain ⟨_, _, d, _, hspells⟩ := scanValue_take h
  refine ⟨d, hspells, fun hone => ?_⟩
  have hvalue : (∃ v, d.value depthLimit 0 = .ok v) ↔ d.levels ≤ depthLimit := by
    rw [d.value_ok_iff (Nat.zero_le _), Doc.Fits, Nat.zero_add]
    exact and_iff_left hone
  constructor
  · rintro ⟨v, hv⟩
    obtain ⟨d', hspells', hsep, hv'⟩ := YsonValue.fromSlice_ok_iff.mp hv
    obtain rfl := hspells.unique_doc hspells'
    exact ⟨hsep, hvalue.mp ⟨v, hv'⟩⟩
  · rintro ⟨hsep, hlevels⟩
    obtain ⟨v, hv⟩ := hvalue.mpr hlevels
    exact ⟨v, YsonValue.fromSlice_ok_iff.mpr ⟨d, hspells, hsep, hv⟩⟩

omit [FloatText] in
/-- A document with attributes in a list, delimited and decoded. -/
theorem scanned_decodes_attributed_list :
    ∃ d : Doc, @Spells plainFloatText ((ascii "[<a=1>x;y]").take 10) .text d.toks ∧
      (d.OneBody →
        ((∃ v, @YsonValue.fromSlice plainFloatText ((ascii "[<a=1>x;y]").take 10) .text = .ok v) ↔
          d.SingleSep ∧ d.levels ≤ depthLimit)) :=
  @scanned_decodes_iff plainFloatText _ _ _ (by decide +kernel)

omit [FloatText] in
/-- The scanner steps over both separators, the decoder over one. -/
theorem scanned_double_separator :
    @scanValue plainFloatText (ascii "[1;;2]") .text = .ok (.complete 6) ∧
      ¬ ∃ v, @YsonValue.fromSlice plainFloatText ((ascii "[1;;2]").take 6) .text = .ok v := by
  exact ⟨by decide +kernel, ExceptList.not_exists_ok (by decide +kernel)⟩

/-! ## The documented grammar -/

mutual

/-- Derived from `<tree> = [ <attributes> ], <object>`, where the items of a fragment are
each followed by `;` and only the last `;` is optional. -/
def Doc.Grammatical : Doc → Prop
  | .scalar _ => True
  | .entity => True
  | .list items trail => itemsGrammatical true items ∧ trail ≤ 1 ∧ (items = [] → trail = 0)
  | .map pairs trail => pairsGrammatical true pairs ∧ trail ≤ 1 ∧ (pairs = [] → trail = 0)
  | .attributed pairs trail body =>
    (pairsGrammatical true pairs ∧ trail ≤ 1 ∧ (pairs = [] → trail = 0)) ∧
      Doc.IsObject body ∧ body.Grammatical

/-- The items of a fragment; no `;` stands before the first. -/
def itemsGrammatical : Bool → List (Nat × Doc) → Prop
  | _, [] => True
  | first, (n, d) :: items =>
    n = (if first then 0 else 1) ∧ d.Grammatical ∧ itemsGrammatical false items

def pairsGrammatical : Bool → List (Nat × List UInt8 × Doc) → Prop
  | _, [] => True
  | first, (n, _, d) :: pairs =>
    n = (if first then 0 else 1) ∧ d.Grammatical ∧ pairsGrammatical false pairs

/-- A value without an attribute block of its own. -/
def Doc.IsObject : Doc → Prop
  | .attributed _ _ _ => False
  | _ => True

end

/-- **What is accepted is the text of one document, and is read as that document**: attribute
blocks in front of an object, entries with at most one `;` between them in lists and plain
maps, pairs with a string key and `=`. -/
theorem decoded_document {bytes : List UInt8} {f : YsonFormat} {v : YsonValue}
    (h : YsonValue.fromSlice bytes f = .ok v) :
    ∃ d : Doc, (Spells bytes f d.toks ∧ ∀ d' : Doc, Spells bytes f d'.toks → d' = d) ∧
      d.SingleSep ∧ d.value depthLimit 0 = .ok v := by
  obtain ⟨d, hspells, hsep, hvalue⟩ := YsonValue.fromSlice_ok_iff.mp h
  exact ⟨d, ⟨hspells, fun d' hd' => hd'.unique_doc hspells⟩, hsep, hvalue⟩

omit [FloatText] in
theorem decoded_document_stacked :
    ∃ (v : YsonValue) (d : Doc),
      (@Spells plainFloatText (ascii "<a=1><b=2>[;x y]") .text d.toks ∧
        ∀ d' : Doc, @Spells plainFloatText (ascii "<a=1><b=2>[;x y]") .text d'.toks → d' = d) ∧
      d.SingleSep ∧ d.value depthLimit 0 = .ok v := by
  obtain ⟨v, hv⟩ := ExceptList.exists_ok (x := @YsonValue.fromSlice plainFloatText
    (ascii "<a=1><b=2>[;x y]") .text) (by decide +kernel)
  exact ⟨v, @decoded_document plainFloatText _ _ _ hv⟩

/-- The codec reads these bytes, and the grammar does not derive them. -/
def AcceptsUngrammatical (bytes : List UInt8) : Prop :=
  (∃ v, @YsonValue.fromSlice plainFloatText bytes .text = .ok v) ∧
    ¬ ∃ d : Doc, @Spells plainFloatText bytes .text d.toks ∧ d.Grammatical

omit [FloatText] in
/-- No separator between items, one in front of them, two attribute blocks. -/
theorem accepts_ungrammatical :
    AcceptsUngrammatical (ascii "[1 2]") ∧ AcceptsUngrammatical (ascii "[;1]") ∧
      AcceptsUngrammatical (ascii "<a=1><b=2>x") := by
  let _ : FloatText := plainFloatText
  have hrefuse : ∀ {bytes : List UInt8} {d : Doc}, Spells bytes .text d.toks → ¬ d.Grammatical →
      ¬ ∃ d' : Doc, Spells bytes .text d'.toks ∧ d'.Grammatical := fun h hd ⟨d', h', hd'⟩ =>
    hd (h.unique_doc h' ▸ hd')
  refine ⟨?_, ?_, ?_⟩
  · refine ⟨ExceptList.exists_ok (by decide +kernel), hrefuse
      (d := .list [(0, .scalar (.int64 1)), (0, .scalar (.int64 2))] 0) (by decide +kernel) ?_⟩
    simp [Doc.Grammatical, itemsGrammatical]
  · refine ⟨ExceptList.exists_ok (by decide +kernel), hrefuse (d := .list [(1, .scalar (.int64 1))] 0)
      (by decide +kernel) ?_⟩
    simp [Doc.Grammatical, itemsGrammatical]
  · refine ⟨ExceptList.exists_ok (by decide +kernel), hrefuse (d := .attributed
      [(0, ascii "a", .scalar (.int64 1))] 0 (.attributed [(0, ascii "b", .scalar (.int64 2))] 0
        (.scalar (.string (ascii "x"))))) (by decide +kernel) ?_⟩
    simp [Doc.Grammatical, Doc.IsObject]

end Ytsaurus.Yson
