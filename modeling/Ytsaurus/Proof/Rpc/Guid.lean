import Ytsaurus.Rpc.Guid

/-!
# `Proof/Rpc/Guid.lean` — the text form of a GUID

Printing and parsing go through the four words, so the text of a GUID is read back as it
(`fromText_toText`). What the parser takes is a little more than what the text form is: each
field goes to the integer parser of the standard library, which takes a plus sign in front of
the digits (`fromText_iff`).

A GUID is printed from its last word to its first, each word without leading zeros, so the fields
of a text have no fixed width; the parser bounds them at eight characters and lets the integer
parser decide about the rest. `word_iff` says what one field may be, and `fromText_iff` what a text
is: four such fields, in that order. The loop of the source counts indices down as it goes, and
`fillWords_iff` is the one place that deals with it.

`Denotes` is the text form as the comments have it, and says nothing of the parser. The two agree on
every text in which no field carries a sign (`IsSigned`), and on no other: with a sign a text is
taken that denotes nothing (`fromText_of_isSigned`).
-/

set_option autoImplicit false

namespace Ytsaurus
namespace Rpc
namespace Guid

open LittleEndian
open Hex (IsDigits value withoutPlus)

/-! ## Words -/

theorem ext_bytes {g g' : Guid} (h : g.bytes = g'.bytes) : g = g' := by
  cases g
  cases g'
  cases h
  rfl

theorem ext_parts {p q : Parts} (h0 : p.get 0 = q.get 0) (h1 : p.get 1 = q.get 1)
    (h2 : p.get 2 = q.get 2) (h3 : p.get 3 = q.get 3) : p = q := by
  apply Vector.ext
  intro i hi
  have hplace : i = 0 ∨ i = 1 ∨ i = 2 ∨ i = 3 := by omega
  rcases hplace with rfl | rfl | rfl | rfl
  · exact h0
  · exact h1
  · exact h2
  · exact h3

/-- The words are cut where they were joined. -/
theorem parts_fromParts (parts : Parts) : (fromParts parts).parts = parts := by
  have hlength : ∀ w : BitVec 32, (toLeBytes 4 w).length = 4 := toLeBytes_length 4
  have hword : ∀ w : BitVec 32, fromLeBytes 32 (toLeBytes 4 w) = w := fromLeBytes_toLeBytes rfl
  have hcut : ∀ a b c d : List UInt8, a.length = 4 → b.length = 4 → c.length = 4 → d.length = 4 →
      ((a ++ b ++ c ++ d).drop 0).take 4 = a ∧ ((a ++ b ++ c ++ d).drop 4).take 4 = b ∧
      ((a ++ b ++ c ++ d).drop 8).take 4 = c ∧ ((a ++ b ++ c ++ d).drop 12).take 4 = d := by
    intro a b c d ha hb hc hd
    have hfar : a.drop 12 = [] := List.drop_eq_nil_of_le (by omega)
    have hnear : b.drop 8 = [] := List.drop_eq_nil_of_le (by omega)
    have hwhole : d.take 4 = d := List.take_of_length_le (Nat.le_of_eq hd)
    simp [List.drop_append, List.take_append, ha, hb, hc, hfar, hnear, hwhole]
  obtain ⟨h0, h1, h2, h3⟩ := hcut _ _ _ _ (hlength parts[0]) (hlength parts[1]) (hlength parts[2])
    (hlength parts[3])
  have hparts : (fromParts parts).parts = #v[parts[0], parts[1], parts[2], parts[3]] := by
    show #v[fromLeBytes 32 _, fromLeBytes 32 _, fromLeBytes 32 _, fromLeBytes 32 _] = _
    simp only [fromParts, Nat.zero_mul, Nat.one_mul, Nat.reduceMul, h0, h1, h2, h3, hword]
  rw [hparts]
  exact ext_parts rfl rfl rfl rfl

theorem fromParts_parts (guid : Guid) : fromParts guid.parts = guid := by
  apply ext_bytes
  have hword : ∀ index < 4,
      toLeBytes 4 (guid.part index) = (guid.bytes.drop (index * 4)).take 4 := by
    intro index hindex
    apply toLeBytes_fromLeBytes rfl
    rw [List.length_take, List.length_drop, guid.length_eq]
    omega
  show toLeBytes 4 (guid.part 0) ++ toLeBytes 4 (guid.part 1) ++ toLeBytes 4 (guid.part 2) ++
    toLeBytes 4 (guid.part 3) = guid.bytes
  rw [hword 0 (by decide), hword 1 (by decide), hword 2 (by decide), hword 3 (by decide)]
  have hlast : (guid.bytes.drop (3 * 4)).take 4 = guid.bytes.drop 12 := by
    apply List.take_of_length_le
    rw [List.length_drop, guid.length_eq]
  rw [hlast, List.append_assoc, List.append_assoc]
  show guid.bytes.take 4 ++ ((guid.bytes.drop 4).take 4 ++ ((guid.bytes.drop 8).take 4 ++ _)) = _
  have htwelve : guid.bytes.drop 12 = (guid.bytes.drop 8).drop 4 := by rw [List.drop_drop]
  have height : guid.bytes.drop 8 = (guid.bytes.drop 4).drop 4 := by rw [List.drop_drop]
  rw [htwelve, List.take_append_drop, height, List.take_append_drop, List.take_append_drop]

/-! ## Fields -/

theorem isDigits_head {field : List Char} (h : IsDigits field) : field.head? ≠ some '+' := by
  intro hhead
  exact absurd (List.mem_of_mem_head? hhead) h.not_mem.2

theorem byteLen_digits {text : List Char} (h : ∀ c ∈ text, (IpAddr.hexDigit c).isSome) :
    byteLen text = text.length := by
  induction text with
  | nil => rfl
  | cons c text ih =>
    obtain ⟨d, hd⟩ := Option.isSome_iff_exists.mp (h c List.mem_cons_self)
    have hrest := ih fun b hb => h b (List.mem_cons_of_mem c hb)
    unfold byteLen at hrest ⊢
    rw [List.map_cons, List.sum_cons, hrest, (Hex.hexDigit_spec hd).2.1, List.length_cons,
      Nat.add_comm]

theorem byteLen_field {field : List Char} (h : IsDigits (withoutPlus field)) :
    byteLen field = field.length := by
  have hrest := byteLen_digits h.2
  rcases Hex.withoutPlus_cases field with hplus | hsame
  · rw [hplus]
    unfold byteLen at hrest ⊢
    rw [List.map_cons, List.sum_cons, hrest, List.length_cons, Nat.add_comm]
    rfl
  · rw [← hsame] at hrest
    exact hrest

theorem withoutPlus_length_le (field : List Char) : (withoutPlus field).length ≤ field.length := by
  rcases Hex.withoutPlus_cases field with hplus | hsame
  · have hlength := congrArg List.length hplus
    rw [List.length_cons] at hlength
    omega
  · exact Nat.le_of_eq (congrArg List.length hsame).symm

/-- **A field that is taken**: at most eight bytes, digits behind at most one plus sign. -/
theorem word_iff {field : List Char} {w : BitVec 32} :
    word field = some w ↔
      IsDigits (withoutPlus field) ∧ field.length ≤ 8 ∧ w.toNat = value (withoutPlus field) := by
  unfold word
  by_cases hlong : field = [] ∨ byteLen field > 8
  · rw [if_pos hlong]
    constructor
    · intro h
      cases h
    · rintro ⟨hdigits, hlen, _⟩
      rcases hlong with rfl | hlong
      · exact absurd rfl hdigits.1
      · rw [byteLen_field hdigits] at hlong
        omega
  · rw [if_neg hlong, Option.map_eq_some_iff]
    constructor
    · rintro ⟨v, hv, rfl⟩
      obtain ⟨hdigits, rfl, hbound⟩ := (Hex.fromStrRadix_iff (by decide)).mp hv
      refine ⟨hdigits, ?_, ?_⟩
      · rw [← byteLen_field hdigits]
        exact Nat.not_lt.mp (not_or.mp hlong).2
      · exact Nat.mod_eq_of_lt hbound
    · rintro ⟨hdigits, hlen, hw⟩
      have hbound : value (withoutPlus field) < 0x100000000 := by
        rw [← hw]
        exact w.isLt
      refine ⟨_, (Hex.fromStrRadix_iff (by decide)).mpr ⟨hdigits, rfl, hbound⟩, ?_⟩
      rw [← hw]
      exact BitVec.eq_of_toNat_eq (Nat.mod_eq_of_lt w.isLt)

/-! ## The loop -/

theorem fillWords_cons {field : List Char} {fields : List (List Char)} {index : Nat}
    {words p : Parts} : fillWords (field :: fields) index words = some p ↔
      ∃ (_ : index < 4) (w : BitVec 32), word field = some w ∧
        fillWords fields (index + 1) (words.setIfInBounds (3 - index) w) = some p := by
  have hset : ∀ (_ : index < 4) (w : BitVec 32),
      words.set (3 - index) w = words.setIfInBounds (3 - index) w := by
    intro hindex w
    apply Vector.ext
    intro i hi
    rw [Vector.getElem_set, Vector.getElem_setIfInBounds]
  rw [fillWords]
  constructor
  · intro h
    split at h
    · rename_i hindex
      split at h
      · cases h
      · rename_i w hw
        rw [hset hindex] at h
        exact ⟨hindex, w, hw, h⟩
    · cases h
  · rintro ⟨hindex, w, hw, h⟩
    rw [dif_pos hindex, hw]
    dsimp only
    rw [hset hindex]
    exact h

theorem fillWords_nil {seen : Nat} {words p : Parts} :
    fillWords [] seen words = some p ↔ seen = 4 ∧ words = p := by
  rw [fillWords]
  by_cases h : seen = 4
  · rw [if_pos h, Option.some.injEq]
    exact ⟨fun hp => ⟨h, hp⟩, fun hp => hp.2⟩
  · rw [if_neg h]
    exact ⟨(nomatch ·), fun hp => absurd hp.1 h⟩

theorem filled (words : Parts) (a b c d : BitVec 32) :
    (((words.setIfInBounds 3 d).setIfInBounds 2 c).setIfInBounds 1 b).setIfInBounds 0 a =
      #v[a, b, c, d] := by
  apply Vector.ext
  intro i hi
  have hplace : i = 0 ∨ i = 1 ∨ i = 2 ∨ i = 3 := by omega
  rcases hplace with rfl | rfl | rfl | rfl
  · simp
  · simp
  · simp
  · simp

/-- Four fields fill the words from the last one down. -/
theorem fillWords_iff {fields : List (List Char)} {words p : Parts} :
    fillWords fields 0 words = some p ↔ ∃ d c b a, fields = [d, c, b, a] ∧
      word a = some (p.get 0) ∧ word b = some (p.get 1) ∧ word c = some (p.get 2) ∧
      word d = some (p.get 3) := by
  constructor
  · intro h
    cases fields with
    | nil => exact absurd (fillWords_nil.mp h).1 (by decide)
    | cons d fields =>
    obtain ⟨_, wd, hd, h⟩ := fillWords_cons.mp h
    cases fields with
    | nil => exact absurd (fillWords_nil.mp h).1 (by decide)
    | cons c fields =>
    obtain ⟨_, wc, hc, h⟩ := fillWords_cons.mp h
    cases fields with
    | nil => exact absurd (fillWords_nil.mp h).1 (by decide)
    | cons b fields =>
    obtain ⟨_, wb, hb, h⟩ := fillWords_cons.mp h
    cases fields with
    | nil => exact absurd (fillWords_nil.mp h).1 (by decide)
    | cons a fields =>
    obtain ⟨_, wa, ha, h⟩ := fillWords_cons.mp h
    cases fields with
    | nil =>
      have heq : #v[wa, wb, wc, wd] = p :=
        (filled words wa wb wc wd).symm.trans (fillWords_nil.mp h).2
      subst heq
      exact ⟨d, c, b, a, rfl, ha, hb, hc, hd⟩
    | cons e fields =>
      obtain ⟨hindex, _⟩ := fillWords_cons.mp h
      omega
  · rintro ⟨d, c, b, a, rfl, ha, hb, hc, hd⟩
    refine fillWords_cons.mpr ⟨by decide, _, hd, fillWords_cons.mpr ⟨by decide, _, hc,
      fillWords_cons.mpr ⟨by decide, _, hb, fillWords_cons.mpr ⟨by decide, _, ha,
        fillWords_nil.mpr ⟨rfl, ?_⟩⟩⟩⟩⟩
    exact (filled words _ _ _ _).trans (ext_parts rfl rfl rfl rfl)

/-- **Which texts are read, and as what.** -/
theorem fromText_iff {text : List Char} {guid : Guid} :
    fromText text = some guid ↔ ∃ d c b a, Text.split '-' text = [d, c, b, a] ∧
      word a = some (guid.part 0) ∧ word b = some (guid.part 1) ∧
      word c = some (guid.part 2) ∧ word d = some (guid.part 3) := by
  unfold fromText
  rw [Option.map_eq_some_iff]
  constructor
  · rintro ⟨p, hp, rfl⟩
    rw [← parts_fromParts p] at hp
    exact fillWords_iff.mp hp
  · intro h
    exact ⟨guid.parts, fillWords_iff.mpr h, fromParts_parts guid⟩

/-! ## Printing -/

theorem word_lowerHex (w : BitVec 32) : word (lowerHex w) = some w := by
  have hdigits : IsDigits (lowerHex w) := Hex.toDigits_isDigits w.toNat
  have hsame : withoutPlus (lowerHex w) = lowerHex w :=
    Hex.withoutPlus_of_head (isDigits_head hdigits)
  rw [word_iff, hsame]
  refine ⟨hdigits, ?_, (Hex.value_toDigits w.toNat).symm⟩
  exact (Nat.length_toDigits_le_iff (by decide) (by decide)).mpr w.isLt

/-- **The text of a GUID is read back as it.** -/
theorem fromText_toText (guid : Guid) : fromText guid.toText = some guid := by
  have hnone : ∀ w : BitVec 32, '-' ∉ lowerHex w := fun w =>
    (Hex.toDigits_isDigits w.toNat).not_mem.1
  have hsplit : Text.split '-' guid.toText = [lowerHex guid.parts[3], lowerHex guid.parts[2],
      lowerHex guid.parts[1], lowerHex guid.parts[0]] := by
    unfold toText
    rw [Text.split_append, Text.split_append, Text.split_append, Text.split_single (hnone _),
      Text.split_single (hnone _), Text.split_single (hnone _), Text.split_single (hnone _)]
    rfl
  exact fromText_iff.mpr ⟨_, _, _, _, hsplit, word_lowerHex _, word_lowerHex _, word_lowerHex _,
    word_lowerHex _⟩

/-! ## What the text form is, and what the parser takes -/

/-- One to eight hexadecimal digits. -/
def IsField (field : List Char) : Prop := IsDigits field ∧ field.length ≤ 8

/-- The text is four such fields with dashes between them, and they are the words of the GUID
in the order in which they are printed. -/
def Denotes (text : List Char) (guid : Guid) : Prop :=
  ∃ d c b a, Text.split '-' text = [d, c, b, a] ∧ (∀ field ∈ [d, c, b, a], IsField field) ∧
    (guid.part 0).toNat = value a ∧ (guid.part 1).toNat = value b ∧
    (guid.part 2).toNat = value c ∧ (guid.part 3).toNat = value d

/-- Four fields of at most eight characters that are digits behind at most one plus sign, and
one of them has the sign. -/
def IsSigned (text : List Char) : Prop :=
  (Text.split '-' text).length = 4 ∧
    (∀ field ∈ Text.split '-' text, IsDigits (withoutPlus field) ∧ field.length ≤ 8) ∧
    ∃ field ∈ Text.split '-' text, field.head? = some '+'

/-- A field of the text form is taken for its number. -/
theorem word_of_isField {field : List Char} (h : IsField field) {w : BitVec 32}
    (hw : w.toNat = value field) : word field = some w := by
  rw [word_iff, Hex.withoutPlus_of_head (isDigits_head h.1)]
  exact ⟨h.1, h.2, hw⟩

theorem fromText_of_denotes {text : List Char} {guid : Guid} (h : Denotes text guid) :
    fromText text = some guid := by
  obtain ⟨d, c, b, a, hsplit, hfields, ha, hb, hc, hd⟩ := h
  refine fromText_iff.mpr ⟨d, c, b, a, hsplit, word_of_isField (hfields a (by simp)) ha,
    word_of_isField (hfields b (by simp)) hb, word_of_isField (hfields c (by simp)) hc,
    word_of_isField (hfields d (by simp)) hd⟩

/-- A text that is taken without a plus sign is of the text form. -/
theorem denotes_of_fromText {text : List Char} {guid : Guid} (hsigned : ¬ IsSigned text)
    (h : fromText text = some guid) : Denotes text guid := by
  obtain ⟨d, c, b, a, hsplit, ha, hb, hc, hd⟩ := fromText_iff.mp h
  obtain ⟨ha, hla, hva⟩ := word_iff.mp ha
  obtain ⟨hb, hlb, hvb⟩ := word_iff.mp hb
  obtain ⟨hc, hlc, hvc⟩ := word_iff.mp hc
  obtain ⟨hd, hld, hvd⟩ := word_iff.mp hd
  have hloose : ∀ field ∈ [d, c, b, a], IsDigits (withoutPlus field) ∧ field.length ≤ 8 := by
    simp only [List.forall_mem_cons, List.not_mem_nil, false_implies, implies_true, and_true]
    exact ⟨⟨hd, hld⟩, ⟨hc, hlc⟩, ⟨hb, hlb⟩, ⟨ha, hla⟩⟩
  have hplain : ∀ field ∈ [d, c, b, a], withoutPlus field = field := by
    intro field hmem
    apply Hex.withoutPlus_of_head
    intro hhead
    exact hsigned ⟨by rw [hsplit]; rfl, hsplit ▸ hloose, field, hsplit ▸ hmem, hhead⟩
  refine ⟨d, c, b, a, hsplit, ?_, ?_, ?_, ?_, ?_⟩
  · intro field hmem
    have hboth := hloose field hmem
    rw [hplain field hmem] at hboth
    exact hboth
  · rw [hva, hplain a (by simp)]
  · rw [hvb, hplain b (by simp)]
  · rw [hvc, hplain c (by simp)]
  · rw [hvd, hplain d (by simp)]

/-- With a plus sign, a text is taken that is not of the text form. -/
theorem fromText_of_isSigned {text : List Char} (h : IsSigned text) :
    ∃ guid, fromText text = some guid ∧ ¬ Denotes text guid := by
  obtain ⟨hlength, hloose, field, hmem, hhead⟩ := h
  have hword : ∀ f ∈ Text.split '-' text, ∃ w, word f = some w := by
    intro f hf
    obtain ⟨hdigits, hlen⟩ := hloose f hf
    have hlt : value (withoutPlus f) < 2 ^ 32 := by
      refine Nat.lt_of_lt_of_le (Hex.value_lt hdigits.2) ?_
      rw [show (2 : Nat) ^ 32 = 16 ^ 8 from rfl]
      exact Nat.pow_le_pow_right (by decide) (Nat.le_trans (withoutPlus_length_le f) hlen)
    exact ⟨BitVec.ofNat 32 (value (withoutPlus f)),
      word_iff.mpr ⟨hdigits, hlen, Nat.mod_eq_of_lt hlt⟩⟩
  obtain ⟨d, c, b, a, hsplit⟩ : ∃ d c b a, Text.split '-' text = [d, c, b, a] := by
    generalize Text.split '-' text = fields at hlength
    rcases fields with _ | ⟨d, _ | ⟨c, _ | ⟨b, _ | ⟨a, _ | ⟨e, more⟩⟩⟩⟩⟩ <;>
      simp at hlength ⊢
  rw [hsplit] at hword hmem
  obtain ⟨wd, hd⟩ := hword d (by simp)
  obtain ⟨wc, hc⟩ := hword c (by simp)
  obtain ⟨wb, hb⟩ := hword b (by simp)
  obtain ⟨wa, ha⟩ := hword a (by simp)
  refine ⟨fromParts #v[wa, wb, wc, wd], fromText_iff.mpr ⟨d, c, b, a, hsplit, ?_⟩, ?_⟩
  · have hparts := parts_fromParts #v[wa, wb, wc, wd]
    show word a = some ((fromParts _).parts.get 0) ∧ word b = some ((fromParts _).parts.get 1) ∧
      word c = some ((fromParts _).parts.get 2) ∧ word d = some ((fromParts _).parts.get 3)
    rw [hparts]
    exact ⟨ha, hb, hc, hd⟩
  · rintro ⟨d', c', b', a', hsplit', hfields, _⟩
    rw [hsplit] at hsplit'
    rw [hsplit'] at hmem
    exact isDigits_head (hfields field hmem).1 hhead

/-- **The text form**: every GUID is read back from its text, and a text is read exactly as the
text form says unless one of its fields has a plus sign. -/
theorem text_form (text : List Char) :
    (∀ guid, fromText (toText guid) = some guid) ∧
    ((∀ guid, fromText text = some guid ↔ Denotes text guid) ↔ ¬ IsSigned text) := by
  refine ⟨fromText_toText, ?_, ?_⟩
  · intro h hsigned
    obtain ⟨guid, hread, hnot⟩ := fromText_of_isSigned hsigned
    exact hnot ((h guid).mp hread)
  · intro hsigned guid
    exact ⟨denotes_of_fromText hsigned, fromText_of_denotes⟩

/-- `+1-2-3-4` -/
theorem plus_sign_taken :
    (fromText ['+', '1', '-', '2', '-', '3', '-', '4']).isSome ∧
      ¬ ∃ guid, Denotes ['+', '1', '-', '2', '-', '3', '-', '4'] guid := by
  refine ⟨by decide, ?_⟩
  rintro ⟨guid, d, c, b, a, hsplit, hfields, _⟩
  cases hsplit
  have hfield := (hfields ['+', '1'] List.mem_cons_self).1
  exact Hex.not_isDigits_of_mem List.mem_cons_self rfl hfield

end Guid
end Rpc
end Ytsaurus
