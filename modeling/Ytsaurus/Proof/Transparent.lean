import Ytsaurus.Proof.Consumed
import Ytsaurus.Proof.Scalars
import Ytsaurus.Proof.Shift
import Ytsaurus.Proof.Spells
import Ytsaurus.Proof.TextExtend

/-!
# `Proof/Transparent.lean` — attributes in front of a typed value

Every entry point of the deserializer but that of a type which asks for attributes begins with
`skip_attributes`, and goes on with a look at the next byte. So such a type is decoded from the
value behind a block as from the value alone, only further into the input.

The result has two parts. That the block changes nothing but the place of the lexer holds of
every body, whatever its bytes are: `SkipsBlock` says of a seed that it makes the same of a state
and of the state behind the block, and `Proof/Shift.lean` does the rest. That a decode which succeeds
ends at the end of the body is a property of the decode alone, and it fails where a struct with
defaults is read from a list that is too short (`defaults_leave_bracket`); it is proved where
type and body are `aligned` (`Proof/Consumed.lean`).

A type that asks for attributes itself is not in the statement: it reads the block. Stacked blocks
are not either: one block is passed over, and then the value is looked at.
-/

set_option autoImplicit false

namespace Ytsaurus.Yson

variable {α : Type} [FloatText]

namespace De

/-! ## Entry points that skip attributes -/

/-- What follows looks at the next byte first. -/
def Peeks (rest : De α) : Prop :=
  ∃ k : UInt8 → De α, ∀ de, de.isReadingAttributes = false → rest de = (De.peekByte >>= k) de

/-- No attribute block comes next. -/
def NoBlock (de : Deserializer) : Prop := ∀ de', De.peekByte de ≠ .ok (0x3C, de')

/-- A seed for which attributes in front of a value are not there. -/
def SkipsBlock (seed : De α) : Prop :=
  ∀ de de₁ : Deserializer, de.isReadingAttributes = false → de₁.isReadingAttributes = false →
    skipAttributes de = .ok ((), de₁) → NoBlock de₁ → seed de = seed de₁

/-- Skipping where there is no block, and then looking at the next byte, is looking at it. -/
theorem skip_peeks {rest : De α} (hrest : Peeks rest) {de : Deserializer}
    (hplain : de.isReadingAttributes = false) (hblock : NoBlock de) :
    (skipAttributes >>= fun _ => rest) de = rest de := by
  obtain ⟨k, hk⟩ := hrest
  cases hpeek : De.peekByte de with
  | error e =>
    rw [hk de hplain, StateExcept.bind_error hpeek]
    exact StateExcept.bind_error (StateExcept.bind_error hpeek)
  | ok r =>
    obtain ⟨b, de'⟩ := r
    have hb : b ≠ 0x3C := by
      rintro rfl
      exact hblock de' hpeek
    have hskip : skipAttributes de = .ok ((), de') := by
      rw [skipAttributes, StateExcept.bind_ok hpeek, StateExcept.ite_apply, if_neg hb]
      rfl
    cases peekByte_ok hpeek
    have hagain : De.peekByte (de.withLexer de.lexer.skipIgnored)
        = .ok (b, de.withLexer de.lexer.skipIgnored) := by
      obtain ⟨⟨c, it⟩, hc, heq⟩ := ExceptList.map_eq_ok.mp hpeek
      cases heq
      refine ExceptList.map_eq_ok.mpr ⟨(b, de.lexer.skipIgnored), ?_, rfl⟩
      rw [withLexer_lexer, peekByte_skipIgnored]
      exact hc
    rw [StateExcept.bind_ok hskip, hk de hplain, StateExcept.bind_ok hpeek,
      hk (de.withLexer de.lexer.skipIgnored) hplain, StateExcept.bind_ok hagain]

/-- A seed that is in effect `skip_attributes` and then a look at the next byte. -/
theorem skipsBlock_of {seed rest : De α} (hrest : Peeks rest)
    (hseed : ∀ de, de.isReadingAttributes = false →
      seed de = (skipAttributes >>= fun _ => rest) de) : SkipsBlock seed := by
  intro de de₁ hplain hplain₁ hskip hblock
  rw [hseed de hplain, hseed de₁ hplain₁, skip_peeks hrest hplain₁ hblock,
    StateExcept.bind_ok hskip]

theorem SkipsBlock.map {β : Type} {seed : De α} (h : SkipsBlock seed) (f : α → β) :
    SkipsBlock (seed >>= fun v => pure (f v)) := by
  intro de de₁ hplain hplain₁ hskip hblock
  rw [StateExcept.bind_apply, StateExcept.bind_apply, h de de₁ hplain hplain₁ hskip hblock]

theorem deserializeSkipping_skips (visitor : Visitor α) :
    SkipsBlock (deserializeSkipping visitor) := by
  have hpeeks : Peeks (deserializeAny visitor) := by
    refine ⟨fun b => if b = 0x3C then visitFlatStruct visitor else do
      visitToken visitor (← De.nextToken), fun de hplain => ?_⟩
    rw [deserializeAny, StateExcept.bind_ok (takeReadingAttributes_plain hplain)]
    rfl
  refine skipsBlock_of hpeeks fun de hplain => ?_
  rw [deserializeSkipping, StateExcept.get_bind, StateExcept.ite_apply,
    if_pos (by rw [hplain]; rfl)]

theorem deserializeOption_skips (visitSome : De α) : SkipsBlock (deserializeOption visitSome) := by
  have hpeeks : Peeks (do
      if (← De.peekByte) = 0x23 then
        let _ ← De.nextToken
        pure none
      else
        let res ← visitSome
        pure (some res) : De (Option α)) := ⟨_, fun _ _ => rfl⟩
  refine skipsBlock_of hpeeks fun de hplain => ?_
  rw [deserializeOption, StateExcept.bind_ok (takeReadingAttributes_plain hplain)]
  rfl

theorem deserializeEnum_skips (visitEnum : Bool → De α) : SkipsBlock (deserializeEnum visitEnum) := by
  have hseed : ∃ k : UInt8 → De α, ∀ de, de.isReadingAttributes = false →
      deserializeEnum visitEnum de = (skipAttributes >>= fun _ => De.peekByte >>= k) de := by
    apply Exists.intro
    intro de hplain
    rw [deserializeEnum, StateExcept.get_bind, StateExcept.ite_apply,
      if_pos (by rw [hplain]; rfl)]
  obtain ⟨k, hseed⟩ := hseed
  exact skipsBlock_of ⟨k, fun _ _ => rfl⟩ hseed

end De

/-! ## Types that do not ask for attributes -/

/-- A struct with an `@` field and `WithAttributes` read the block themselves. -/
def Ty.takesAttributes : Ty → Bool
  | .struct fields => hasAttributeField fields
  | .withAttributes _ _ => true
  | _ => false

open De

variable [FloatCasts]

theorem Ty.decode_skips : ∀ t : Ty, t.takesAttributes = false → SkipsBlock t.decode
  | .unit, _ | .bool, _ | .int _, _ | .f32, _ | .f64, _ | .char, _ | .bytes, _ | .seq _, _
  | .tuple _, _ | .newtypeStruct _, _ | .map _, _ => deserializeSkipping_skips _
  | .str, _ => SkipsBlock.map (deserializeSkipping_skips stringVisitor) Datum.str
  | .option t, _ => SkipsBlock.map (deserializeOption_skips t.decode) optionDatum
  | .struct fields, h => by
    rw [Ty.decode, deserializeStruct_plain h]
    exact deserializeSkipping_skips _
  | .enum variants, _ => deserializeEnum_skips _
  | .withAttributes _ _, h => by cases h

/-! ## A block and a body -/

/-- The bytes of an attribute block and no others. -/
def SpellsBlock (block : List UInt8) (f : YsonFormat) (pairs : List (Nat × List UInt8 × Doc))
    (trail : Nat) : Prop :=
  ∃ it, Lexes (.new block f.isBinary) (blockToks pairs trail) it ∧ it.rest = []

omit [FloatCasts] in
/-- The deserializer at the body, behind the block. -/
theorem skip_block {block body : List UInt8} {f : YsonFormat}
    {pairs : List (Nat × List UInt8 × Doc)} {trail : Nat} (hblock : SpellsBlock block f pairs trail)
    (hdepth : 1 + pairsBlocks pairs ≤ 128) :
    skipAttributes (.fromBytes (block ++ body) f.isBinary)
      = .ok ((), (Deserializer.fromBytes body f.isBinary).shift block.length) := by
  obtain ⟨it, hlex, hend⟩ := hblock
  have hlast : ∀ t, (blockToks pairs trail).getLast? = some t → t.lead.isSome = true := by
    intro t ht
    have hsplit : blockToks pairs trail
        = (.beginAttributes :: (pairsToks pairs ++ seps trail)) ++ [.endAttributes] := by
      simp [blockToks]
    rw [hsplit, List.getLast?_concat] at ht
    cases ht
    rfl
  obtain ⟨n, _, hadvanced⟩ := hlex.advanced
  have hlen := hadvanced.length
  have hpos := hadvanced.pos
  have hbinary := hadvanced.isBinary
  rw [hend] at hlen
  have hroom : 0 + 1 ≤ 128 := Nat.le_of_ble_eq_true rfl
  have hskip := skipAttributes_block (.fromBytes (block ++ body) f.isBinary) hroom hdepth
    (hlex.extend hlast body)
  rw [hskip]
  obtain ⟨rest, pos, isBinary⟩ := it
  simp only [YsonIterator.new] at hlen hpos hbinary
  obtain rfl : rest = [] := hend
  obtain rfl : isBinary = f.isBinary := hbinary
  have hn : pos = block.length := by simpa using hpos.trans hlen
  subst hn
  simp [YsonIterator.extend, YsonIterator.new, YsonIterator.shift, Deserializer.withLexer,
    Deserializer.fromBytes, Deserializer.shift]

omit [FloatCasts] in
theorem exhausted_stops {it : YsonIterator} (h : it.Exhausted) : Stops it :=
  fun _ hnext => not_exhausted_of_nextToken hnext h

/-- **Attributes are transparent to typed decoding**: behind a block a type that does not ask
for attributes is decoded as without it, with the same result and the lexer further on by the
length of the block. Where the body is one document and goes with the type, a success leaves the
lexer at the end of the body. -/
theorem attributes_transparent {t : Ty} (ht : t.takesAttributes = false) {block body : List UInt8}
    {f : YsonFormat} {pairs : List (Nat × List UInt8 × Doc)} {trail : Nat}
    (hblock : SpellsBlock block f pairs trail) (hdepth : 1 + pairsBlocks pairs ≤ 128)
    (hbody : NoBlock (.fromBytes body f.isBinary)) :
    Shifted block.length (t.decode (.fromBytes body f.isBinary))
      (t.decode (.fromBytes (block ++ body) f.isBinary)) ∧
    ∀ (d : Doc) (it : YsonIterator), Lexes (.new body f.isBinary) d.toks it →
      it.Exhausted → t.aligned d = true → ∀ v de,
      t.decode (.fromBytes (block ++ body) f.isBinary) = .ok (v, de) →
      de.lexer = it.shift block.length := by
  have hnoblock : NoBlock ((Deserializer.fromBytes body f.isBinary).shift block.length) := by
    intro de' hpeek
    have hshift := peekByte_shifts (.fromBytes body f.isBinary) block.length
    rw [hpeek] at hshift
    cases hrun : De.peekByte (.fromBytes body f.isBinary) with
    | error e => rw [hrun] at hshift; exact hshift
    | ok r =>
      rw [hrun] at hshift
      obtain ⟨b, de₁⟩ := r
      obtain ⟨rfl, _⟩ := hshift
      exact hbody de₁ hrun
  have hsame : t.decode (.fromBytes (block ++ body) f.isBinary)
      = t.decode ((Deserializer.fromBytes body f.isBinary).shift block.length) :=
    t.decode_skips ht _ _ rfl rfl (skip_block hblock hdepth) hnoblock
  have hshifted := t.decode_shifts (.fromBytes body f.isBinary) block.length
  rw [hsame]
  refine ⟨hshifted, fun d it hlex hend haligned v de hrun => ?_⟩
  rw [hrun] at hshifted
  cases hplain : t.decode (.fromBytes body f.isBinary) with
  | error e => rw [hplain] at hshifted; exact hshifted.elim
  | ok r =>
    obtain ⟨v', de'⟩ := r
    rw [hplain] at hshifted
    obtain ⟨rfl, rfl⟩ := hshifted
    have hready : Ready 128 0 (.fromBytes body f.isBinary) := ⟨rfl, rfl, rfl⟩
    have hstands := t.decode_covers d haligned hready hlex (exhausted_stops hend) _ _ hplain
    exact congrArg (YsonIterator.shift · block.length) hstands.lexer

/-- Casts for inputs in which no float is read from an integer or the other way round. -/
@[reducible] def noFloatCasts : FloatCasts where
  f64OfInt _ := ⟨0⟩
  f32OfInt _ := 0
  f32OfF64 _ := 0

/-- `struct Row { #[serde(default)] a: i32, b: Vec<Option<Row>> }`, two levels of it. -/
def rowOfDefaults : Ty :=
  .struct [(ascii "a", .int .i32, some (.int 0)),
    (ascii "b", .seq (.option (.struct [(ascii "a", .int .i32, some (.int 0)),
      (ascii "b", .seq .unit, none)])), none)]

/-- `{b=[#;{a=1;b=[]}]}`: the default is taken, since the row is read from a map. -/
def rowBody : Doc :=
  .map [(0, ascii "b", .list [(0, .entity),
    (1, .map [(0, ascii "a", .scalar (.int64 1)), (1, ascii "b", .list [] 0)] 0)] 0)] 0

-- Unfolded, `Shifted` at a concrete input is the decode itself.
attribute [local irreducible] Shifted in
omit [FloatText] [FloatCasts] in
/-- A row behind a block that holds a map and a block of its own. -/
theorem attributes_transparent_row :
    Shifted (ascii "<a=<b=1>\x7bc=2\x7d>").length
        (@Ty.decode plainFloatText noFloatCasts rowOfDefaults
          (.fromBytes (ascii "\x7bb=[#;\x7ba=1;b=[]\x7d]\x7d") YsonFormat.text.isBinary))
        (@Ty.decode plainFloatText noFloatCasts rowOfDefaults
          (.fromBytes (ascii "<a=<b=1>\x7bc=2\x7d>" ++ ascii "\x7bb=[#;\x7ba=1;b=[]\x7d]\x7d")
            YsonFormat.text.isBinary)) ∧
      ∃ v de, @Ty.decode plainFloatText noFloatCasts rowOfDefaults
          (.fromBytes (ascii "<a=<b=1>\x7bc=2\x7d>" ++ ascii "\x7bb=[#;\x7ba=1;b=[]\x7d]\x7d")
            YsonFormat.text.isBinary) = .ok (v, de) ∧
        de.lexer = ⟨[], 32, false⟩ := by
  have hblock : @SpellsBlock plainFloatText (ascii "<a=<b=1>\x7bc=2\x7d>") .text
      [(0, ascii "a", .attributed [(0, ascii "b", .scalar (.int64 1))] 0
        (.map [(0, ascii "c", .scalar (.int64 2))] 0))] 0 := by
    have hrun : @De.expectToks plainFloatText (blockToks [(0, ascii "a",
          .attributed [(0, ascii "b", .scalar (.int64 1))] 0
            (.map [(0, ascii "c", .scalar (.int64 2))] 0))] 0)
        (.fromBytes (ascii "<a=<b=1>\x7bc=2\x7d>") false)
        = .ok ((), { Deserializer.fromBytes [] false with lexer := ⟨[], 14, false⟩ }) := by
      decide +kernel
    exact ⟨_, @De.lexes_of_expectToks plainFloatText _ _ _ hrun, rfl⟩
  have hbody : De.NoBlock (.fromBytes (ascii "\x7bb=[#;\x7ba=1;b=[]\x7d]\x7d")
      YsonFormat.text.isBinary) := by
    intro de' hpeek
    have hfirst : (De.peekByte (.fromBytes (ascii "\x7bb=[#;\x7ba=1;b=[]\x7d]\x7d") false)).map
        Prod.fst = .ok 0x7B := by
      decide +kernel
    rw [show YsonFormat.text.isBinary = false from rfl] at hpeek
    rw [hpeek] at hfirst
    cases hfirst
  have hlexes : @De.expectToks plainFloatText rowBody.toks
      (.fromBytes (ascii "\x7bb=[#;\x7ba=1;b=[]\x7d]\x7d") false)
      = .ok ((), { Deserializer.fromBytes [] false with lexer := ⟨[], 18, false⟩ }) := by
    decide +kernel
  obtain ⟨hshifted, hend⟩ := @attributes_transparent plainFloatText noFloatCasts rowOfDefaults rfl
    _ _ .text _ _ hblock (by decide) hbody
  have hok : ∃ r, @Ty.decode plainFloatText noFloatCasts rowOfDefaults
      (.fromBytes (ascii "<a=<b=1>\x7bc=2\x7d>" ++ ascii "\x7bb=[#;\x7ba=1;b=[]\x7d]\x7d")
        YsonFormat.text.isBinary) = .ok r := ExceptList.exists_ok (by decide +kernel)
  obtain ⟨r, hrun⟩ := hok
  exact ⟨hshifted, r.1, r.2, hrun, hend rowBody ⟨[], 18, false⟩
    (@De.lexes_of_expectToks plainFloatText _ _ _ hlexes) rfl (by decide +kernel) r.1 r.2 hrun⟩

/-- `struct S { #[serde(default)] f1: i32, #[serde(default)] f2: String }` in `enum E { A(S) }`. -/
def enumOfDefaults : Ty :=
  .enum [(ascii "A", .newtype (.struct
    [(ascii "f1", .int .i32, some (.int 0)), (ascii "f2", .str, some (.str []))]))]

omit [FloatText] [FloatCasts] in
/-- A struct that is asked for its second field behind its list: the decode succeeds and
leaves the bracket of the map. -/
theorem defaults_leave_bracket :
    (@Ty.decode plainFloatText noFloatCasts enumOfDefaults
      (.fromBytes (ascii "<a=1>" ++ ascii "\x7bA=[];B=\x7b\x7d\x7d") false)).map
      (fun r => r.2.lexer) = .ok ⟨ascii "\x7d", 15, false⟩ := by
  decide +kernel

end Ytsaurus.Yson
