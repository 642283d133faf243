import Ytsaurus.Proof.Records
import Ytsaurus.Yson.Stream

/-!
# `Proof/Stream.lean` — a fragment is read value by value

The streaming deserializer does not split its input: it reads a document, wherever it stands,
and what it makes of the document is its value, as `from_slice` does. Reading a document
leaves everything but the position as it was, the depth counter too; so what holds between two
items is the same before every item (`StandsAt`), and one call of `next_item` is one of three
things: an item, an error, or the end of the input, at which the stream stays.

The theorem is about what was written: encoded values joined by `;`, with perhaps another `;`
behind the last. Each value was read on its own by `from_slice`, and the stream gives the same,
one by one, and nothing more however often it is asked (`calls`, with the depth counter after
each call). What stands behind an item has to delimit it, as it has to for a number in text, and
`;` does.

A last separator needs a value to stand behind: the fragment `;` is not empty, and is refused
(`lone_separator_refused`). Whether a missing `;` between two items is noticed is another question,
and the code does not notice it; nothing here depends on that.
-/

set_option autoImplicit false

namespace Ytsaurus.Yson

open Framing

/-- What separates two values of a fragment. -/
def separator : UInt8 := 0x3B

theorem separator_eq : separator = 0x3B := rfl

/-- A stream that stands before these bytes, between two items. -/
structure StandsAt (isBinary : Bool) (stream : StreamDeserializer) (rest : List UInt8)
    (first : Bool) : Prop where
  lexer : ∃ pos, stream.de.lexer = ⟨rest, pos, isBinary⟩
  ready : Ready depthLimit 0 stream.de
  first : stream.first = first

theorem standsAt_new (input : List UInt8) (isBinary : Bool) :
    StandsAt isBinary (.new input isBinary) input true :=
  ⟨⟨0, rfl⟩, fromBytes_ready input isBinary, rfl⟩

namespace StreamDeserializer

variable {isBinary first : Bool} {stream : StreamDeserializer} {rest bytes trail : List UInt8}
  {pos fuel : Nat} {v : YsonValue} {e : YsonError}

/-- The stream with its lexer elsewhere. -/
def withLexer (stream : StreamDeserializer) (it : YsonIterator) : StreamDeserializer :=
  { stream with de := stream.de.withLexer it }

/-! ## Looking at the next byte -/

theorem peek_ok {b : UInt8} {it : YsonIterator} (h : Yson.peekByte stream.de.lexer = .ok (b, it)) :
    onDe peek stream = .ok (some b, stream.withLexer it) := by
  unfold onDe peek
  rw [h]
  rfl

theorem peek_separator (h : StandsAt isBinary stream (separator :: rest) first) :
    onDe peek stream = .ok (some separator, stream) := by
  obtain ⟨pos, hlexer⟩ := h.lexer
  have hpeek : Yson.peekByte stream.de.lexer = .ok (separator, stream.de.lexer) := by
    rw [hlexer]
    unfold Yson.peekByte
    rw [skipIgnored_significant rfl (by decide)]
  exact peek_ok hpeek

/-- The end of the input is where the stream stays. -/
theorem peek_nil (h : StandsAt isBinary stream [] first) :
    ∃ stream', onDe peek stream = .ok (none, stream') ∧ StandsAt isBinary stream' [] first := by
  obtain ⟨pos, hlexer⟩ := h.lexer
  have hskip : stream.de.lexer.skipIgnored = ⟨[], pos, isBinary⟩ := by
    rw [hlexer]
    cases isBinary <;> rfl
  have hpeek : Yson.peekByte stream.de.lexer = .error .eof := by
    unfold Yson.peekByte
    rw [hskip]
  refine ⟨stream.withLexer stream.de.lexer.skipIgnored, ?_, ?_⟩
  · unfold onDe peek
    rw [hpeek]
    rfl
  · exact ⟨⟨pos, hskip⟩, h.ready.withLexer _, h.first⟩

variable [FloatText] {d : Doc}

/-- Behind whitespace stands the document. -/
theorem peek_document {ts : List Token} {it : YsonIterator} {t : Token}
    (h : Lexes stream.de.lexer (t :: ts) it) :
    ∃ b, onDe peek stream = .ok (some b, stream.withLexer stream.de.lexer.skipIgnored) ∧
      Lexes stream.de.lexer.skipIgnored (t :: ts) it := by
  obtain ⟨b, hpeek, _⟩ := h.peek
  exact ⟨b, peek_ok hpeek, h.skipIgnored⟩

/-- Stepping over the separator in front of an item. -/
theorem nextToken_separator (h : StandsAt isBinary stream (separator :: rest) first) :
    ∃ stream', onDe De.nextToken stream = .ok (.itemSeparator, stream') ∧
      StandsAt isBinary stream' rest first := by
  obtain ⟨pos, hlexer⟩ := h.lexer
  have hskip : stream.de.lexer.skipIgnored = ⟨separator :: rest, pos, isBinary⟩ := by
    rw [hlexer]
    exact skipIgnored_significant rfl (by decide) rest pos isBinary
  have hnext : Yson.nextToken stream.de.lexer = .ok (.itemSeparator, ⟨rest, pos + 1, isBinary⟩) := by
    have hrest : stream.de.lexer.skipIgnored.rest = separator :: rest := by rw [hskip]
    rw [nextToken_of_lead (t := .itemSeparator) hrest rfl, hskip]
    rfl
  refine ⟨stream.withLexer ⟨rest, pos + 1, isBinary⟩, ?_, ⟨_, rfl⟩, h.ready.withLexer _, h.first⟩
  unfold onDe De.nextToken De.lex
  rw [hnext]
  rfl

/-! ## Reading an item -/

/-- What the deserializer makes of a document that stands here, perhaps behind whitespace. -/
theorem item_reads {it : YsonIterator} (hlex : Lexes stream.de.lexer d.toks it)
    (hready : Ready depthLimit 0 stream.de) (hsep : d.SingleSep) (hfuel : d.toks.length ≤ fuel) :
    Reads stream.de it (d.value depthLimit 0) (YsonValue.deserialize fuel stream.de) :=
  YsonValue.deserialize_reads d fuel 0 hsep hfuel stream.de it hlex hready

theorem item_ok (hlex : Lexes stream.de.lexer d.toks ⟨rest, pos, isBinary⟩)
    (hready : Ready depthLimit 0 stream.de) (hsep : d.SingleSep) (hfuel : d.toks.length ≤ fuel)
    (hv : d.value depthLimit 0 = .ok v) :
    ∃ stream', item (YsonValue.deserialize fuel) stream = .ok (some v, stream') ∧
      StandsAt isBinary stream' rest stream.first := by
  have hread := item_reads hlex hready hsep hfuel
  rw [hv] at hread
  obtain ⟨ended, hrun⟩ := hread
  refine ⟨{ stream with
    de := { stream.de with lexer := ⟨rest, pos, isBinary⟩, containerEnded := ended } }, ?_, ?_⟩
  · apply StateExcept.bind_ok
    unfold onDe
    rw [hrun]
    rfl
  · exact ⟨⟨pos, rfl⟩, ⟨hready.plain, hready.depth, hready.limit⟩, rfl⟩

theorem item_error {it : YsonIterator} (hlex : Lexes stream.de.lexer d.toks it)
    (hready : Ready depthLimit 0 stream.de) (hsep : d.SingleSep) (hfuel : d.toks.length ≤ fuel)
    (he : d.value depthLimit 0 = .error e) :
    item (YsonValue.deserialize fuel) stream = .error e := by
  have hread := item_reads hlex hready hsep hfuel
  rw [he] at hread
  apply StateExcept.bind_error
  unfold onDe
  rw [show YsonValue.deserialize fuel stream.de = .error e from hread]
  rfl

/-! ## One call -/

/-- What stands in front of an item: nothing before the first, a separator before the rest. -/
def lead (first : Bool) : List UInt8 := if first then [] else [separator]

/-- A call that finds a document reads it from where it begins. -/
theorem nextItem_document (h : StandsAt isBinary stream (lead first ++ (bytes ++ rest)) first)
    (hd : EncodedAs isBinary bytes d) (hrest : Delimited rest) :
    ∃ (pos : Nat) (stream' : StreamDeserializer),
      nextItem (YsonValue.deserialize fuel) stream = item (YsonValue.deserialize fuel) stream' ∧
      Lexes stream'.de.lexer d.toks ⟨rest, pos, isBinary⟩ ∧ Ready depthLimit 0 stream'.de ∧
      stream'.first = false := by
  obtain ⟨t, ts, htoks, _⟩ := d.toks_head
  have hwrites : ∀ pos, Lexes ⟨bytes ++ rest, pos, isBinary⟩ (t :: ts)
      ⟨rest, pos + bytes.length, isBinary⟩ := by
    intro pos
    have hlex := hd.writes rest pos hrest
    rwa [htoks] at hlex
  rw [htoks]
  cases first with
  | true =>
    obtain ⟨pos, hlexer⟩ := h.lexer
    have hlex := hwrites pos
    rw [← show stream.de.lexer = ⟨bytes ++ rest, pos, isBinary⟩ from hlexer] at hlex
    obtain ⟨b, hpeek, hlex⟩ := peek_document hlex
    refine ⟨_, { stream.withLexer stream.de.lexer.skipIgnored with first := false }, ?_, hlex,
      h.ready.withLexer _, rfl⟩
    have hfirst : (stream.withLexer stream.de.lexer.skipIgnored).first = true := h.first
    unfold nextItem
    rw [StateExcept.bind_ok hpeek]
    dsimp only
    rw [StateExcept.get_bind, hfirst, if_pos rfl]
    rfl
  | false =>
    have hbefore : StandsAt isBinary stream (separator :: (bytes ++ rest)) false := h
    obtain ⟨stream', hnext, hstands⟩ := nextToken_separator hbefore
    obtain ⟨pos, hlexer⟩ := hstands.lexer
    have hlex := hwrites pos
    rw [← hlexer] at hlex
    obtain ⟨b, hpeek, hlex⟩ := peek_document hlex
    refine ⟨_, stream'.withLexer stream'.de.lexer.skipIgnored, ?_, hlex,
      hstands.ready.withLexer _, hstands.first⟩
    have hfirst : ¬ stream.first = true := by
      rw [h.first]
      exact Bool.false_ne_true
    unfold nextItem
    rw [StateExcept.bind_ok (peek_separator hbefore)]
    dsimp only
    rw [StateExcept.get_bind, if_neg hfirst, if_pos separator_eq, StateExcept.bind_ok hnext,
      StateExcept.bind_ok hpeek]

/-- **A document that decodes is the next item**, and the stream stands behind it. -/
theorem nextItem_ok (h : StandsAt isBinary stream (lead first ++ (bytes ++ rest)) first)
    (hd : EncodedAs isBinary bytes d) (hrest : Delimited rest) (hfuel : d.toks.length ≤ fuel)
    (hv : d.value depthLimit 0 = .ok v) :
    ∃ stream', nextItem (YsonValue.deserialize fuel) stream = .ok (some v, stream') ∧
      StandsAt isBinary stream' rest false := by
  obtain ⟨pos, before, hrun, hlex, hready, hfirst⟩ := nextItem_document h hd hrest
  obtain ⟨stream', hitem, hstands⟩ := item_ok hlex hready hd.singleSep hfuel hv
  rw [hfirst] at hstands
  exact ⟨stream', hrun.trans hitem, hstands⟩

theorem nextItem_error (h : StandsAt isBinary stream (lead first ++ (bytes ++ rest)) first)
    (hd : EncodedAs isBinary bytes d) (hrest : Delimited rest) (hfuel : d.toks.length ≤ fuel)
    (he : d.value depthLimit 0 = .error e) :
    nextItem (YsonValue.deserialize fuel) stream = .error e := by
  obtain ⟨pos, before, hrun, hlex, hready, _⟩ := nextItem_document h hd hrest
  exact hrun.trans (item_error hlex hready hd.singleSep hfuel he)

theorem nextItem_nil (fuel : Nat) (h : StandsAt isBinary stream [] first) :
    ∃ stream', nextItem (YsonValue.deserialize fuel) stream = .ok (none, stream') ∧
      StandsAt isBinary stream' [] first := by
  obtain ⟨stream', hpeek, hstands⟩ := peek_nil h
  refine ⟨stream', ?_, hstands⟩
  unfold nextItem
  rw [StateExcept.bind_ok hpeek]
  rfl

/-- The end of the input, perhaps behind a last separator. -/
theorem nextItem_trail (fuel : Nat) (htrail : trail = [] ∨ trail = [separator])
    (h : StandsAt isBinary stream trail false) :
    ∃ stream', nextItem (YsonValue.deserialize fuel) stream = .ok (none, stream') ∧
      StandsAt isBinary stream' [] false := by
  rcases htrail with rfl | rfl
  · exact nextItem_nil fuel h
  · obtain ⟨behind, hnext, hbehind⟩ := nextToken_separator h
    obtain ⟨stream', hpeek, hstands⟩ := peek_nil hbehind
    have hfirst : ¬ stream.first = true := by
      rw [h.first]
      exact Bool.false_ne_true
    refine ⟨stream', ?_, hstands⟩
    unfold nextItem
    rw [StateExcept.bind_ok (peek_separator h)]
    dsimp only
    rw [StateExcept.get_bind, if_neg hfirst, if_pos separator_eq, StateExcept.bind_ok hnext,
      StateExcept.bind_ok hpeek]
    rfl

omit [FloatText] in
theorem delimited_trail (htrail : trail = [] ∨ trail = [separator])
    (encoded : List (List UInt8)) :
    Delimited (encoded.flatMap (separator :: ·) ++ trail) := by
  cases encoded with
  | nil =>
    rcases htrail with rfl | rfl
    · exact trivial
    · exact rfl
  | cons bytes encoded => exact rfl

/-! ## Call after call -/

/-- The outcomes of so many calls of `next_item`, each with the depth that it leaves. -/
def calls (deserialize : De YsonValue) :
    Nat → StreamDeserializer → Except YsonError (List (Option YsonValue × Nat))
  | 0, _ => .ok []
  | n + 1, stream => do
    let (item, stream) ← nextItem deserialize stream
    let items ← calls deserialize n stream
    return (item, stream.de.depth) :: items

/-- These bytes encode a document that decodes to this value. -/
def Decodes (isBinary : Bool) (fuel : Nat) (bytes : List UInt8) (v : YsonValue) : Prop :=
  ∃ d : Doc, EncodedAs isBinary bytes d ∧ d.toks.length ≤ fuel ∧ d.value depthLimit 0 = .ok v

theorem calls_succ {deserialize : De YsonValue} {n : Nat} {stream' : StreamDeserializer}
    {found : Option YsonValue} {items : List (Option YsonValue × Nat)}
    (hrun : nextItem deserialize stream = .ok (found, stream'))
    (hstands : StandsAt isBinary stream' rest first)
    (hitems : calls deserialize n stream' = .ok items) :
    calls deserialize (n + 1) stream = .ok ((found, 0) :: items) := by
  rw [calls, hrun]
  show (calls deserialize n stream' >>= fun items => _) = _
  rw [hitems, ← hstands.ready.depth]
  rfl

/-- At the end of the input there is nothing more, however often one asks. -/
theorem calls_end (fuel later : Nat) (h : StandsAt isBinary stream [] first) :
    calls (YsonValue.deserialize fuel) later stream = .ok (List.replicate later (none, 0)) := by
  induction later generalizing stream with
  | zero => rfl
  | succ later ih =>
    obtain ⟨stream', hrun, hstands⟩ := nextItem_nil fuel h
    exact calls_succ hrun hstands (ih hstands)

theorem calls_trail (fuel later : Nat) (htrail : trail = [] ∨ trail = [separator])
    (h : StandsAt isBinary stream trail false) :
    calls (YsonValue.deserialize fuel) later stream = .ok (List.replicate later (none, 0)) := by
  cases later with
  | zero => rfl
  | succ later =>
    obtain ⟨stream', hrun, hstands⟩ := nextItem_trail fuel htrail h
    exact calls_succ hrun hstands (calls_end fuel later hstands)

/-- From behind an item on: item by item, and then nothing. -/
theorem calls_items {encoded : List (List UInt8)} {vs : List YsonValue} (later : Nat)
    (htrail : trail = [] ∨ trail = [separator])
    (hencoded : List.Forall₂ (Decodes isBinary fuel) encoded vs)
    (h : StandsAt isBinary stream (encoded.flatMap (separator :: ·) ++ trail) false) :
    calls (YsonValue.deserialize fuel) (vs.length + later) stream =
      .ok (vs.map (fun v => (some v, 0)) ++ List.replicate later (none, 0)) := by
  induction hencoded generalizing stream with
  | nil =>
    rw [List.length_nil, Nat.zero_add]
    exact calls_trail fuel later htrail h
  | @cons bytes v encoded vs hdecodes _ ih =>
    obtain ⟨d, hd, hfuel, hv⟩ := hdecodes
    rw [List.flatMap_cons, List.cons_append, List.cons_append, List.append_assoc] at h
    have hlead : StandsAt isBinary stream
        (lead false ++ (bytes ++ (encoded.flatMap (separator :: ·) ++ trail))) false := h
    obtain ⟨stream', hrun, hstands⟩ :=
      nextItem_ok hlead hd (delimited_trail htrail encoded) hfuel hv
    rw [List.length_cons, Nat.add_right_comm]
    exact calls_succ hrun hstands (ih hstands)

/-- **The calls on a fragment**: its values in order, and then nothing. -/
theorem calls_joined {encoded : List (List UInt8)} {vs : List YsonValue} (later : Nat)
    (htrail : trail = [] ∨ trail = [separator] ∧ encoded ≠ [])
    (hencoded : List.Forall₂ (Decodes isBinary fuel) encoded vs) :
    calls (YsonValue.deserialize fuel) (vs.length + later)
        (.new (joined separator encoded ++ trail) isBinary) =
      .ok (vs.map (fun v => (some v, 0)) ++ List.replicate later (none, 0)) := by
  cases hencoded with
  | nil =>
    rcases htrail with rfl | ⟨_, hne⟩
    · rw [List.length_nil, Nat.zero_add]
      exact calls_end fuel later (standsAt_new [] isBinary)
    · exact absurd rfl hne
  | @cons bytes v encoded vs hdecodes hencoded =>
    obtain ⟨d, hd, hfuel, hv⟩ := hdecodes
    have htrail' : trail = [] ∨ trail = [separator] := htrail.imp_right And.left
    have hinput : joined separator (bytes :: encoded) ++ trail =
        lead true ++ (bytes ++ (encoded.flatMap (separator :: ·) ++ trail)) :=
      List.append_assoc _ _ _
    have hlead : StandsAt isBinary (.new (joined separator (bytes :: encoded) ++ trail) isBinary)
        (lead true ++ (bytes ++ (encoded.flatMap (separator :: ·) ++ trail))) true := by
      rw [← hinput]
      exact standsAt_new _ isBinary
    obtain ⟨stream', hrun, hstands⟩ :=
      nextItem_ok hlead hd (delimited_trail htrail' encoded) hfuel hv
    rw [List.length_cons, Nat.add_right_comm]
    exact calls_succ hrun hstands (calls_items later htrail' hencoded hstands)

section Fragment

variable {f : YsonFormat} {vs us : List YsonValue} {encoded : List (List UInt8)}

theorem decodes_of_toVec (hfloat : f = .text → FloatText.Inverse)
    (hvalid : ∀ v ∈ vs, v.All YsonValue.Valid)
    (hencoded : List.Forall₂ (fun v bytes => YsonValue.toVec v f = .ok bytes) vs encoded)
    (hread : List.Forall₂ (fun bytes u => YsonValue.fromSlice bytes f = .ok u) encoded us)
    (hfuel : ∀ bytes ∈ encoded, bytes.length ≤ fuel) :
    List.Forall₂ (Decodes f.isBinary fuel) encoded us := by
  induction hencoded generalizing us with
  | nil =>
    cases hread
    exact .nil
  | @cons v bytes vs encoded hv _ ih =>
    cases hread with
    | cons hu hread =>
      obtain ⟨hvalid, hvalids⟩ := List.forall_mem_cons.mp hvalid
      obtain ⟨hfuel, hfuels⟩ := List.forall_mem_cons.mp hfuel
      obtain ⟨d, hd⟩ := YsonValue.encodedAs_of_toVec hfloat hvalid hv
      rw [hd.fromSlice] at hu
      exact .cons ⟨d, hd, Nat.le_trans hd.length_le hfuel, hu⟩ (ih hvalids hread hfuels)

/-- **Streaming a fragment yields its values one by one.** Whatever values were written, each
call of `next_item` gives what `from_slice` gives for the value's own bytes, every later call
gives nothing, and after every call the depth counter is where it started. A last separator
needs a value to stand behind. -/
theorem yields_one_by_one (hfloat : f = .text → FloatText.Inverse)
    (hvalid : ∀ v ∈ vs, v.All YsonValue.Valid)
    (hencoded : List.Forall₂ (fun v bytes => YsonValue.toVec v f = .ok bytes) vs encoded)
    (hread : List.Forall₂ (fun bytes u => YsonValue.fromSlice bytes f = .ok u) encoded us)
    (htrail : trail = [] ∨ trail = [separator] ∧ encoded ≠ []) (later : Nat) :
    calls (YsonValue.deserialize ((joined separator encoded ++ trail).length + 1))
        (us.length + later) (.new (joined separator encoded ++ trail) f.isBinary) =
      .ok (us.map (fun u => (some u, 0)) ++ List.replicate later (none, 0)) := by
  apply calls_joined later htrail
  apply decodes_of_toVec hfloat hvalid hencoded hread
  intro bytes hbytes
  have hle : bytes.length ≤ (joined separator encoded).length := length_le_joined hbytes
  rw [List.length_append]
  omega

end Fragment

omit [FloatText] in
theorem yields_one_by_one_tagged_list :
    ∃ bytes, @YsonValue.toVec plainFloatText (YsonValue.tagged (.list [])) .text = .ok bytes ∧
      @calls plainFloatText (@YsonValue.deserialize plainFloatText
          ((joined separator [bytes, bytes] ++ [separator]).length + 1)) (2 + 3)
          (.new (joined separator [bytes, bytes] ++ [separator]) false) =
        .ok ([YsonValue.tagged (.list []), YsonValue.tagged (.list [])].map
          (fun u => (some u, 0)) ++ List.replicate 3 (none, 0)) := by
  let _ : FloatText := plainFloatText
  obtain ⟨bytes, hrun, hread⟩ := YsonValue.fromSlice_toVec plainFloatText_inverse (f := .text)
    YsonValue.tagged_list_valid (YsonValue.tagged_list_all ⟨by simp [YsonValue.tagged], by
      simp [YsonValue.tagged]⟩ ⟨by simp [YsonValue.bare], by simp [YsonValue.bare]⟩)
    fun _ => YsonValue.tagged_list_all (by simp [YsonValue.tagged, YsonValue.NotNan])
      (by simp [YsonValue.bare, YsonValue.NotNan])
  rw [if_pos (by decide +kernel)] at hread
  refine ⟨bytes, hrun, ?_⟩
  have hvalid : ∀ v ∈ [YsonValue.tagged (.list []), YsonValue.tagged (.list [])],
      v.All YsonValue.Valid := by
    intro v hv
    obtain rfl : v = YsonValue.tagged (.list []) := by simpa using hv
    exact YsonValue.tagged_list_valid
  exact yields_one_by_one (fun _ => plainFloatText_inverse) hvalid
    (.cons hrun (.cons hrun .nil)) (.cons hread (.cons hread .nil))
    (.inr ⟨rfl, List.cons_ne_nil _ _⟩) 3

omit [FloatText] in
/-- A separator that stands behind no value is not the end of a fragment. -/
theorem lone_separator_refused :
    @calls plainFloatText (@YsonValue.deserialize plainFloatText
        ((joined separator [] ++ [separator]).length + 1)) (0 + 1)
        (.new (joined separator [] ++ [separator]) false) ≠
      .ok ([].map (fun u => (some u, 0)) ++ List.replicate 1 (none, 0)) := by
  intro h
  have hfails : (@calls plainFloatText (@YsonValue.deserialize plainFloatText
      ((joined separator [] ++ [separator]).length + 1)) (0 + 1)
      (.new (joined separator [] ++ [separator]) false)).toBool = false := by
    decide +kernel
  rw [h] at hfails
  cases hfails

end StreamDeserializer

end Ytsaurus.Yson
