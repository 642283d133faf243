import Ytsaurus.Proof.Accept

/-!
# `Proof/Spells.lean` — inputs and documents

`Spells bytes f ts`: whitespace and comments aside, the input is exactly the tokens `ts`.
This is the relation between bytes and documents that the theorems about the codec are stated
with, and the modules before it only serve to make it usable.

An input spells at most one list of tokens, because reading is a function. A list of tokens is
that of at most one document (`Doc.toks_inj`): a document keeps how many `;` stood where, so
that nothing is lost between the two. Together an input spells at most one document, and
`from_slice::<YsonValue>` can be stated without its state: it succeeds exactly on the inputs
that spell a document with single separators and a value, and then gives that value
(`fromSlice_ok_iff`).

`Doc.value` is a definition of its own, not the decoder: it says what a document means as a
`YsonValue`, by recursion on the document. The decoder is compared with it in
`Proof/Decode.lean`, and the other direction, that it accepts documents only, comes from
`Proof/Accept.lean`. For a decoder of any other type there is the same reduction with the
result left open (`fromSlice_of_spells`, `fromSlice_accepts`).
-/

set_option autoImplicit false

namespace Ytsaurus.Yson

/-! ## Unique readability -/

theorem seps_cancel {n m : Nat} {t u : Token} {ts us : List Token} (ht : t ≠ .itemSeparator)
    (hu : u ≠ .itemSeparator) (h : seps n ++ (t :: ts) = seps m ++ (u :: us)) :
    n = m ∧ t :: ts = u :: us := by
  induction n generalizing m with
  | zero =>
    cases m with
    | zero => exact ⟨rfl, h⟩
    | succ m => exact absurd (List.cons.inj h).1 ht
  | succ n ih =>
    cases m with
    | zero => exact absurd (List.cons.inj h).1.symm hu
    | succ m =>
      obtain ⟨hn, hrest⟩ := ih (List.cons.inj h).2
      exact ⟨congrArg (· + 1) hn, hrest⟩

theorem startsValue_ne_separator {t : Token} (h : t.startsValue) : t ≠ .itemSeparator := by
  rintro rfl
  cases h

theorem Scalar.token_inj {s s' : Scalar} (h : s.token = s'.token) : s = s' := by
  cases s <;> cases s' <;> simp_all [Scalar.token]

mutual

/-- **The tokens of a document determine it**, and where it ends. -/
theorem Doc.toks_inj : ∀ (d d' : Doc) {r r' : List Token}, d.toks ++ r = d'.toks ++ r' →
    d = d' ∧ r = r'
  | .scalar s, d', r, r', h => by
    cases d' with
    | scalar s' =>
      simp only [Doc.toks, List.cons_append, List.nil_append, List.cons.injEq] at h
      exact ⟨by rw [Scalar.token_inj h.1], h.2⟩
    | _ => cases s <;> simp [Doc.toks, Scalar.token] at h
  | .entity, d', r, r', h => by
    cases d' with
    | entity => exact ⟨rfl, by simpa [Doc.toks] using h⟩
    | scalar s => cases s <;> simp [Doc.toks, Scalar.token] at h
    | _ => simp [Doc.toks] at h
  | .list items trail, d', r, r', h => by
    cases d' with
    | list items' trail' =>
      simp only [Doc.toks, List.cons_append, List.append_assoc, List.cons.injEq, true_and,
        List.nil_append] at h
      obtain ⟨rfl, rfl, rfl⟩ := itemsToks_inj items items' h
      exact ⟨rfl, rfl⟩
    | scalar s => cases s <;> simp [Doc.toks, Scalar.token] at h
    | _ => simp [Doc.toks] at h
  | .map pairs trail, d', r, r', h => by
    cases d' with
    | map pairs' trail' =>
      simp only [Doc.toks, List.cons_append, List.append_assoc, List.cons.injEq, true_and,
        List.nil_append] at h
      obtain ⟨rfl, rfl, rfl⟩ := pairsToks_inj pairs pairs' (by simp) (by simp) h
      exact ⟨rfl, rfl⟩
    | scalar s => cases s <;> simp [Doc.toks, Scalar.token] at h
    | _ => simp [Doc.toks] at h
  | .attributed pairs trail body, d', r, r', h => by
    cases d' with
    | attributed pairs' trail' body' =>
      simp only [Doc.toks, List.cons_append, List.append_assoc, List.cons.injEq, true_and] at h
      obtain ⟨rfl, rfl, hbody⟩ := pairsToks_inj pairs pairs' (by simp) (by simp) h
      obtain ⟨rfl, rfl⟩ := Doc.toks_inj body body' hbody
      exact ⟨rfl, rfl⟩
    | scalar s => cases s <;> simp [Doc.toks, Scalar.token] at h
    | _ => simp [Doc.toks] at h

theorem itemsToks_inj : ∀ (items items' : List (Nat × Doc)) {trail trail' : Nat}
    {r r' : List Token},
    itemsToks items ++ (seps trail ++ (.endList :: r))
      = itemsToks items' ++ (seps trail' ++ (.endList :: r')) →
    items = items' ∧ trail = trail' ∧ r = r'
  | [], [], trail, trail', r, r', h => by
    obtain ⟨rfl, hr⟩ := seps_cancel (by simp) (by simp) h
    exact ⟨rfl, rfl, (List.cons.inj hr).2⟩
  | [], (n, d) :: items', trail, trail', r, r', h => by
    obtain ⟨t, ts, htoks, ht⟩ := d.toks_head
    simp only [itemsToks, htoks, List.nil_append, List.append_assoc, List.cons_append] at h
    have hr := (seps_cancel (by simp) (startsValue_ne_separator ht) h).2
    rw [← (List.cons.inj hr).1] at ht
    cases ht
  | (n, d) :: items, [], trail, trail', r, r', h => by
    obtain ⟨t, ts, htoks, ht⟩ := d.toks_head
    simp only [itemsToks, htoks, List.nil_append, List.append_assoc, List.cons_append] at h
    have hr := (seps_cancel (startsValue_ne_separator ht) (by simp) h).2
    rw [(List.cons.inj hr).1] at ht
    cases ht
  | (n, d) :: items, (n', d') :: items', trail, trail', r, r', h => by
    simp only [itemsToks, List.append_assoc] at h
    have hsplit : n = n' ∧ d.toks ++ (itemsToks items ++ (seps trail ++ (.endList :: r)))
        = d'.toks ++ (itemsToks items' ++ (seps trail' ++ (.endList :: r'))) := by
      obtain ⟨t, ts, htoks, ht⟩ := d.toks_head
      obtain ⟨t', ts', htoks', ht'⟩ := d'.toks_head
      rw [htoks, htoks'] at h ⊢
      exact seps_cancel (startsValue_ne_separator ht) (startsValue_ne_separator ht') h
    obtain ⟨rfl, hrest⟩ := hsplit
    obtain ⟨rfl, htail⟩ := Doc.toks_inj d d' hrest
    obtain ⟨rfl, rfl, rfl⟩ := itemsToks_inj items items' htail
    exact ⟨rfl, rfl, rfl⟩

theorem pairsToks_inj : ∀ (pairs pairs' : List (Nat × List UInt8 × Doc)) {trail trail' : Nat}
    {close : Token} {r r' : List Token}, close ≠ .itemSeparator → (∀ s, close ≠ .string s) →
    pairsToks pairs ++ (seps trail ++ (close :: r))
      = pairsToks pairs' ++ (seps trail' ++ (close :: r')) →
    pairs = pairs' ∧ trail = trail' ∧ r = r'
  | [], [], trail, trail', close, r, r', hc, hs, h => by
    obtain ⟨rfl, hr⟩ := seps_cancel hc hc h
    exact ⟨rfl, rfl, (List.cons.inj hr).2⟩
  | [], (n, k, d) :: pairs', trail, trail', close, r, r', hc, hs, h => by
    simp only [pairsToks, List.nil_append, List.append_assoc, List.cons_append] at h
    exact absurd (List.cons.inj (seps_cancel hc (by simp) h).2).1 (hs k)
  | (n, k, d) :: pairs, [], trail, trail', close, r, r', hc, hs, h => by
    simp only [pairsToks, List.nil_append, List.append_assoc, List.cons_append] at h
    exact absurd (List.cons.inj (seps_cancel (by simp) hc h).2).1.symm (hs k)
  | (n, k, d) :: pairs, (n', k', d') :: pairs', trail, trail', close, r, r', hc, hs, h => by
    simp only [pairsToks, List.append_assoc, List.cons_append] at h
    obtain ⟨rfl, hrest⟩ := seps_cancel (by simp) (by simp) h
    simp only [List.cons.injEq, Token.string.injEq, true_and] at hrest
    obtain ⟨rfl, hrest⟩ := hrest
    obtain ⟨rfl, htail⟩ := Doc.toks_inj d d' hrest
    obtain ⟨rfl, rfl, rfl⟩ := pairsToks_inj pairs pairs' hc hs htail
    exact ⟨rfl, rfl, rfl⟩

end

/-! ## Inputs -/

/-- Nothing but whitespace and comments is left. -/
def YsonIterator.Exhausted (it : YsonIterator) : Prop := it.skipIgnored.rest = []

/-- The nesting limit `from_bytes` sets. -/
def depthLimit : Nat := 128

theorem fromBytes_ready (bytes : List UInt8) (isBinary : Bool) :
    Ready depthLimit 0 (Deserializer.fromBytes bytes isBinary) := ⟨rfl, rfl, rfl⟩

theorem end_of_exhausted {de : Deserializer} (h : de.lexer.Exhausted) :
    De.end de = .ok ((), de.withLexer de.lexer.skipIgnored) := by
  have hpeek : Yson.peekByte de.lexer = .error .eof := by rw [Yson.peekByte, h]
  rw [De.end, hpeek]
  rfl

theorem exhausted_of_end {de de' : Deserializer} (h : De.end de = .ok ((), de')) :
    de.lexer.Exhausted := by
  rw [De.end, Yson.peekByte] at h
  cases hrest : de.lexer.skipIgnored.rest with
  | nil => exact hrest
  | cons b x => simp [hrest] at h

variable [FloatText]

/-- Whitespace and comments aside, the input is exactly these tokens. -/
def Spells (bytes : List UInt8) (f : YsonFormat) (ts : List Token) : Prop :=
  ∃ it, Lexes (.new bytes f.isBinary) ts it ∧ it.Exhausted

theorem not_exhausted_of_nextToken {it it' : YsonIterator} {t : Token}
    (h : nextToken it = .ok (t, it')) : ¬ it.Exhausted := by
  intro hex
  obtain ⟨b, hpeek, _⟩ := peekByte_of_nextToken h
  rw [peekByte, hex] at hpeek
  cases hpeek

theorem lexes_exhausted_unique {it it₁ it₂ : YsonIterator} {ts us : List Token}
    (h₁ : Lexes it ts it₁) (h₂ : Lexes it us it₂) (he₁ : it₁.Exhausted) (he₂ : it₂.Exhausted) :
    ts = us := by
  induction ts generalizing it us with
  | nil =>
    cases us with
    | nil => rfl
    | cons u us =>
      cases Lexes.nil_iff.mp h₁
      obtain ⟨_, hnext, _⟩ := Lexes.cons_iff.mp h₂
      exact absurd he₁ (not_exhausted_of_nextToken hnext)
  | cons t ts ih =>
    obtain ⟨_, hnext, hrest⟩ := Lexes.cons_iff.mp h₁
    cases us with
    | nil =>
      cases Lexes.nil_iff.mp h₂
      exact absurd he₂ (not_exhausted_of_nextToken hnext)
    | cons u us =>
      obtain ⟨_, hnext', hrest'⟩ := Lexes.cons_iff.mp h₂
      cases hnext.symm.trans hnext'
      rw [ih hrest hrest']

theorem Spells.unique {bytes : List UInt8} {f : YsonFormat} {ts us : List Token}
    (h : Spells bytes f ts) (h' : Spells bytes f us) : ts = us := by
  obtain ⟨_, h₁, he₁⟩ := h
  obtain ⟨_, h₂, he₂⟩ := h'
  exact lexes_exhausted_unique h₁ h₂ he₁ he₂

theorem Spells.unique_doc {bytes : List UInt8} {f : YsonFormat} {d d' : Doc}
    (h : Spells bytes f d.toks) (h' : Spells bytes f d'.toks) : d = d' :=
  (Doc.toks_inj d d' (congrArg (· ++ []) (h.unique h'))).1

/-- The tokens left at the cursor, when all of them can be read. -/
def YsonIterator.tokens : Nat → YsonIterator → Option (List Token)
  | 0, _ => none
  | fuel + 1, it =>
    if it.skipIgnored.rest.isEmpty then some []
    else
      match nextToken it with
      | .ok (t, it) => (YsonIterator.tokens fuel it).map fun ts => t :: ts
      | .error _ => none

theorem tokens_eq_some {fuel : Nat} {it : YsonIterator} {ts : List Token}
    (hfuel : it.rest.length < fuel) :
    it.tokens fuel = some ts ↔ ∃ it', Lexes it ts it' ∧ it'.Exhausted := by
  induction fuel generalizing it ts with
  | zero => omega
  | succ fuel ih =>
    rw [YsonIterator.tokens]
    by_cases hex : it.Exhausted
    · rw [if_pos (by rw [show it.skipIgnored.rest = [] from hex]; rfl), Option.some.injEq]
      constructor
      · rintro rfl
        exact ⟨it, .nil it, hex⟩
      · rintro ⟨it', hlex, hex'⟩
        exact lexes_exhausted_unique (.nil it) hlex hex hex'
    · rw [if_neg (by rw [List.isEmpty_iff]; exact hex)]
      cases hnext : nextToken it with
      | error e =>
        simp only [reduceCtorEq, false_iff, not_exists, not_and]
        intro it' hlex hex'
        cases hlex with
        | nil => exact hex hex'
        | cons hnext' _ =>
          rw [hnext] at hnext'
          cases hnext'
      | ok p =>
        obtain ⟨t, it₁⟩ := p
        obtain ⟨n, hpos, hn⟩ := nextToken_advanced hnext
        have hlen := hn.length
        have hle := hn.le
        have hfuel₁ : it₁.rest.length < fuel := by omega
        simp only [Option.map_eq_some_iff, ih hfuel₁]
        constructor
        · rintro ⟨us, ⟨it', hlex, hex'⟩, rfl⟩
          exact ⟨it', .cons hnext hlex, hex'⟩
        · rintro ⟨it', hlex, hex'⟩
          cases hlex with
          | nil => exact absurd hex' hex
          | cons hnext' hrest =>
            cases hnext.symm.trans hnext'
            exact ⟨_, ⟨it', hrest, hex'⟩, rfl⟩

theorem spells_iff_tokens {bytes : List UInt8} {f : YsonFormat} {ts : List Token} :
    Spells bytes f ts ↔
      (YsonIterator.new bytes f.isBinary).tokens (bytes.length + 1) = some ts :=
  (tokens_eq_some (Nat.lt_succ_self _)).symm

instance (bytes : List UInt8) (f : YsonFormat) (ts : List Token) : Decidable (Spells bytes f ts) :=
  decidable_of_iff _ spells_iff_tokens.symm

/-! ## `from_slice` -/

/-- A deserializer that reads a document reads an input that spells it. -/
theorem fromSlice_of_spells {α : Type} {deserialize : De α} {d : Doc} {r : Except YsonError α}
    {bytes : List UInt8} {f : YsonFormat} (h : Spells bytes f d.toks)
    (hseed : SeedReads depthLimit 0 deserialize d r) : fromSlice deserialize bytes f = r := by
  obtain ⟨it, hlex, hex⟩ := h
  have hread := hseed (.fromBytes bytes f.isBinary) it hlex (fromBytes_ready _ _)
  cases r with
  | error e => rw [fromSlice, StateExcept.bind_error hread]; rfl
  | ok v =>
    obtain ⟨b, hrun⟩ := hread
    rw [fromSlice, StateExcept.bind_ok hrun, StateExcept.bind_ok (end_of_exhausted hex)]
    rfl

theorem fromSlice_accepts {α : Type} {deserialize : De α} {v : α} {bytes : List UInt8}
    {f : YsonFormat} (hseed : De.SeedAccepts depthLimit deserialize)
    (h : fromSlice deserialize bytes f = .ok v) : ∃ d : Doc, d.SingleSep ∧ Spells bytes f d.toks := by
  obtain ⟨⟨w, de⟩, h, heq⟩ := ExceptList.map_eq_ok.mp h
  replace h := StateExcept.bind_eq_ok.mp h
  obtain ⟨u, de₁, hrun, h⟩ := h
  replace h := StateExcept.bind_eq_ok.mp h
  obtain ⟨_, de₂, hend, _⟩ := h
  obtain ⟨d, hd, hlex, _⟩ := hseed 0 _ _ _ (fromBytes_ready _ _) hrun
  exact ⟨d, hd, de₁.lexer, hlex, exhausted_of_end hend⟩

theorem Spells.length_le {bytes : List UInt8} {f : YsonFormat} {ts : List Token}
    (h : Spells bytes f ts) : ts.length ≤ bytes.length := by
  obtain ⟨it, hlex, _⟩ := h
  have := hlex.length_le
  simp only [YsonIterator.new] at this
  omega

/-- **Decoding an input that spells a document gives the document's value.** -/
theorem YsonValue.fromSlice_of_spells {d : Doc} {bytes : List UInt8} {f : YsonFormat}
    (h : Spells bytes f d.toks) (hd : d.SingleSep) :
    YsonValue.fromSlice bytes f = d.value depthLimit 0 :=
  Yson.fromSlice_of_spells h
    (YsonValue.deserialize_reads d _ 0 hd (Nat.le_succ_of_le h.length_le))

/-- **`from_slice::<YsonValue>` succeeds exactly on the inputs that spell a document with
single separators and a value.** -/
theorem YsonValue.fromSlice_ok_iff {bytes : List UInt8} {f : YsonFormat} {v : YsonValue} :
    YsonValue.fromSlice bytes f = .ok v ↔
      ∃ d : Doc, Spells bytes f d.toks ∧ d.SingleSep ∧ d.value depthLimit 0 = .ok v := by
  constructor
  · intro h
    obtain ⟨d, hd, hspells⟩ := fromSlice_accepts (YsonValue.deserialize_accepts _) h
    exact ⟨d, hspells, hd, (YsonValue.fromSlice_of_spells hspells hd).symm.trans h⟩
  · rintro ⟨d, hspells, hd, hvalue⟩
    rw [YsonValue.fromSlice_of_spells hspells hd, hvalue]

end Ytsaurus.Yson
