import Ytsaurus.Proof.Decode

/-!
# `Proof/Accept.lean` — what the decoder accepts

The converse of `Proof/Decode.lean`: a decode that succeeded read the tokens of some
document whose plain lists and maps have no two `;` in a row. Together with the unique
readability of documents this makes "the decoder accepts" a statement about documents.

The document is not given this time, it has to be built, and it is built from the end. What an
access still has to go through is a remainder of a container: some entries, some `;`, a closing
token (`Accepted`, a case for each state an access can be in). A `next_key` that succeeds puts one
entry, or one `;`, in front of a remainder (`KeyAccepts`, `nextKey_ok`), so when the visitor is
through, the remainders add up to the container, and the container is a document.

`SeedAccepts` is the inductive hypothesis, on the budget of the dynamic value. It is stated of any
seed, and of every depth, because the value is read through the same accesses as any other type;
but what is accepted is proved for the dynamic value only. The types of `Proof/Consumed.lean` may
leave a container before its end, and their documents come from the other side.
-/

set_option autoImplicit false

namespace Ytsaurus.Yson

variable {α κ : Type} {limit depth : Nat} {de de' : Deserializer}

namespace De

/-! ## Taking successful steps apart -/

theorem peekByte_ok {b : UInt8} (h : De.peekByte de = .ok (b, de')) :
    de' = de.withLexer de.lexer.skipIgnored := by
  obtain ⟨⟨c, it⟩, hc, heq⟩ := ExceptList.map_eq_ok.mp h
  cases heq
  rw [Yson.peekByte] at hc
  split at hc
  · cases hc
  · cases hc
    rfl

theorem closes_unique {t u : Token} {endByte : UInt8} (h : Closes t endByte)
    (h' : Closes u endByte) : t = u :=
  Option.some.inj ((punctuation_eq_some.mpr h.lead).symm.trans (punctuation_eq_some.mpr h'.lead))

theorem peekByte_again {b c : UInt8} {de₁ de₂ de₃ : Deserializer}
    (h : De.peekByte de = .ok (b, de₁)) (h' : De.peekByte de₂ = .ok (c, de₃))
    (hlexer : de₂.lexer = de.lexer.skipIgnored) : c = b := by
  obtain ⟨⟨b', it⟩, hb, heq⟩ := ExceptList.map_eq_ok.mp h
  cases heq
  obtain ⟨⟨c', it'⟩, hc, heq⟩ := ExceptList.map_eq_ok.mp h'
  cases heq
  rw [hlexer, peekByte_skipIgnored, hb] at hc
  cases hc
  rfl

theorem takeReadingAttributes_ok {b : Bool} (hready : Ready limit depth de)
    (h : takeReadingAttributes de = .ok (b, de')) : b = false ∧ de = de' := by
  rw [takeReadingAttributes_plain hready.plain] at h
  cases h
  exact ⟨rfl, rfl⟩

theorem nested_ok {x : De α} {v : α} (h : nested x de = .ok (v, de')) :
    ∃ de₁, x de.deeper = .ok (v, de₁) ∧ de' = { de₁ with depth := de₁.depth - 1 } := by
  replace h := StateExcept.bind_eq_ok.mp h
  obtain ⟨_, de₂, henter, h⟩ := h
  rw [enterRecursion] at henter
  split at henter
  · cases henter
  · cases henter
    replace h := StateExcept.bind_eq_ok.mp h
    obtain ⟨w, de₁, hx, h⟩ := h
    cases h
    exact ⟨de₁, hx, rfl⟩

theorem ready_leave (h : Ready limit (depth + 1) de) (b : Bool) :
    Ready limit depth { de with containerEnded := b, depth := de.depth - 1 } :=
  ⟨h.plain, by simp [h.depth], h.limit⟩

variable [FloatText]

theorem nextToken_ok {t : Token} (h : De.nextToken de = .ok (t, de')) :
    ∃ it, de' = de.withLexer it ∧ Lexes de.lexer [t] it := by
  obtain ⟨⟨u, it⟩, hu, heq⟩ := ExceptList.map_eq_ok.mp h
  cases heq
  exact ⟨it, rfl, .single hu⟩

/-- The token read after peeking is the one announced. -/
theorem peek_next_ok {b : UInt8} {t : Token} {de₁ : Deserializer}
    (hpeek : De.peekByte de = .ok (b, de₁)) (hnext : De.nextToken de₁ = .ok (t, de')) :
    Leads b t ∧ ∃ it, de' = de.withLexer it ∧ Lexes de.lexer [t] it := by
  cases peekByte_ok hpeek
  obtain ⟨it, rfl, hlex⟩ := nextToken_ok hnext
  have hlex' : Lexes de.lexer [t] it := Lexes.of_skipIgnored hlex
  obtain ⟨c, hpeek', hlead⟩ := peekByte_of_lexes de hlex'
  cases hpeek.symm.trans hpeek'
  exact ⟨hlead, it, rfl, hlex'⟩

theorem peek_take_ok {b : UInt8} {t u : Token} {de₁ : Deserializer}
    (hpeek : De.peekByte de = .ok (b, de₁)) (hnext : De.nextToken de₁ = .ok (t, de'))
    (hu : u.lead = some b) : t = u ∧ ∃ it, de' = de.withLexer it ∧ Lexes de.lexer [u] it := by
  obtain ⟨hlead, it, hde, hlex⟩ := peek_next_ok hpeek hnext
  obtain rfl : t = u := (hlead.eq_iff hu).mp rfl
  exact ⟨rfl, it, hde, hlex⟩

/-! ## Seeds that accept documents -/

/-- A success of the seed consumed the tokens of a document. -/
def SeedAccepts (limit : Nat) (seed : De α) : Prop :=
  ∀ (depth : Nat) (de de' : Deserializer) (v : α), Ready limit depth de → seed de = .ok (v, de') →
    ∃ d : Doc, d.SingleSep ∧ Lexes de.lexer d.toks de'.lexer ∧ Ready limit depth de'

theorem lexes_doc_skipIgnored {it it' : YsonIterator} {d : Doc}
    (h : Lexes it.skipIgnored d.toks it') : Lexes it d.toks it' := by
  obtain ⟨t, ts, htoks, _⟩ := d.toks_head
  rw [htoks] at h ⊢
  exact h.of_skipIgnored

theorem commaSeparatedAtEnd_ok {endByte : UInt8} {endTok : Token} {r : Bool}
    (hend : Closes endTok endByte) (h : commaSeparatedAtEnd endByte de = .ok (r, de')) :
    ∃ n ≤ 1, ∃ it, de' = de.withLexer it ∧
      if r then Lexes de.lexer (seps n ++ [endTok]) it
      else ∃ it₀, Lexes de.lexer (seps n) it₀ ∧ it = it₀.skipIgnored := by
  replace h := StateExcept.bind_eq_ok.mp h
  obtain ⟨b, de₁, hpeek, h⟩ := h
  rw [StateExcept.ite_apply] at h
  split at h
  · rename_i hb
    subst hb
    replace h := StateExcept.bind_eq_ok.mp h
    obtain ⟨t, de₂, hnext, h⟩ := h
    cases h
    obtain ⟨rfl, it, rfl, hlex⟩ := peek_take_ok hpeek hnext hend.lead
    exact ⟨0, by omega, it, rfl, hlex⟩
  · rename_i hb
    rw [StateExcept.ite_apply] at h
    split at h
    · rename_i hsep
      subst hsep
      replace h := StateExcept.bind_eq_ok.mp h
      obtain ⟨t, de₂, hnext, h⟩ := h
      obtain ⟨rfl, it, rfl, hlex⟩ := peek_take_ok (u := .itemSeparator) hpeek hnext rfl
      replace h := StateExcept.bind_eq_ok.mp h
      obtain ⟨c, de₃, hpeek', h⟩ := h
      rw [StateExcept.ite_apply] at h
      split at h
      · rename_i hc
        subst hc
        replace h := StateExcept.bind_eq_ok.mp h
        obtain ⟨t, de₄, hnext', h⟩ := h
        cases h
        obtain ⟨rfl, it', rfl, hlex'⟩ := peek_take_ok hpeek' hnext' hend.lead
        exact ⟨1, by omega, it', rfl, hlex.append hlex'⟩
      · cases h
        cases peekByte_ok hpeek'
        exact ⟨1, by omega, _, rfl, it, hlex, rfl⟩
    · cases h
      cases peekByte_ok hpeek
      exact ⟨0, by omega, _, rfl, de.lexer, .nil _, rfl⟩

theorem endContainer_ok {endByte : UInt8} (hended : de.containerEnded = true)
    (h : endContainer endByte de = .ok ((), de')) : de' = de := by
  rw [endContainer_ended hended] at h
  cases h
  rfl

theorem expectKeyValueSeparator_ok (h : expectKeyValueSeparator de = .ok ((), de')) :
    ∃ it, de' = de.withLexer it ∧ Lexes de.lexer [.keyValueSeparator] it := by
  replace h := StateExcept.bind_eq_ok.mp h
  obtain ⟨t, de₁, hnext, h⟩ := h
  obtain ⟨it, rfl, hlex⟩ := nextToken_ok hnext
  rw [StateExcept.ite_apply] at h
  split at h
  · cases h
  · rename_i ht
    cases h
    rw [not_not.mp ht] at hlex
    exact ⟨it, rfl, hlex⟩

/-- The token between a key and its value. -/
def valuePrefix : MapAccess → List Token
  | .flatStruct _ true => []
  | _ => [.keyValueSeparator]

theorem nextValue_ok {seed : De α} {map : MapAccess} {v : α} (hready : Ready limit depth de)
    (hseed : SeedAccepts limit seed) (h : nextValue seed map de = .ok (v, de')) :
    ∃ d : Doc, d.SingleSep ∧ Lexes de.lexer (valuePrefix map ++ d.toks) de'.lexer ∧
      Ready limit depth de' := by
  have heq : ∀ (m : MapAccess), valuePrefix m = [.keyValueSeparator] →
      (do expectKeyValueSeparator; seed : De α) de = .ok (v, de') →
      ∃ d : Doc, d.SingleSep ∧ Lexes de.lexer (valuePrefix m ++ d.toks) de'.lexer ∧
        Ready limit depth de' := by
    intro m hm h
    replace h := StateExcept.bind_eq_ok.mp h
    obtain ⟨_, de₁, hsep, h⟩ := h
    obtain ⟨it, rfl, hlex⟩ := expectKeyValueSeparator_ok hsep
    obtain ⟨d, hd, hlex', hready'⟩ := hseed _ _ _ _ (hready.withLexer it) h
    exact ⟨d, hd, by rw [hm]; exact hlex.append hlex', hready'⟩
  match map, h with
  | .flatStruct s true, h => exact hseed _ _ _ _ hready h
  | .flatStruct s false, h => exact heq _ rfl h
  | .commaSeparated e b, h => exact heq _ rfl h
  | .empty, h => cases h

/-! ## What an access goes through -/

/-- From `it`, the access goes through a well-formed remainder of its container and ends at
`it'`. -/
def Accepted : MapAccess → YsonIterator → YsonIterator → Prop
  | .flatStruct .attributes _, it, it' => ∃ pairs trail, ∃ body : Doc, pairsSeparated pairs ∧
    body.Separated false ∧
    Lexes it (pairsToks pairs ++ (seps trail ++ (.endAttributes :: body.toks))) it'
  | .flatStruct .between _, it, it' => ∃ body : Doc, body.Separated false ∧ Lexes it body.toks it'
  | .flatStruct .body _, it, it' => ∃ pairs trail, pairsSeparated pairs ∧
    Lexes it (pairsToks pairs ++ (seps trail ++ [.endMap])) it'
  | .flatStruct .valueOnly _, it, it' => ∃ d : Doc, d.SingleSep ∧ Lexes it d.toks it'
  | .flatStruct .done _, it, it' => it' = it
  | .commaSeparated endByte _, it, it' => ∃ endTok pairs trail, Closes endTok endByte ∧
    (trail ≤ 1 ∧ ∀ p ∈ pairs, p.1 ≤ 1) ∧ pairsSeparated pairs ∧
      Lexes it (pairsToks pairs ++ (seps trail ++ [endTok])) it'
  | .empty, it, it' => it' = it

/-- What a successful `next_key` tells: either the access is through, or a value is pending
and whatever goes through afterwards goes through from here. -/
def KeyAccepts (limit depth : Nat) (map : MapAccess) (it : YsonIterator) (key : Option κ)
    (map' : MapAccess) (de' : Deserializer) : Prop :=
  Ready limit depth de' ∧
  match key with
  | none => Accepted map it de'.lexer ∧ (∀ e b, map = .commaSeparated e b → map'.ended)
  | some _ => (∀ (d : Doc) (it₁ it₂ : YsonIterator), d.SingleSep →
      Lexes de'.lexer (valuePrefix map' ++ d.toks) it₁ → Accepted map' it₁ it₂ →
      Accepted map it it₂) ∧ (∀ e b, map = .commaSeparated e b ↔ map' = .commaSeparated e b)

theorem KeyAccepts.imp {map map₁ map' : MapAccess} {it it₁ : YsonIterator} {key : Option κ}
    (h : KeyAccepts limit depth map₁ it₁ key map' de')
    (himp : ∀ it₂, Accepted map₁ it₁ it₂ → Accepted map it it₂)
    (hmap : ∀ e b, map ≠ .commaSeparated e b) (hmap₁ : ∀ e b, map₁ ≠ .commaSeparated e b) :
    KeyAccepts limit depth map it key map' de' := by
  obtain ⟨hready, h⟩ := h
  refine ⟨hready, ?_⟩
  cases key with
  | none => exact ⟨himp _ h.1, fun e b he => absurd he (hmap e b)⟩
  | some k =>
    exact ⟨fun d it₁ it₂ hd hlex hacc => himp _ (h.1 d it₁ it₂ hd hlex hacc),
      fun e b => ⟨fun he => absurd he (hmap e b), fun he => absurd ((h.2 e b).mpr he) (hmap₁ e b)⟩⟩

/-- A key seed that only accepts a string token. -/
def KeySeedAccepts (limit : Nat) (seed : KeySeed κ) : Prop :=
  ∀ (depth : Nat) (de de' : Deserializer) (x : κ), Ready limit depth de →
    seed.deserialize de = .ok (x, de') →
    ∃ s, Lexes de.lexer [.string s] de'.lexer ∧ Ready limit depth de'

/-- One more separator in front of a remainder. -/
theorem pairs_sep {it it₁ it₂ : YsonIterator} {pairs : List (Nat × List UInt8 × Doc)} {trail : Nat}
    {close : List Token} (hsep : Lexes it [.itemSeparator] it₁) (hpairs : pairsSeparated pairs)
    (h : Lexes it₁ (pairsToks pairs ++ (seps trail ++ close)) it₂) :
    ∃ pairs' trail', pairsSeparated pairs' ∧
      Lexes it (pairsToks pairs' ++ (seps trail' ++ close)) it₂ := by
  cases pairs with
  | nil => exact ⟨[], trail + 1, trivial, hsep.append h⟩
  | cons p pairs =>
    obtain ⟨n, k, d⟩ := p
    exact ⟨(n + 1, k, d) :: pairs, trail, hpairs, hsep.append h⟩

theorem nextKeyBody_ok {seed : KeySeed κ} {fuel : Nat} {key : Option κ} {map' : MapAccess} (b : Bool)
    (hready : Ready limit depth de) (hseed : KeySeedAccepts limit seed)
    (h : nextKeyBody seed fuel de = .ok ((key, map'), de')) :
    KeyAccepts limit depth (.flatStruct .body b) de.lexer key map' de' := by
  induction fuel generalizing de with
  | zero => cases h
  | succ fuel ih =>
    replace h := StateExcept.bind_eq_ok.mp h
    obtain ⟨c, de₁, hpeek, h⟩ := h
    rw [StateExcept.ite_apply] at h
    split at h
    · rename_i hc
      replace h := StateExcept.bind_eq_ok.mp h
      obtain ⟨t, de₂, hnext, h⟩ := h
      cases h
      obtain ⟨rfl, it, rfl, hlex⟩ := peek_take_ok (u := .endMap) hpeek hnext (by rw [hc]; rfl)
      exact ⟨hready.withLexer it, ⟨[], 0, trivial, hlex⟩, fun _ _ h => by cases h⟩
    · rw [StateExcept.ite_apply] at h
      split at h
      · rename_i hc
        replace h := StateExcept.bind_eq_ok.mp h
        obtain ⟨t, de₂, hnext, h⟩ := h
        obtain ⟨rfl, it, rfl, hlex⟩ := peek_take_ok (u := .itemSeparator) hpeek hnext (by rw [hc]; rfl)
        refine (ih (hready.withLexer it) h).imp ?_ (by simp) (by simp)
        rintro it₂ ⟨pairs, trail, hpairs, hrest⟩
        exact pairs_sep hlex hpairs hrest
      · replace h := StateExcept.bind_eq_ok.mp h
        obtain ⟨x, de₂, hkey, h⟩ := h
        cases h
        cases peekByte_ok hpeek
        obtain ⟨s, hlex, hready'⟩ := hseed _ _ _ _ (hready.withLexer _) hkey
        refine ⟨hready', ?_, by simp⟩
        rintro d it₁ it₂ hd hvalue ⟨pairs, trail, hpairs, hrest⟩
        refine ⟨(0, s, d) :: pairs, trail, ⟨hd, hpairs⟩, ?_⟩
        have := (Lexes.of_skipIgnored hlex).append (hvalue.append hrest)
        simpa [pairsToks, seps, valuePrefix] using this

theorem nextKeyValueOnly_ok {seed : KeySeed κ} {key : Option κ} {map' : MapAccess} (b : Bool)
    (hready : Ready limit depth de)
    (h : nextKeyValueOnly seed de = .ok ((key, map'), de')) :
    KeyAccepts limit depth (.flatStruct .valueOnly b) de.lexer key map' de' := by
  replace h := StateExcept.bind_eq_ok.mp h
  obtain ⟨x, de₁, hkey, h⟩ := h
  cases h
  obtain ⟨y, _, heq⟩ := ExceptList.map_eq_ok.mp hkey
  cases heq
  refine ⟨hready, ?_, by simp⟩
  rintro d it₁ it₂ hd hvalue rfl
  exact ⟨d, hd, hvalue⟩

theorem nextKeyBetween_ok {seed : KeySeed κ} {key : Option κ} {map' : MapAccess} (b : Bool)
    (hready : Ready limit depth de) (hseed : KeySeedAccepts limit seed)
    (h : nextKeyBetween seed de = .ok ((key, map'), de')) :
    KeyAccepts limit depth (.flatStruct .between b) de.lexer key map' de' := by
  replace h := StateExcept.bind_eq_ok.mp h
  obtain ⟨c, de₁, hpeek, h⟩ := h
  rw [StateExcept.ite_apply] at h
  split at h
  · rename_i hc
    replace h := StateExcept.bind_eq_ok.mp h
    obtain ⟨t, de₂, hnext, h⟩ := h
    obtain ⟨rfl, it, rfl, hlex⟩ := peek_take_ok (u := .beginMap) hpeek hnext (by rw [hc]; rfl)
    rw [StateExcept.bind_ok (budget_apply _)] at h
    refine (nextKeyBody_ok false (hready.withLexer it) hseed h).imp ?_ (by simp) (by simp)
    rintro it₂ ⟨pairs, trail, hpairs, hrest⟩
    refine ⟨.map pairs trail, ⟨fun h => absurd h (by decide), hpairs⟩, ?_⟩
    rw [Doc.toks]
    exact hlex.append hrest
  · rw [StateExcept.ite_apply] at h
    split at h
    · rename_i hc
      replace h := StateExcept.bind_eq_ok.mp h
      obtain ⟨t, de₂, hnext, h⟩ := h
      cases h
      obtain ⟨rfl, it, rfl, hlex⟩ := peek_take_ok (u := .entity) hpeek hnext (by rw [hc]; rfl)
      have hbody : Doc.entity.Separated false := trivial
      exact ⟨hready.withLexer it, ⟨.entity, hbody, hlex⟩, fun _ _ h => by cases h⟩
    · cases peekByte_ok hpeek
      refine (nextKeyValueOnly_ok false (hready.withLexer _) h).imp ?_ (by simp) (by simp)
      rintro it₂ ⟨d, hd, hlex⟩
      exact ⟨d, hd.body, lexes_doc_skipIgnored hlex⟩

theorem nextKeyAttributes_ok {seed : KeySeed κ} {fuel : Nat} {key : Option κ} {map' : MapAccess}
    (b : Bool) (hready : Ready limit depth de) (hseed : KeySeedAccepts limit seed)
    (h : nextKeyAttributes seed fuel de = .ok ((key, map'), de')) :
    KeyAccepts limit depth (.flatStruct .attributes b) de.lexer key map' de' := by
  induction fuel generalizing de with
  | zero => cases h
  | succ fuel ih =>
    replace h := StateExcept.bind_eq_ok.mp h
    obtain ⟨c, de₁, hpeek, h⟩ := h
    rw [StateExcept.ite_apply] at h
    split at h
    · rename_i hc
      replace h := StateExcept.bind_eq_ok.mp h
      obtain ⟨t, de₂, hnext, h⟩ := h
      obtain ⟨rfl, it, rfl, hlex⟩ := peek_take_ok (u := .endAttributes) hpeek hnext (by rw [hc]; rfl)
      refine (nextKeyBetween_ok false (hready.withLexer it) hseed h).imp ?_ (by simp) (by simp)
      rintro it₂ ⟨body, hbody, hrest⟩
      exact ⟨[], 0, body, trivial, hbody, hlex.append hrest⟩
    · rw [StateExcept.ite_apply] at h
      split at h
      · rename_i hc
        replace h := StateExcept.bind_eq_ok.mp h
        obtain ⟨t, de₂, hnext, h⟩ := h
        obtain ⟨rfl, it, rfl, hlex⟩ := peek_take_ok (u := .itemSeparator) hpeek hnext (by rw [hc]; rfl)
        refine (ih (hready.withLexer it) h).imp ?_ (by simp) (by simp)
        rintro it₂ ⟨pairs, trail, body, hpairs, hbody, hrest⟩
        obtain ⟨pairs', trail', hpairs', hlex'⟩ := pairs_sep hlex hpairs hrest
        exact ⟨pairs', trail', body, hpairs', hbody, hlex'⟩
      · replace h := StateExcept.bind_eq_ok.mp h
        obtain ⟨t, de₂, hnext, h⟩ := h
        cases t with
        | string s =>
          replace h := StateExcept.bind_eq_ok.mp h
          obtain ⟨x, de₃, hkey, h⟩ := h
          cases h
          obtain ⟨y, _, heq⟩ := ExceptList.map_eq_ok.mp hkey
          cases heq
          obtain ⟨_, it, rfl, hlex⟩ := peek_next_ok hpeek hnext
          refine ⟨hready.withLexer it, ?_, by simp⟩
          rintro d it₁ it₂ hd hvalue ⟨pairs, trail, body, hpairs, hbody, hrest⟩
          refine ⟨(0, s, d) :: pairs, trail, body, ⟨hd, hpairs⟩, hbody, ?_⟩
          have := hlex.append (hvalue.append hrest)
          simpa [pairsToks, seps, valuePrefix] using this
        | _ => cases h

/-- **One `next_key` of any access.** -/
theorem nextKey_ok {seed : KeySeed κ} {key : Option κ} {map map' : MapAccess}
    (hready : Ready limit depth de) (hseed : KeySeedAccepts limit seed)
    (hcloses : ∀ e b, map = .commaSeparated e b → ∃ t, Closes t e)
    (h : nextKey seed map de = .ok ((key, map'), de')) :
    KeyAccepts limit depth map de.lexer key map' de' := by
  match map with
  | .flatStruct .attributes b =>
    rw [nextKey, StateExcept.bind_ok (budget_apply _)] at h
    exact nextKeyAttributes_ok b hready hseed h
  | .flatStruct .between b => exact nextKeyBetween_ok b hready hseed h
  | .flatStruct .body b =>
    rw [nextKey, StateExcept.bind_ok (budget_apply _)] at h
    exact nextKeyBody_ok b hready hseed h
  | .flatStruct .valueOnly b => exact nextKeyValueOnly_ok b hready h
  | .flatStruct .done b =>
    cases h
    exact ⟨hready, rfl, fun _ _ h => by cases h⟩
  | .empty =>
    cases h
    exact ⟨hready, rfl, fun _ _ h => by cases h⟩
  | .commaSeparated endByte ended =>
    obtain ⟨endTok, hend⟩ := hcloses _ _ rfl
    replace h := StateExcept.bind_eq_ok.mp h
    obtain ⟨atEnd, de₁, hat, h⟩ := h
    obtain ⟨n, hn, it, rfl, hwhere⟩ := commaSeparatedAtEnd_ok hend hat
    cases atEnd with
    | true =>
      cases h
      exact ⟨hready.withLexer it, ⟨endTok, [], n, hend, ⟨hn, by simp⟩, trivial, hwhere⟩,
        fun _ _ _ => rfl⟩
    | false =>
      obtain ⟨it₀, hseps, rfl⟩ := hwhere
      replace h := StateExcept.bind_eq_ok.mp h
      obtain ⟨x, de₂, hkey, h⟩ := h
      cases h
      obtain ⟨s, hlex, hready'⟩ := hseed _ _ _ _ (hready.withLexer _) hkey
      refine ⟨hready', ?_, fun e b => Iff.rfl⟩
      rintro d it₁ it₂ hd hvalue ⟨endTok', pairs, trail, hend', ⟨htrail, hones⟩, hpairs, hrest⟩
      refine ⟨endTok', (n, s, d) :: pairs, trail, hend', ⟨htrail, ?_⟩, ⟨hd, hpairs⟩, ?_⟩
      · intro p hp
        rcases List.mem_cons.mp hp with rfl | hp
        · exact hn
        · exact hones p hp
      · have := hseps.append ((Lexes.of_skipIgnored hlex).append (hvalue.append hrest))
        simpa [pairsToks, valuePrefix] using this

end De

/-! ## The dynamic value -/

namespace YsonValue

open De

variable [FloatText]

theorem mapKey_accepts : KeySeedAccepts limit mapKey := by
  intro depth de de' x hready h
  replace h := StateExcept.bind_eq_ok.mp h
  obtain ⟨b, de₁, htake, h⟩ := h
  obtain ⟨rfl, rfl⟩ := takeReadingAttributes_ok hready htake
  simp only [Bool.false_eq_true, if_false] at h
  replace h := StateExcept.bind_eq_ok.mp h
  obtain ⟨c, de₂, hpeek, h⟩ := h
  rw [StateExcept.ite_apply] at h
  split at h
  · -- an attributed key reaches `visit_map`, which the visitor does not have
    obtain ⟨de₃, hvisit, _⟩ := nested_ok h
    replace hvisit := StateExcept.bind_eq_ok.mp hvisit
    obtain ⟨_, _, _, hvisit⟩ := hvisit
    cases hvisit
  · replace h := StateExcept.bind_eq_ok.mp h
    obtain ⟨t, de₃, hnext, h⟩ := h
    obtain ⟨_, it, rfl, hlex⟩ := peek_next_ok hpeek hnext
    cases t with
    | string s =>
      obtain ⟨y, _, heq⟩ := ExceptList.map_eq_ok.mp h
      cases heq
      exact ⟨s, hlex, hready.withLexer it⟩
    | beginList | beginMap | beginAttributes =>
      replace h := StateExcept.bind_eq_ok.mp h
      obtain ⟨_, _, hvisit, _⟩ := h
      obtain ⟨_, hvisit, _⟩ := nested_ok hvisit
      cases hvisit
    | _ => cases h

theorem visitSeqLoop_ok {element : De YsonValue} (helement : SeedAccepts limit element)
    {fuel : Nat} {vec vec' : List YsonValue} {b : Bool} {seq' : SeqAccess}
    (hready : Ready limit depth de)
    (h : visitSeqLoop element fuel vec (.commaSeparated 0x5D b) de = .ok ((vec', seq'), de')) :
    ∃ items trail, trail ≤ 1 ∧ itemsSeparated items ∧
      Lexes de.lexer (itemsToks items ++ (seps trail ++ [.endList])) de'.lexer ∧
      seq'.ended = true ∧ Ready limit depth de' := by
  induction fuel generalizing vec de with
  | zero => cases h
  | succ fuel ih =>
    replace h := StateExcept.bind_eq_ok.mp h
    obtain ⟨⟨r, seq₁⟩, de₁, hnext, h⟩ := h
    replace hnext := StateExcept.bind_eq_ok.mp hnext
    obtain ⟨atEnd, de₂, hat, hnext⟩ := hnext
    obtain ⟨n, hn, it, rfl, hwhere⟩ := commaSeparatedAtEnd_ok closes_list hat
    cases atEnd with
    | true =>
      cases hnext
      cases h
      exact ⟨[], n, hn, trivial, hwhere, rfl, hready.withLexer it⟩
    | false =>
      obtain ⟨it₀, hseps, rfl⟩ := hwhere
      replace hnext := StateExcept.bind_eq_ok.mp hnext
      obtain ⟨v, de₃, helem, hnext⟩ := hnext
      cases hnext
      obtain ⟨d, hd, hlex, hready'⟩ := helement _ _ _ _ (hready.withLexer _) helem
      obtain ⟨items, trail, htrail, hitems, hrest, hended, hready''⟩ := ih hready' h
      refine ⟨(n, d) :: items, trail, htrail, ⟨hn, hd, hitems⟩, ?_, hended, hready''⟩
      have := hseps.append ((lexes_doc_skipIgnored hlex).append hrest)
      simpa [itemsToks] using this

theorem visitMapLoop_ok {value : De YsonValue} (hvalue : SeedAccepts limit value) {fuel : Nat}
    {parts parts' : MapParts} {map map' : MapAccess} (hready : Ready limit depth de)
    (hcloses : ∀ e b, map = .commaSeparated e b → ∃ t, Closes t e)
    (h : visitMapLoop value fuel parts map de = .ok ((parts', map'), de')) :
    Accepted map de.lexer de'.lexer ∧ (∀ e b, map = .commaSeparated e b → map'.ended) ∧
      Ready limit depth de' := by
  induction fuel generalizing parts map de with
  | zero => cases h
  | succ fuel ih =>
    replace h := StateExcept.bind_eq_ok.mp h
    obtain ⟨⟨key, map₁⟩, de₁, hkey, h⟩ := h
    have haccepts := nextKey_ok hready mapKey_accepts hcloses hkey
    cases key with
    | none =>
      cases h
      exact ⟨haccepts.2.1, haccepts.2.2, haccepts.1⟩
    | some k =>
      replace h := StateExcept.bind_eq_ok.mp h
      obtain ⟨v, de₂, hv, h⟩ := h
      obtain ⟨hready₁, hpending, hsame⟩ := haccepts
      obtain ⟨d, hd, hlex, hready₂⟩ := nextValue_ok hready₁ hvalue hv
      have hcloses' : ∀ e b, map₁ = .commaSeparated e b → ∃ t, Closes t e :=
        fun e b he => hcloses e b ((hsame e b).mpr he)
      obtain ⟨hacc, hended, hready'⟩ := ih hready₂ hcloses' h
      exact ⟨hpending d _ _ hd hlex hacc, fun e b he => hended _ _ ((hsame e b).mp he), hready'⟩

theorem visitSeq_ok {element : De YsonValue} (helement : SeedAccepts limit element) {v : YsonValue}
    {seq' : SeqAccess} (hready : Ready limit depth de)
    (h : (visitor element).visitSeq (.commaSeparated 0x5D false) de = .ok ((v, seq'), de')) :
    ∃ items trail, trail ≤ 1 ∧ itemsSeparated items ∧
      Lexes de.lexer (itemsToks items ++ (seps trail ++ [.endList])) de'.lexer ∧
      seq'.ended = true ∧ Ready limit depth de' := by
  replace h := StateExcept.bind_eq_ok.mp h
  obtain ⟨n, de₁, hbudget, h⟩ := h
  cases hbudget
  replace h := StateExcept.bind_eq_ok.mp h
  obtain ⟨⟨vec, seq₁⟩, de₂, hloop, h⟩ := h
  cases h
  exact visitSeqLoop_ok helement hready hloop

theorem visitMap_ok {value : De YsonValue} (hvalue : SeedAccepts limit value) {v : YsonValue}
    {map map' : MapAccess} (hready : Ready limit depth de)
    (hcloses : ∀ e b, map = .commaSeparated e b → ∃ t, Closes t e)
    (h : (visitor value).visitMap map de = .ok ((v, map'), de')) :
    Accepted map de.lexer de'.lexer ∧ (∀ e b, map = .commaSeparated e b → map'.ended) ∧
      Ready limit depth de' := by
  replace h := StateExcept.bind_eq_ok.mp h
  obtain ⟨n, de₁, hbudget, h⟩ := h
  cases hbudget
  replace h := StateExcept.bind_eq_ok.mp h
  obtain ⟨⟨parts, map₁⟩, de₂, hloop, h⟩ := h
  replace h := StateExcept.bind_eq_ok.mp h
  obtain ⟨w, de₃, hfin, h⟩ := h
  cases h
  obtain ⟨w', _, heq⟩ := ExceptList.map_eq_ok.mp hfin
  cases heq
  exact visitMapLoop_ok hvalue hready hcloses hloop

/-- Leaving a container whose visitor read its terminator. -/
theorem container_ok {β : Type} {visit : De (α × β)} {ended : β → Bool} {endByte : UInt8} {v : α}
    (h : (do let value ← visitCommaSeparated visit ended; endContainer endByte; pure value : De α) de
      = .ok (v, de')) :
    ∃ access de₁, visit de.deeper = .ok ((v, access), de₁) ∧
      (ended access = true →
        de' = { de₁ with containerEnded := true, depth := de₁.depth - 1 }) := by
  replace h := StateExcept.bind_eq_ok.mp h
  obtain ⟨w, de₂, hnested, h⟩ := h
  obtain ⟨de₁, hvisit, rfl⟩ := nested_ok hnested
  replace hvisit := StateExcept.bind_eq_ok.mp hvisit
  obtain ⟨⟨u, access⟩, de₃, hvisit, hmodify⟩ := hvisit
  cases hmodify
  replace h := StateExcept.bind_eq_ok.mp h
  obtain ⟨_, de₄, hend, h⟩ := h
  cases h
  refine ⟨access, de₃, hvisit, fun hended => ?_⟩
  have := endContainer_ok (by simpa using hended) hend
  rw [this, hended]

theorem visitFlatStruct_ok {value : De YsonValue} (hvalue : SeedAccepts limit value) {v : YsonValue}
    {de₁ : Deserializer} (hready : Ready limit depth de)
    (hpeek : De.peekByte de = .ok (0x3C, de₁))
    (h : visitFlatStruct (visitor value) de₁ = .ok (v, de')) :
    ∃ d : Doc, d.SingleSep ∧ Lexes de.lexer d.toks de'.lexer ∧ Ready limit depth de' := by
  cases peekByte_ok hpeek
  obtain ⟨de₂, hvisit, rfl⟩ := nested_ok h
  replace hvisit := StateExcept.bind_eq_ok.mp hvisit
  obtain ⟨state, de₃, hstart, hvisit⟩ := hvisit
  replace hstart := StateExcept.bind_eq_ok.mp hstart
  obtain ⟨c, de₄, hpeek', hstart⟩ := hstart
  obtain rfl : c = 0x3C := peekByte_again hpeek hpeek' rfl
  rw [StateExcept.ite_apply, if_pos rfl] at hstart
  replace hstart := StateExcept.bind_eq_ok.mp hstart
  obtain ⟨t, de₅, hnext, hstart⟩ := hstart
  cases hstart
  obtain ⟨_, it, rfl, hbegin⟩ := peek_take_ok (u := .beginAttributes) hpeek' hnext rfl
  replace hvisit := StateExcept.bind_eq_ok.mp hvisit
  obtain ⟨⟨w, map'⟩, de₆, hmap, hvisit⟩ := hvisit
  cases hvisit
  obtain ⟨⟨pairs, trail, body, hpairs, hbody, hrest⟩, _, hready'⟩ :=
    visitMap_ok hvalue ((hready.withLexer _).deeper.withLexer it) (by simp) hmap
  refine ⟨.attributed pairs trail body, ⟨hpairs, hbody⟩, ?_,
    ready_leave hready' _⟩
  rw [Doc.toks]
  exact (Lexes.of_skipIgnored hbegin).append hrest

/-- **The decoder accepts documents only.** -/
theorem deserialize_accepts (fuel : Nat) : SeedAccepts limit (deserialize fuel) := by
  induction fuel with
  | zero =>
    intro depth de de' v _ h
    cases h
  | succ fuel ih =>
    intro depth de de' v hready h
    replace h := StateExcept.bind_eq_ok.mp h
    obtain ⟨b, de₁, htake, h⟩ := h
    obtain ⟨rfl, rfl⟩ := takeReadingAttributes_ok hready htake
    simp only [Bool.false_eq_true, if_false] at h
    replace h := StateExcept.bind_eq_ok.mp h
    obtain ⟨c, de₂, hpeek, h⟩ := h
    rw [StateExcept.ite_apply] at h
    split at h
    · rename_i hc
      subst hc
      exact visitFlatStruct_ok ih hready hpeek h
    · replace h := StateExcept.bind_eq_ok.mp h
      obtain ⟨t, de₃, hnext, h⟩ := h
      obtain ⟨hlead, it, rfl, hlex⟩ := peek_next_ok hpeek hnext
      have hscalar : ∀ (s : Scalar), s.token = t → ofExcept (visitScalar (visitor (deserialize fuel)) s)
          (de.withLexer it) = .ok (v, de') → ∃ d : Doc, d.SingleSep ∧
            Lexes de.lexer d.toks de'.lexer ∧ Ready limit depth de' := by
        rintro s rfl h
        obtain ⟨w, _, heq⟩ := ExceptList.map_eq_ok.mp h
        cases heq
        exact ⟨.scalar s, trivial, hlex, hready.withLexer it⟩
      cases t with
      | string s => exact hscalar (.string s) rfl h
      | int64 s => exact hscalar (.int64 s) rfl h
      | uint64 s => exact hscalar (.uint64 s) rfl h
      | double s => exact hscalar (.double s) rfl h
      | boolean s => exact hscalar (.boolean s) rfl h
      | entity =>
        replace h : ofExcept (.ok (YsonValue.bare .entity)) (de.withLexer it) = .ok (v, de') := h
        cases h
        exact ⟨.entity, trivial, hlex, hready.withLexer it⟩
      | beginList =>
        obtain ⟨access, de₁, hvisit, hleave⟩ := container_ok h
        obtain ⟨items, trail, htrail, hitems, hrest, hended, hready'⟩ :=
          visitSeq_ok ih (hready.withLexer it).deeper hvisit
        cases hleave hended
        refine ⟨.list items trail, ⟨htrail, hitems⟩, ?_, ready_leave hready' _⟩
        rw [Doc.toks]
        exact hlex.append hrest
      | beginMap =>
        obtain ⟨access, de₁, hvisit, hleave⟩ := container_ok h
        obtain ⟨⟨endTok, pairs, trail, hend, hseps, hpairs, hrest⟩, hended, hready'⟩ :=
          visitMap_ok ih (hready.withLexer it).deeper
            (fun e b he => by cases he; exact ⟨_, closes_map⟩) hvisit
        cases hleave (hended _ _ rfl)
        have hmap : endTok = .endMap := closes_unique hend closes_map
        subst hmap
        refine ⟨.map pairs trail, ⟨fun _ => hseps, hpairs⟩, ?_, ready_leave hready' _⟩
        rw [Doc.toks]
        exact hlex.append hrest
      | beginAttributes =>
        rename_i hc
        exact absurd ((hlead.eq_iff (u := .beginAttributes) rfl).mpr rfl) hc
      | endAttributes | endList | endMap | keyValueSeparator | itemSeparator => cases h

end YsonValue

end Ytsaurus.Yson
