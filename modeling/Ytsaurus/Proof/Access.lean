import Ytsaurus.Proof.Tokens
import Ytsaurus.Grammar.Doc

/-!
# `Proof/Access.lean` — the deserializer on a document

What the access objects do when the tokens ahead are those of a document: which keys and
elements they offer, where the lexer stands afterwards, and that a visitor run in between
sees exactly the nested document. `Reads` is the shape of every such statement: a run ends
at a given place with a given result, or fails with a given error, and touches nothing else.

There are two kinds of access for maps. `CommaSeparated` goes along the entries of a map;
`FlatStructAccess` shows an attribute block and the body behind it as one map, whose keys are
the attributes' with an `@` and those of the body, or `$value` for a body that is no map. It is a
small state machine of its own, and its states are where the cases of this module come from.
`Presents map it E it'` is the view of both from outside: the access `map` at `it` offers the
entries `E` and is through at `it'`. A visitor that is shown to do something with a list of
entries has been shown to do it with either.

So there are two lemmas a visitor needs (`nextKey_nil`, `nextKey_cons`), and they hold for any
key seed that reads a string token and any value seed that reads the nested document
(`KeyReads`, `SeedReads`). `Offers` packs what `next_key` and the `next_value` behind it do into
one predicate, so that a visitor's loop is an induction on `E` and never sees a token.
-/

set_option autoImplicit false

namespace Ytsaurus.Yson

variable {α β κ : Type}

/-! ## The state around a run -/

def Deserializer.withLexer (de : Deserializer) (it : YsonIterator) : Deserializer :=
  { de with lexer := it }

section WithLexer

variable (de : Deserializer) (it it' : YsonIterator)

@[simp] theorem withLexer_lexer : (de.withLexer it).lexer = it := rfl
@[simp] theorem withLexer_depth : (de.withLexer it).depth = de.depth := rfl
@[simp] theorem withLexer_maxDepth : (de.withLexer it).maxDepth = de.maxDepth := rfl
@[simp] theorem withLexer_isReadingAttributes :
    (de.withLexer it).isReadingAttributes = de.isReadingAttributes := rfl
@[simp] theorem withLexer_withLexer : (de.withLexer it).withLexer it' = de.withLexer it' := rfl

end WithLexer

/-- The state between values: not in attribute position, at nesting depth `depth`. -/
structure Ready (limit depth : Nat) (de : Deserializer) : Prop where
  plain : de.isReadingAttributes = false
  depth : de.depth = depth
  limit : de.maxDepth = limit

theorem Ready.withLexer {limit depth : Nat} {de : Deserializer} (h : Ready limit depth de)
    (it : YsonIterator) : Ready limit depth (de.withLexer it) := ⟨h.plain, h.depth, h.limit⟩

/-- `run` started in `de` gives `r`; a success leaves the lexer at `it'`. -/
def Reads (de : Deserializer) (it' : YsonIterator) (r : Except YsonError α)
    (run : Except YsonError (α × Deserializer)) : Prop :=
  match r with
  | .ok v => ∃ ended, run = .ok (v, { de with lexer := it', containerEnded := ended })
  | .error e => run = .error e

/-- On document `d`, at `depth`, the seed gives `r` and consumes exactly the document. -/
def SeedReads (limit depth : Nat) (seed : De α) (d : Doc) (r : Except YsonError α)
    [FloatText] : Prop :=
  ∀ (de : Deserializer) (it' : YsonIterator), Lexes de.lexer d.toks it' → Ready limit depth de →
    Reads de it' r (seed de)

theorem Reads.ok {de : Deserializer} {it' : YsonIterator} {v : α} {ended : Bool}
    {run : Except YsonError (α × Deserializer)}
    (h : run = .ok (v, { de with lexer := it', containerEnded := ended })) :
    Reads de it' (.ok v) run := ⟨ended, h⟩

/-- Continue a run with the next statement. -/
theorem Reads.bind {de : Deserializer} {it₁ it' : YsonIterator} {r : Except YsonError α}
    {x : De α} {f : α → De β} {g : α → Except YsonError β} (h : Reads de it₁ r (x de))
    (hf : ∀ v ended, r = .ok v →
      Reads de it' (g v) (f v { de with lexer := it₁, containerEnded := ended })) :
    Reads de it' (r.bind g) ((x >>= f) de) := by
  cases r with
  | error e => exact StateExcept.bind_error h
  | ok v =>
    obtain ⟨ended, h⟩ := h
    have := hf v ended rfl
    rwa [StateExcept.bind_ok h]

/-- A pure step at the end of a run. -/
theorem Reads.map {de : Deserializer} {it' : YsonIterator} {r : Except YsonError α}
    {x : De α} {f : α → β} (h : Reads de it' r (x de)) :
    Reads de it' (r.map f) ((x >>= fun v => pure (f v)) de) := by
  cases r with
  | error e => exact StateExcept.bind_error h
  | ok v =>
    obtain ⟨ended, h⟩ := h
    exact ⟨ended, StateExcept.bind_ok h⟩

namespace De

@[simp] theorem budget_apply (de : Deserializer) :
    budget de = .ok (de.lexer.rest.length + 1, de) := rfl

@[simp] theorem ofExcept_apply (x : Except YsonError α) (de : Deserializer) :
    ofExcept x de = x.map fun a => (a, de) := rfl

theorem takeReadingAttributes_plain {de : Deserializer}
    (h : de.isReadingAttributes = false) :
    takeReadingAttributes de = .ok (false, de) := by
  cases de
  simp only at h
  subst h
  rfl

variable [FloatText] {de : Deserializer} {it' : YsonIterator} {t : Token} {ts : List Token}

theorem peekByte_of_lexes (de : Deserializer) (h : Lexes de.lexer (t :: ts) it') :
    ∃ b, De.peekByte de = .ok (b, de.withLexer de.lexer.skipIgnored) ∧ Leads b t := by
  obtain ⟨b, hpeek, hlead⟩ := h.peek
  exact ⟨b, by rw [De.peekByte, lex, hpeek]; rfl, hlead⟩

theorem nextToken_of_lexes (de : Deserializer) (h : Lexes de.lexer (t :: ts) it') :
    ∃ it₁, De.nextToken de = .ok (t, de.withLexer it₁) ∧ Lexes it₁ ts it' := by
  obtain ⟨it₁, hnext, hrest⟩ := Lexes.cons_iff.mp h
  exact ⟨it₁, by rw [De.nextToken, lex, hnext]; rfl, hrest⟩

/-- Peek, then read: the two steps on one token. -/
theorem peek_next_of_lexes (de : Deserializer) (h : Lexes de.lexer (t :: ts) it') :
    ∃ b it₁, De.peekByte de = .ok (b, de.withLexer de.lexer.skipIgnored) ∧ Leads b t ∧
      De.nextToken (de.withLexer de.lexer.skipIgnored) = .ok (t, de.withLexer it₁) ∧
      Lexes it₁ ts it' := by
  obtain ⟨b, hpeek, hlead⟩ := peekByte_of_lexes de h
  obtain ⟨it₁, hnext, hrest⟩ := nextToken_of_lexes (de.withLexer de.lexer.skipIgnored)
    h.skipIgnored
  exact ⟨b, it₁, hpeek, hlead, hnext, hrest⟩

end De

/-! ## First tokens -/

/-- A value can start with this token. -/
def Token.startsValue : Token → Bool
  | .endAttributes | .endList | .endMap | .keyValueSeparator | .itemSeparator => false
  | _ => true

theorem Doc.toks_head (d : Doc) : ∃ t ts, d.toks = t :: ts ∧ t.startsValue := by
  cases d with
  | scalar s => cases s <;> exact ⟨_, _, rfl, rfl⟩
  | entity => exact ⟨_, _, rfl, rfl⟩
  | list items trail => exact ⟨_, _, by rw [Doc.toks], rfl⟩
  | map pairs trail => exact ⟨_, _, by rw [Doc.toks], rfl⟩
  | attributed pairs trail body => exact ⟨_, _, by rw [Doc.toks], rfl⟩

theorem Doc.toks_length_pos (d : Doc) : 0 < d.toks.length := by
  obtain ⟨t, ts, h, _⟩ := d.toks_head
  simp [h]

theorem pairsToks_length (pairs : List (Nat × List UInt8 × Doc)) :
    pairs.length ≤ (pairsToks pairs).length := by
  induction pairs with
  | nil => simp
  | cons p pairs ih =>
    obtain ⟨n, k, d⟩ := p
    simp only [pairsToks, List.length_append, List.length_cons]
    omega

theorem itemsToks_length (items : List (Nat × Doc)) : items.length ≤ (itemsToks items).length := by
  induction items with
  | nil => simp
  | cons p items ih =>
    obtain ⟨n, d⟩ := p
    have := d.toks_length_pos
    simp only [itemsToks, List.length_append, List.length_cons]
    omega

theorem bodyEntries_length (body : Doc) : (bodyEntries body).length ≤ body.toks.length := by
  cases body with
  | map pairs trail =>
    have := pairsToks_length pairs
    simp only [bodyEntries, mapEntries, List.length_map, Doc.toks, List.length_cons,
      List.length_append]
    omega
  | entity => simp [bodyEntries]
  | scalar s => exact Doc.toks_length_pos _
  | list items trail => exact Doc.toks_length_pos _
  | attributed pairs trail body => exact Doc.toks_length_pos _

theorem seps_zero : seps 0 = [] := rfl

theorem seps_succ (n : Nat) : seps (n + 1) = .itemSeparator :: seps n := rfl

/-- A closing bracket. -/
structure Closes (t : Token) (endByte : UInt8) : Prop where
  lead : t.lead = some endByte
  stops : t.startsValue = false
  notSeparator : t ≠ .itemSeparator

theorem closes_list : Closes .endList 0x5D := ⟨rfl, rfl, by decide⟩
theorem closes_map : Closes .endMap 0x7D := ⟨rfl, rfl, by decide⟩
theorem closes_attributes : Closes .endAttributes 0x3E := ⟨rfl, rfl, by decide⟩

theorem utf8Valid_valueKey : utf8Valid valueKey = true := by decide +kernel

/-- The first token of a body decides how it is offered. -/
theorem bodyEntries_cases (body : Doc) :
    (∃ pairs trail, body = .map pairs trail) ∨ body = .entity ∨
      (bodyEntries body = [(valueKey, body)] ∧
        ∃ t ts, body.toks = t :: ts ∧ t ≠ .beginMap ∧ t ≠ .entity) := by
  cases body with
  | map pairs trail => exact Or.inl ⟨_, _, rfl⟩
  | entity => exact Or.inr (Or.inl rfl)
  | scalar s =>
    refine Or.inr (Or.inr ⟨rfl, s.token, [], by rw [Doc.toks], ?_⟩)
    cases s <;> exact ⟨by simp [Scalar.token], by simp [Scalar.token]⟩
  | list items trail =>
    exact Or.inr (Or.inr ⟨rfl, _, _, by rw [Doc.toks], by decide, by decide⟩)
  | attributed pairs trail body =>
    exact Or.inr (Or.inr ⟨rfl, _, _, by rw [Doc.toks], by decide, by decide⟩)

namespace De

variable [FloatText] {de : Deserializer} {it' : YsonIterator} {t : Token} {ts : List Token}
  {endTok : Token} {endByte : UInt8} {n : Nat}

/-! ## `CommaSeparated` between elements -/

theorem commaSeparatedAtEnd_close (hend : Closes endTok endByte) (hn : n ≤ 1)
    (h : Lexes de.lexer (seps n ++ (endTok :: ts)) it') :
    ∃ it₁, commaSeparatedAtEnd endByte de = .ok (true, de.withLexer it₁) ∧ Lexes it₁ ts it' := by
  rcases Nat.le_one_iff_eq_zero_or_eq_one.mp hn with rfl | rfl
  · obtain ⟨b, it₁, hpeek, hlead, hnext, hrest⟩ := peek_next_of_lexes de h
    refine ⟨it₁, ?_, hrest⟩
    rw [commaSeparatedAtEnd, StateExcept.bind_ok hpeek]
    rw [StateExcept.ite_apply, if_pos ((hlead.eq_iff hend.lead).mpr rfl), StateExcept.bind_ok hnext]
    rfl
  · obtain ⟨b, it₁, hpeek, hlead, hnext, hrest⟩ := peek_next_of_lexes de h
    obtain ⟨c, it₂, hpeek', hlead', hnext', hrest'⟩ :=
      peek_next_of_lexes (de.withLexer it₁) hrest
    refine ⟨it₂, ?_, hrest'⟩
    have hb : b ≠ endByte := fun hb => hend.notSeparator ((hlead.eq_iff hend.lead).mp hb).symm
    have hb' : b = 0x3B := (hlead.eq_iff (u := .itemSeparator) rfl).mpr rfl
    have hc : c = endByte := (hlead'.eq_iff hend.lead).mpr rfl
    rw [commaSeparatedAtEnd, StateExcept.bind_ok hpeek]
    rw [StateExcept.ite_apply, if_neg hb, StateExcept.ite_apply, if_pos hb',
      StateExcept.bind_ok hnext, StateExcept.bind_ok hpeek', StateExcept.ite_apply, if_pos hc,
      StateExcept.bind_ok hnext']
    rfl

theorem commaSeparatedAtEnd_item (hend : Closes endTok endByte) (hn : n ≤ 1)
    (ht : t.startsValue) (h : Lexes de.lexer (seps n ++ (t :: ts)) it') :
    ∃ it₁, commaSeparatedAtEnd endByte de = .ok (false, de.withLexer it₁) ∧
      Lexes it₁ (t :: ts) it' := by
  have hne : t ≠ endTok := by
    rintro rfl
    rw [hend.stops] at ht
    cases ht
  rcases Nat.le_one_iff_eq_zero_or_eq_one.mp hn with rfl | rfl
  · obtain ⟨b, hpeek, hlead⟩ := peekByte_of_lexes de h
    refine ⟨_, ?_, h.skipIgnored⟩
    have hb : b ≠ endByte := fun hb => hne ((hlead.eq_iff hend.lead).mp hb)
    have hb' : b ≠ 0x3B := by
      intro hb'
      rw [(hlead.eq_iff (u := .itemSeparator) rfl).mp hb'] at ht
      cases ht
    rw [commaSeparatedAtEnd, StateExcept.bind_ok hpeek]
    rw [StateExcept.ite_apply, if_neg hb, StateExcept.ite_apply, if_neg hb']
    rfl
  · obtain ⟨b, it₁, hpeek, hlead, hnext, hrest⟩ := peek_next_of_lexes de h
    obtain ⟨c, hpeek', hlead'⟩ := peekByte_of_lexes (de.withLexer it₁) hrest
    refine ⟨_, ?_, Lexes.skipIgnored hrest⟩
    have hb : b ≠ endByte := fun hb => hend.notSeparator ((hlead.eq_iff hend.lead).mp hb).symm
    have hb' : b = 0x3B := (hlead.eq_iff (u := .itemSeparator) rfl).mpr rfl
    have hc : c ≠ endByte := fun hc => hne ((hlead'.eq_iff hend.lead).mp hc)
    rw [commaSeparatedAtEnd, StateExcept.bind_ok hpeek]
    rw [StateExcept.ite_apply, if_neg hb, StateExcept.ite_apply, if_pos hb',
      StateExcept.bind_ok hnext, StateExcept.bind_ok hpeek', StateExcept.ite_apply, if_neg hc]
    rfl

/-- After the end of a sequence. -/
theorem nextElement_close (hend : Closes endTok endByte) (hn : n ≤ 1)
    (h : Lexes de.lexer (seps n ++ [endTok]) it') (seed : De α) (ended : Bool) :
    nextElement seed (.commaSeparated endByte ended) de
      = .ok ((none, .commaSeparated endByte true), de.withLexer it') := by
  obtain ⟨it₁, hat, hrest⟩ := commaSeparatedAtEnd_close hend hn h
  cases Lexes.nil_iff.mp hrest
  rw [nextElement, StateExcept.bind_ok hat]
  rfl

/-- In front of an element the seed runs on that element. -/
theorem nextElement_item {limit depth : Nat} {d : Doc} {it₁ : YsonIterator} {seed : De α}
    {r : Except YsonError α} (hend : Closes endTok endByte) (hn : n ≤ 1)
    (h : Lexes de.lexer (seps n ++ d.toks) it₁) (hready : Ready limit depth de)
    (hseed : SeedReads limit depth seed d r) (ended : Bool) :
    Reads de it₁ (r.map fun v => (some v, SeqAccess.commaSeparated endByte ended))
      (nextElement seed (.commaSeparated endByte ended) de) := by
  obtain ⟨t, ts, htoks, ht⟩ := d.toks_head
  rw [htoks] at h
  obtain ⟨it₂, hat, hrest⟩ := commaSeparatedAtEnd_item hend hn ht h
  rw [← htoks] at hrest
  rw [nextElement, StateExcept.bind_ok hat]
  exact (hseed (de.withLexer it₂) it₁ hrest (hready.withLexer it₂)).map

/-! ## The entries a `MapAccess` offers -/

/-- `map` at `it` offers the entries `E`, and is through with them at `it'`. -/
inductive Presents : MapAccess → YsonIterator → List (List UInt8 × Doc) → YsonIterator → Prop where
  | empty (it : YsonIterator) : Presents .empty it [] it
  | done (b : Bool) (it : YsonIterator) : Presents (.flatStruct .done b) it [] it
  | valueOnly {b : Bool} {it it' : YsonIterator} {d : Doc} (h : Lexes it d.toks it') :
    Presents (.flatStruct .valueOnly b) it [(valueKey, d)] it'
  | body {b : Bool} {it it' : YsonIterator} {pairs : List (Nat × List UInt8 × Doc)} {trail : Nat}
    (h : Lexes it (pairsToks pairs ++ (seps trail ++ [.endMap])) it') :
    Presents (.flatStruct .body b) it (mapEntries pairs) it'
  | attributes {b : Bool} {it it' : YsonIterator} {pairs : List (Nat × List UInt8 × Doc)}
    {trail : Nat} {body : Doc}
    (h : Lexes it (pairsToks pairs ++ (seps trail ++ (.endAttributes :: body.toks))) it') :
    Presents (.flatStruct .attributes b) it (attributeEntries pairs ++ bodyEntries body) it'
  | comma {it it' : YsonIterator} {pairs : List (Nat × List UInt8 × Doc)} {trail : Nat}
    {endTok : Token} {endByte : UInt8} (hend : Closes endTok endByte)
    (hseps : ∀ p ∈ pairs, p.1 ≤ 1) (htrail : trail ≤ 1)
    (h : Lexes it (pairsToks pairs ++ (seps trail ++ [endTok])) it') :
    Presents (.commaSeparated endByte false) it (mapEntries pairs) it'

/-- What a key seed makes of the byte string `k`, whichever way it is offered. -/
structure KeyReads (seed : KeySeed κ) (k : List UInt8) (r : Except YsonError κ) : Prop where
  token : ∀ {limit depth : Nat} (de : Deserializer) (it' : YsonIterator),
    Lexes de.lexer [.string k] it' → Ready limit depth de →
    seed.deserialize de = r.map fun x => (x, de.withLexer it')
  bytes : seed.visitor.visitBytes k = r
  str : utf8Valid k → seed.visitor.visitStr k = r

/-- `next_value` expects `=` unless the entry is a body offered as `$value`. -/
theorem nextValue_eq {map : MapAccess} {d : Doc} {seed : De α} {r : Except YsonError α}
    {limit depth : Nat} {it₁ : YsonIterator} (hready : Ready limit depth de)
    (hseed : SeedReads limit depth seed d r)
    (hmap : (∃ s, map = .flatStruct s false) ∨ ∃ e b, map = .commaSeparated e b)
    (h : Lexes de.lexer (.keyValueSeparator :: d.toks) it₁) :
    Reads de it₁ r (nextValue seed map de) := by
  obtain ⟨it₂, hnext, hrest⟩ := nextToken_of_lexes de h
  have hsep : expectKeyValueSeparator de = .ok ((), de.withLexer it₂) := by
    rw [expectKeyValueSeparator, StateExcept.bind_ok hnext]
    rfl
  rcases hmap with ⟨s, rfl⟩ | ⟨e, b, rfl⟩ <;>
  · rw [nextValue, StateExcept.bind_ok hsep]
    exact hseed (de.withLexer it₂) it₁ hrest (hready.withLexer it₂)

/-- `run` is a `next_key` that offers an entry with document `d`: the key is read as `r`,
`next_value` then reads `d`, and afterwards `after` holds of the access and the lexer. -/
def Offers (limit depth : Nat) (de : Deserializer) (d : Doc) (r : Except YsonError κ)
    (run : Except YsonError ((Option κ × MapAccess) × Deserializer))
    (after : MapAccess → YsonIterator → Prop) : Prop :=
  match r with
  | .error e => run = .error e
  | .ok x => ∃ map it₁ it₂, run = .ok ((some x, map), de.withLexer it₁) ∧
    (∀ (α : Type) (seed : De α) (r' : Except YsonError α), SeedReads limit depth seed d r' →
      Reads de it₂ r' (nextValue seed map (de.withLexer it₁))) ∧ after map it₂

theorem Offers.imp {limit depth : Nat} {d : Doc} {r : Except YsonError κ}
    {run : Except YsonError ((Option κ × MapAccess) × Deserializer)}
    {after after' : MapAccess → YsonIterator → Prop} (h : Offers limit depth de d r run after)
    (himp : ∀ map it, after map it → after' map it) : Offers limit depth de d r run after' := by
  cases r with
  | error e => exact h
  | ok x =>
    obtain ⟨map, it₁, it₂, hrun, hvalue, hafter⟩ := h
    exact ⟨map, it₁, it₂, hrun, hvalue, himp _ _ hafter⟩

section Step

variable {limit depth : Nat} {d : Doc} {k : List UInt8} {seed : KeySeed κ}
  {r : Except YsonError κ} {tail : List Token} {map : MapAccess}

theorem lexes_key (h : Lexes de.lexer (.string k :: ts) it') :
    ∃ it₁, Lexes de.lexer [.string k] it₁ ∧ Lexes it₁ ts it' :=
  Lexes.append_iff.mp (show Lexes de.lexer ([.string k] ++ ts) it' from h)

theorem lexes_value {it : YsonIterator} (h : Lexes it (t :: (d.toks ++ tail)) it') :
    ∃ it₁, Lexes it (t :: d.toks) it₁ ∧ Lexes it₁ tail it' :=
  Lexes.append_iff.mp (show Lexes it ((t :: d.toks) ++ tail) it' from h)

/-- A key token was met and the value follows behind `=`. -/
theorem offers_token (de : Deserializer) (hready : Ready limit depth de) (hkey : KeyReads seed k r)
    (hmap : (∃ s, map = .flatStruct s false) ∨ ∃ e b, map = .commaSeparated e b)
    (h : Lexes de.lexer (.string k :: .keyValueSeparator :: (d.toks ++ tail)) it') :
    Offers limit depth de d r ((do let key ← seed.deserialize; pure (some key, map) : De _) de)
      fun map' it => map' = map ∧ Lexes it tail it' := by
  obtain ⟨it₁, hstring, hrest⟩ := lexes_key h
  have hrun := hkey.token de it₁ hstring hready
  cases r with
  | error e => exact StateExcept.bind_error hrun
  | ok x =>
    obtain ⟨it₂, hvalue, htail⟩ := lexes_value hrest
    refine ⟨map, it₁, it₂, StateExcept.bind_ok hrun, fun α vseed r' hseed => ?_, rfl, htail⟩
    exact nextValue_eq (hready.withLexer it₁) hseed hmap hvalue

/-! ## `FlatStructAccess` -/

theorem nextKeyBody_seps (de : Deserializer) {fuel : Nat} (hfuel : n < fuel)
    (h : Lexes de.lexer (seps n ++ ts) it') :
    ∃ it₁ fuel', nextKeyBody seed fuel de = nextKeyBody seed (fuel' + 1) (de.withLexer it₁) ∧
      Lexes it₁ ts it' := by
  induction n generalizing de fuel with
  | zero => exact ⟨de.lexer, fuel - 1, by rw [Nat.sub_add_cancel hfuel]; rfl, h⟩
  | succ n ih =>
    obtain ⟨fuel, rfl⟩ : ∃ m, fuel = m + 1 := ⟨fuel - 1, by omega⟩
    obtain ⟨b, it₁, hpeek, hlead, hnext, hrest⟩ := peek_next_of_lexes de h
    obtain ⟨it₂, fuel', hrun, hlex⟩ := ih (de.withLexer it₁) (show n < fuel by omega) hrest
    have hb : b = 0x3B := (hlead.eq_iff (u := .itemSeparator) rfl).mpr rfl
    refine ⟨it₂, fuel', ?_, hlex⟩
    rw [nextKeyBody, StateExcept.bind_ok hpeek]
    rw [StateExcept.ite_apply, if_neg (by rw [hb]; decide), StateExcept.ite_apply, if_pos hb,
      StateExcept.bind_ok hnext]
    exact hrun

theorem nextKeyBody_end {fuel trail : Nat} (hfuel : trail < fuel)
    (h : Lexes de.lexer (seps trail ++ [.endMap]) it') :
    nextKeyBody seed fuel de = .ok ((none, .flatStruct .done false), de.withLexer it') := by
  obtain ⟨it₁, fuel', hrun, hlex⟩ := nextKeyBody_seps de hfuel h
  obtain ⟨b, it₂, hpeek, hlead, hnext, hrest⟩ := peek_next_of_lexes (de.withLexer it₁) hlex
  cases Lexes.nil_iff.mp hrest
  rw [hrun, nextKeyBody, StateExcept.bind_ok hpeek]
  rw [StateExcept.ite_apply, if_pos ((hlead.eq_iff (u := .endMap) rfl).mpr rfl),
    StateExcept.bind_ok hnext]
  rfl

theorem nextKeyBody_pair {fuel : Nat} (hready : Ready limit depth de) (hkey : KeyReads seed k r)
    (hfuel : n < fuel)
    (h : Lexes de.lexer (seps n ++ (.string k :: .keyValueSeparator :: (d.toks ++ tail))) it') :
    Offers limit depth de d r (nextKeyBody seed fuel de)
      fun map it => map = .flatStruct .body false ∧ Lexes it tail it' := by
  obtain ⟨it₁, fuel', hrun, hlex⟩ := nextKeyBody_seps de hfuel h
  obtain ⟨b, hpeek, hlead⟩ := peekByte_of_lexes (de.withLexer it₁) hlex
  have hend : b ≠ 0x7D := fun hb => by cases (hlead.eq_iff (u := .endMap) rfl).mp hb
  have hsep : b ≠ 0x3B := fun hb => by cases (hlead.eq_iff (u := .itemSeparator) rfl).mp hb
  rw [hrun, nextKeyBody, StateExcept.bind_ok hpeek]
  rw [StateExcept.ite_apply, if_neg hend, StateExcept.ite_apply, if_neg hsep]
  exact offers_token (de.withLexer it₁.skipIgnored) (hready.withLexer _) hkey
    (Or.inl ⟨_, rfl⟩) hlex.skipIgnored

/-- The body of a flat struct, or what is left of it. -/
theorem nextKeyBody_pairs {fuel : Nat} {pairs : List (Nat × List UInt8 × Doc)} {trail : Nat}
    {E : List (List UInt8 × Doc)} (hready : Ready limit depth de) (hkey : KeyReads seed k r)
    (hfuel : de.lexer.rest.length < fuel)
    (h : Lexes de.lexer (pairsToks pairs ++ (seps trail ++ [.endMap])) it')
    (hE : mapEntries pairs = (k, d) :: E) :
    Offers limit depth de d r (nextKeyBody seed fuel de) fun map it => Presents map it E it' := by
  cases pairs with
  | nil => cases hE
  | cons p pairs =>
    obtain ⟨n, k', d'⟩ := p
    cases hE
    have hlen := h.length_le
    simp only [pairsToks, List.append_assoc, List.cons_append] at h
    refine (nextKeyBody_pair hready hkey ?_ h).imp ?_
    · simp only [pairsToks, List.length_append, seps, List.length_replicate] at hlen
      omega
    · rintro map it ⟨rfl, htail⟩
      exact .body htail

/-- A body that is neither a map nor an entity is offered whole under `$value`. -/
theorem nextKeyValueOnly_doc (hready : Ready limit depth de) (hkey : KeyReads seed valueKey r)
    (h : Lexes de.lexer d.toks it') :
    Offers limit depth de d r (nextKeyValueOnly seed de)
      fun map it => map = .flatStruct .done true ∧ it = it' := by
  have hrun : ofExcept (seed.visitor.visitStr (ascii "$value")) de = r.map fun x => (x, de) := by
    rw [← hkey.str utf8Valid_valueKey]
    rfl
  cases r with
  | error e => exact StateExcept.bind_error hrun
  | ok x =>
    refine ⟨_, de.lexer, it', StateExcept.bind_ok hrun, fun α vseed r' hseed => ?_, rfl, rfl⟩
    exact hseed (de.withLexer de.lexer) it' h (hready.withLexer _)

/-- `Between` at an entity or an empty map: there is no entry. -/
theorem nextKeyBetween_nil {body : Doc} (h : Lexes de.lexer body.toks it')
    (hE : bodyEntries body = []) :
    nextKeyBetween seed de = .ok ((none, .flatStruct .done false), de.withLexer it') := by
  cases body with
  | entity =>
    obtain ⟨b, it₂, hpeek, hlead, hnext, hrest⟩ := peek_next_of_lexes de h
    cases Lexes.nil_iff.mp hrest
    have hb : b = 0x23 := (hlead.eq_iff (u := .entity) rfl).mpr rfl
    rw [nextKeyBetween, StateExcept.bind_ok hpeek]
    rw [StateExcept.ite_apply, if_neg (by rw [hb]; decide), StateExcept.ite_apply, if_pos hb,
      StateExcept.bind_ok hnext]
    rfl
  | map pairs trail =>
    have hpairs : pairs = [] := by simpa [bodyEntries, mapEntries] using hE
    subst hpairs
    rw [Doc.toks] at h
    obtain ⟨b, it₂, hpeek, hlead, hnext, hrest⟩ := peek_next_of_lexes de h
    have hb : b = 0x7B := (hlead.eq_iff (u := .beginMap) rfl).mpr rfl
    have hlen := hrest.length_le
    rw [nextKeyBetween, StateExcept.bind_ok hpeek]
    rw [StateExcept.ite_apply, if_pos hb, StateExcept.bind_ok hnext, StateExcept.bind_ok (budget_apply _)]
    refine nextKeyBody_end (?_ : trail < _) hrest
    simp [pairsToks, seps] at hlen ⊢
    omega
  | scalar s => cases hE
  | list items trail => cases hE
  | attributed pairs trail body => cases hE

theorem nextKeyBetween_cons {body : Doc} {E : List (List UInt8 × Doc)}
    (hready : Ready limit depth de) (hkey : KeyReads seed k r) (h : Lexes de.lexer body.toks it')
    (hE : bodyEntries body = (k, d) :: E) :
    Offers limit depth de d r (nextKeyBetween seed de) fun map it => Presents map it E it' := by
  rcases bodyEntries_cases body with ⟨pairs, trail, rfl⟩ | rfl | ⟨hbody, t, ts, htoks, hmap, hent⟩
  · rw [Doc.toks] at h
    obtain ⟨b, it₂, hpeek, hlead, hnext, hrest⟩ := peek_next_of_lexes de h
    have hb : b = 0x7B := (hlead.eq_iff (u := .beginMap) rfl).mpr rfl
    rw [nextKeyBetween, StateExcept.bind_ok hpeek]
    rw [StateExcept.ite_apply, if_pos hb, StateExcept.bind_ok hnext,
      StateExcept.bind_ok (budget_apply _)]
    exact nextKeyBody_pairs (hready.withLexer it₂) hkey (Nat.lt_succ_self _) hrest hE
  · cases hE
  · rw [hbody] at hE
    cases hE
    rw [htoks] at h
    obtain ⟨b, hpeek, hlead⟩ := peekByte_of_lexes de h
    have h₁ : b ≠ 0x7B := fun hb => hmap ((hlead.eq_iff (u := .beginMap) rfl).mp hb)
    have h₂ : b ≠ 0x23 := fun hb => hent ((hlead.eq_iff (u := .entity) rfl).mp hb)
    have hlex := h.skipIgnored
    rw [← htoks] at hlex
    rw [nextKeyBetween, StateExcept.bind_ok hpeek]
    rw [StateExcept.ite_apply, if_neg h₁, StateExcept.ite_apply, if_neg h₂]
    have hoff := nextKeyValueOnly_doc (hready.withLexer de.lexer.skipIgnored) hkey hlex
    refine Offers.imp hoff ?_
    rintro map it ⟨rfl, rfl⟩
    exact .done _ _

/-- Separators in an attribute block. -/
theorem nextKeyAttributes_seps (de : Deserializer) {fuel : Nat} (hfuel : n < fuel)
    (h : Lexes de.lexer (seps n ++ ts) it') :
    ∃ it₁ fuel', nextKeyAttributes seed fuel de
        = nextKeyAttributes seed (fuel' + 1) (de.withLexer it₁) ∧ Lexes it₁ ts it' := by
  induction n generalizing de fuel with
  | zero => exact ⟨de.lexer, fuel - 1, by rw [Nat.sub_add_cancel hfuel]; rfl, h⟩
  | succ n ih =>
    obtain ⟨fuel, rfl⟩ : ∃ m, fuel = m + 1 := ⟨fuel - 1, by omega⟩
    obtain ⟨b, it₁, hpeek, hlead, hnext, hrest⟩ := peek_next_of_lexes de h
    obtain ⟨it₂, fuel', hrun, hlex⟩ := ih (de.withLexer it₁) (show n < fuel by omega) hrest
    have hb : b = 0x3B := (hlead.eq_iff (u := .itemSeparator) rfl).mpr rfl
    refine ⟨it₂, fuel', ?_, hlex⟩
    rw [nextKeyAttributes, StateExcept.bind_ok hpeek]
    rw [StateExcept.ite_apply, if_neg (by rw [hb]; decide), StateExcept.ite_apply, if_pos hb,
      StateExcept.bind_ok hnext]
    exact hrun

/-- At the end of an attribute block the body takes over. -/
theorem nextKeyAttributes_end (seed : KeySeed κ) (de : Deserializer) {fuel trail : Nat} {body : Doc}
    (hfuel : trail < fuel)
    (h : Lexes de.lexer (seps trail ++ (.endAttributes :: body.toks)) it') :
    ∃ it₁, nextKeyAttributes seed fuel de = nextKeyBetween seed (de.withLexer it₁) ∧
      Lexes it₁ body.toks it' := by
  obtain ⟨it₁, fuel', hrun, hlex⟩ := nextKeyAttributes_seps de hfuel h
  obtain ⟨b, it₂, hpeek, hlead, hnext, hrest⟩ := peek_next_of_lexes (de.withLexer it₁) hlex
  refine ⟨it₂, ?_, hrest⟩
  rw [hrun, nextKeyAttributes, StateExcept.bind_ok hpeek]
  rw [StateExcept.ite_apply, if_pos ((hlead.eq_iff (u := .endAttributes) rfl).mpr rfl),
    StateExcept.bind_ok hnext]
  rfl

theorem nextKeyAttributes_pair {fuel : Nat} (hready : Ready limit depth de)
    (hkey : KeyReads seed (0x40 :: k) r) (hfuel : n < fuel)
    (h : Lexes de.lexer (seps n ++ (.string k :: .keyValueSeparator :: (d.toks ++ tail))) it') :
    Offers limit depth de d r (nextKeyAttributes seed fuel de)
      fun map it => map = .flatStruct .attributes false ∧ Lexes it tail it' := by
  obtain ⟨it₁, fuel', hrun, hlex⟩ := nextKeyAttributes_seps de hfuel h
  obtain ⟨b, it₂, hpeek, hlead, hnext, hrest⟩ := peek_next_of_lexes (de.withLexer it₁) hlex
  have hend : b ≠ 0x3E := fun hb => by cases (hlead.eq_iff (u := .endAttributes) rfl).mp hb
  have hsep : b ≠ 0x3B := fun hb => by cases (hlead.eq_iff (u := .itemSeparator) rfl).mp hb
  obtain ⟨it₃, hvalue, htail⟩ := lexes_value hrest
  have hrun' : ofExcept (seed.visitor.visitBytes (0x40 :: k)) (de.withLexer it₂)
      = r.map fun x => (x, de.withLexer it₂) := by
    rw [← hkey.bytes]
    rfl
  rw [hrun, nextKeyAttributes, StateExcept.bind_ok hpeek]
  rw [StateExcept.ite_apply, if_neg hend, StateExcept.ite_apply, if_neg hsep,
    StateExcept.bind_ok hnext]
  cases r with
  | error e => exact StateExcept.bind_error hrun'
  | ok x =>
    refine ⟨_, it₂, it₃, StateExcept.bind_ok hrun', fun α vseed r' hseed => ?_, rfl, htail⟩
    exact nextValue_eq (hready.withLexer it₂) hseed (Or.inl ⟨_, rfl⟩) hvalue

theorem Presents.length_le {it : YsonIterator} {E : List (List UInt8 × Doc)}
    (h : Presents map it E it') : E.length ≤ it.rest.length := by
  cases h with
  | empty | done => simp
  | @valueOnly _ _ _ d h =>
    have := h.length_le
    have := d.toks_length_pos
    simp only [List.length_cons, List.length_nil]
    omega
  | @body _ _ _ pairs trail h =>
    have := h.length_le
    have := pairsToks_length pairs
    simp only [mapEntries, List.length_map, List.length_append] at *
    omega
  | @attributes _ _ _ pairs trail body h =>
    have := h.length_le
    have := pairsToks_length pairs
    have := bodyEntries_length body
    simp only [attributeEntries, List.length_map, List.length_append, List.length_cons] at *
    omega
  | @comma _ _ pairs trail _ _ _ _ _ h =>
    have := h.length_le
    have := pairsToks_length pairs
    simp only [mapEntries, List.length_map, List.length_append] at *
    omega

/-- **An exhausted access says so**, and the lexer stands behind the container. -/
theorem nextKey_nil (seed : KeySeed κ) (h : Presents map de.lexer [] it') :
    ∃ map', nextKey seed map de = .ok ((none, map'), de.withLexer it') ∧
      ∀ e b, map = .commaSeparated e b → map'.ended := by
  generalize hit : de.lexer = it at h
  generalize hE : ([] : List (List UInt8 × Doc)) = E at h
  cases h with
  | empty =>
    subst hit
    exact ⟨_, rfl, fun _ _ h => by cases h⟩
  | done b =>
    subst hit
    exact ⟨_, rfl, fun _ _ h => by cases h⟩
  | valueOnly => cases hE
  | @body b _ _ pairs trail h =>
    subst hit
    obtain rfl : pairs = [] := by simpa [mapEntries] using hE
    have hlen := h.length_le
    refine ⟨.flatStruct .done false, ?_, fun _ _ h => by cases h⟩
    rw [nextKey, StateExcept.bind_ok (budget_apply _)]
    refine nextKeyBody_end ?_ h
    simp [pairsToks, seps] at hlen ⊢
    omega
  | @attributes b _ _ pairs trail body h =>
    subst hit
    obtain ⟨hpairs, hbody⟩ : pairs = [] ∧ bodyEntries body = [] := by
      simpa [attributeEntries] using hE
    subst hpairs
    have hlen := h.length_le
    obtain ⟨it₁, hrun, hlex⟩ := nextKeyAttributes_end seed de
      (show trail < de.lexer.rest.length + 1 by simp [pairsToks, seps] at hlen; omega) h
    refine ⟨.flatStruct .done false, ?_, fun _ _ h => by cases h⟩
    rw [nextKey, StateExcept.bind_ok (budget_apply _), hrun]
    exact nextKeyBetween_nil (show Lexes (de.withLexer it₁).lexer body.toks it' from hlex) hbody
  | @comma _ _ pairs trail endTok endByte hend hseps htrail h =>
    subst hit
    obtain rfl : pairs = [] := by simpa [mapEntries] using hE
    obtain ⟨it₁, hat, hrest⟩ := commaSeparatedAtEnd_close hend htrail h
    cases Lexes.nil_iff.mp hrest
    refine ⟨.commaSeparated endByte true, ?_, fun _ _ _ => rfl⟩
    rw [nextKey, StateExcept.bind_ok hat]
    rfl

/-- **In front of an entry the access offers its key, then its value, then the rest.** -/
theorem nextKey_cons {E : List (List UInt8 × Doc)} (hready : Ready limit depth de)
    (hkey : KeyReads seed k r) (h : Presents map de.lexer ((k, d) :: E) it') :
    Offers limit depth de d r (nextKey seed map de) fun map' it =>
      Presents map' it E it' ∧ ∀ e b, map = .commaSeparated e b → map' = .commaSeparated e false := by
  generalize hit : de.lexer = it at h
  generalize hE : (k, d) :: E = E' at h
  cases h with
  | empty => cases hE
  | done b => cases hE
  | @valueOnly b _ _ d' h =>
    subst hit
    cases hE
    refine (nextKeyValueOnly_doc hready hkey h).imp ?_
    rintro map' it ⟨rfl, rfl⟩
    exact ⟨.done _ _, fun _ _ h => by cases h⟩
  | @body b _ _ pairs trail h =>
    subst hit
    rw [nextKey, StateExcept.bind_ok (budget_apply _)]
    exact (nextKeyBody_pairs hready hkey (Nat.lt_succ_self _) h hE.symm).imp
      fun _ _ h => ⟨h, fun _ _ h => by cases h⟩
  | @attributes b _ _ pairs trail body h =>
    subst hit
    have hlen := h.length_le
    rw [nextKey, StateExcept.bind_ok (budget_apply _)]
    cases pairs with
    | nil =>
      obtain ⟨it₁, hrun, hlex⟩ := nextKeyAttributes_end seed de
        (show trail < de.lexer.rest.length + 1 by simp [pairsToks, seps] at hlen; omega) h
      rw [hrun]
      exact (nextKeyBetween_cons (hready.withLexer it₁) hkey hlex hE.symm).imp fun _ _ h => ⟨h, fun _ _ h => by cases h⟩
    | cons p pairs =>
      obtain ⟨n, k', d'⟩ := p
      cases hE
      simp only [pairsToks, List.append_assoc, List.cons_append] at h
      refine (nextKeyAttributes_pair hready hkey ?_ h).imp ?_
      · simp [pairsToks, seps] at hlen
        omega
      · rintro map' it ⟨rfl, htail⟩
        exact ⟨.attributes htail, fun _ _ h => by cases h⟩
  | @comma _ _ pairs trail endTok endByte hend hseps htrail h =>
    subst hit
    cases pairs with
    | nil => cases hE
    | cons p pairs =>
      obtain ⟨n, k', d'⟩ := p
      cases hE
      simp only [pairsToks, List.append_assoc, List.cons_append] at h
      obtain ⟨it₁, hat, hrest⟩ :=
        commaSeparatedAtEnd_item hend (hseps _ List.mem_cons_self) rfl h
      rw [nextKey, StateExcept.bind_ok hat]
      refine (offers_token (de.withLexer it₁) (hready.withLexer it₁) hkey
        (Or.inr ⟨_, _, rfl⟩) hrest).imp ?_
      rintro map' it ⟨rfl, htail⟩
      refine ⟨.comma hend (fun p hp => hseps p (List.mem_cons_of_mem _ hp)) htrail htail, ?_⟩
      rintro e b ⟨rfl, rfl⟩
      rfl

end Step

end De

end Ytsaurus.Yson
