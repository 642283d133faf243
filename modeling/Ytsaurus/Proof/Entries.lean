import Ytsaurus.Proof.Covers

/-!
# `Proof/Entries.lean` — how far the visitors of maps, structs and enums read

A map access offers the entries of a document one by one (`Presents`); a visitor that asks for
keys until there are none has then read the container to its bracket. Maps, structs and
`IgnoredAny` are such visitors, whichever access they are handed.

A struct meets entries it has no field for and passes over them with `IgnoredAny`, which has
to read any value whole: a list, a map, a block with what is behind it. A field that comes twice
is an error, and one that is missing takes its default or is an error; none of this matters for
where the visitor stops, which is the point of stating it as `Covers`.

Enums are different. The map of an enum is `{variant = value}`, and the deserializer reads the
variant, hands the value to the visitor, and then looks for the end of the map by reading tokens
up to the next `;` or `}`. It does not count brackets on the way. Where something else stands
behind the variant with no `;` in front, the first `}` it meets may belong to a map in there, and
the enum's own is left unread; `closesEarly` is the test for it, on the tokens, and
`closeVariant_ensures` is what holds otherwise.

`WithAttributes` is the visitor that asks for attributes: it reads the block into one part and the
body into the other, and either may be absent.
-/

set_option autoImplicit false

namespace Ytsaurus.Yson.De

open StateExcept (Ensures)

variable {α κ : Type} [FloatText] {limit depth : Nat} {de : Deserializer} {it' : YsonIterator}

/-! ## A seed that reads given tokens -/

def expectToks : List Token → De Unit
  | [] => pure ()
  | t :: ts => do
    if (← nextToken) = t then expectToks ts else throw (.custom .unreachable)

theorem expectToks_of_lexes {ts : List Token} (de : Deserializer) (h : Lexes de.lexer ts it') :
    expectToks ts de = .ok ((), de.withLexer it') := by
  induction ts generalizing de with
  | nil =>
    cases Lexes.nil_iff.mp h
    rfl
  | cons t ts ih =>
    obtain ⟨it₁, hnext, hrest⟩ := nextToken_of_lexes de h
    rw [expectToks, StateExcept.bind_ok hnext, StateExcept.ite_apply, if_pos rfl]
    exact ih (de.withLexer it₁) hrest

theorem lexes_of_expectToks {ts : List Token} {de de' : Deserializer}
    (h : expectToks ts de = .ok ((), de')) : Lexes de.lexer ts de'.lexer := by
  induction ts generalizing de with
  | nil =>
    cases h
    exact .nil _
  | cons t ts ih =>
    replace h := StateExcept.bind_eq_ok.mp h
    obtain ⟨u, de₁, hnext, h⟩ := h
    obtain ⟨it₁, rfl, hlex⟩ := nextToken_ok hnext
    rw [StateExcept.ite_apply] at h
    split at h
    · rename_i hu
      subst hu
      exact hlex.append (ih h)
    · cases h

/-! ## The next entry -/

/-- The value that `next_value` reads after a key was offered. -/
theorem nextValue_ensures {map : MapAccess} {it₁ it₂ : YsonIterator} {d : Doc} {seed : De α}
    (hready : Ready limit depth de)
    (hvalue : ∀ (β : Type) (s : De β) (r : Except YsonError β), SeedReads limit depth s d r →
      Reads de it₂ r (nextValue s map (de.withLexer it₁)))
    (hseed : Covers seed d) (hstop : Stops it₂) :
    Ensures (nextValue seed map (de.withLexer it₁)) fun _ => Stands limit depth it₂ := by
  -- a seed that reads the tokens of the document and nothing else shows where they begin
  have hprobe : SeedReads limit depth (expectToks d.toks) d (.ok ()) := by
    intro de₁ it' hlex _
    exact ⟨de₁.containerEnded, expectToks_of_lexes de₁ hlex⟩
  obtain ⟨b, hrun⟩ := hvalue Unit (expectToks d.toks) (.ok ()) hprobe
  have hsep : ∀ {de₂ : Deserializer}, (do
      expectKeyValueSeparator
      expectToks d.toks : De Unit) (de.withLexer it₁) = .ok ((), de₂) → de₂.lexer = it₂ →
      Ensures ((do
        expectKeyValueSeparator
        seed : De α) (de.withLexer it₁)) fun _ => Stands limit depth it₂ := by
    intro de₂ hrun hit
    obtain ⟨_, de₃, hsep, hread⟩ := StateExcept.bind_eq_ok.mp hrun
    obtain ⟨it₃, rfl, _⟩ := expectKeyValueSeparator_ok hsep
    refine .bind_ok hsep (hseed ((hready.withLexer it₁).withLexer it₃) ?_ hstop)
    rw [← hit]
    exact lexes_of_expectToks hread
  match map, hrun with
  | .flatStruct s true, hrun =>
    exact hseed (hready.withLexer it₁) (lexes_of_expectToks hrun) hstop
  | .flatStruct s false, hrun => exact hsep hrun rfl
  | .commaSeparated e b, hrun => exact hsep hrun rfl
  | .empty, hrun => cases hrun

/-! ## An access between entries -/

theorem stops_comma {it : YsonIterator} {pairs : List (Nat × List UInt8 × Doc)} {trail : Nat}
    {endTok : Token} {endByte : UInt8} (hend : Closes endTok endByte)
    (hmap : endByte = 0x7D ∨ endByte = 0x3E)
    (h : Lexes it (pairsToks pairs ++ (seps trail ++ [endTok])) it') : Stops it := by
  refine h.stops (leadsOn_pairs (leadsOn_seps ⟨endTok, [], rfl, ?_⟩ _) _)
  rintro rfl
  obtain rfl : 0x3D = endByte := Option.some.inj hend.lead
  rcases hmap with hmap | hmap <;> cases hmap

theorem Presents.stops {map : MapAccess} {it : YsonIterator} {E : List (List UInt8 × Doc)}
    (h : Presents map it E it') (hmap : Bracketed map) (hstop : Stops it') : Stops it := by
  cases h with
  | empty | done => exact hstop
  | @valueOnly _ _ _ d h =>
    refine h.stops ?_
    simpa using d.leadsOn []
  | body h => exact h.stops (leadsOn_pairs (leadsOn_seps ⟨.endMap, [], rfl, by simp⟩ _) _)
  | attributes h =>
    exact h.stops (leadsOn_pairs (leadsOn_seps ⟨.endAttributes, _, rfl, by simp⟩ _) _)
  | comma hend _ _ h => exact stops_comma hend hmap h

theorem Holds.stops {map : MapAccess} {it : YsonIterator} {E : List (List UInt8 × Doc)}
    (h : Holds map it E it') (hmap : Bracketed map) (hstop : Stops it') : Stops it := by
  cases h with
  | comma hend h => exact stops_comma hend hmap h
  | presents h => exact Presents.stops h hmap hstop

/-- A flat struct stays one. -/
def IsFlat : MapAccess → Prop
  | .flatStruct _ _ => True
  | _ => False

theorem nextKeyBody_flat {seed : KeySeed κ} (fuel : Nat) (de : Deserializer) :
    Ensures (nextKeyBody seed fuel de) fun r _ => IsFlat r.2 := by
  induction fuel generalizing de with
  | zero => exact .error _
  | succ fuel ih =>
    rw [nextKeyBody]
    refine .bind_any fun b de₁ => ?_
    rw [StateExcept.ite_apply, StateExcept.ite_apply]
    split
    · exact .bind_any fun _ _ => .ok trivial
    · split
      · exact .bind_any fun _ de₂ => ih de₂
      · exact .bind_any fun _ _ => .ok trivial

omit [FloatText] in
theorem nextKeyValueOnly_flat (seed : KeySeed κ) (de : Deserializer) :
    Ensures (nextKeyValueOnly seed de) fun r _ => IsFlat r.2 :=
  .bind_any fun _ _ => .ok trivial

theorem nextKeyBetween_flat (seed : KeySeed κ) (de : Deserializer) :
    Ensures (nextKeyBetween seed de) fun r _ => IsFlat r.2 := by
  rw [nextKeyBetween]
  refine .bind_any fun b de₁ => ?_
  rw [StateExcept.ite_apply, StateExcept.ite_apply]
  split
  · exact .bind_any fun _ de₂ => .bind_any fun n de₃ => nextKeyBody_flat n de₃
  · split
    · exact .bind_any fun _ _ => .ok trivial
    · exact nextKeyValueOnly_flat seed de₁

theorem nextKeyAttributes_flat {seed : KeySeed κ} (fuel : Nat) (de : Deserializer) :
    Ensures (nextKeyAttributes seed fuel de) fun r _ => IsFlat r.2 := by
  induction fuel generalizing de with
  | zero => exact .error _
  | succ fuel ih =>
    rw [nextKeyAttributes]
    refine .bind_any fun b de₁ => ?_
    rw [StateExcept.ite_apply, StateExcept.ite_apply]
    split
    · exact .bind_any fun _ de₂ => nextKeyBetween_flat seed de₂
    · split
      · exact .bind_any fun _ de₂ => ih de₂
      · refine .bind_any fun t de₂ => ?_
        cases t with
        | string s => exact .bind_any fun _ _ => .ok trivial
        | _ => exact .error _

/-- The access goes on as the kind it was. -/
theorem nextKey_bracketed {seed : KeySeed κ} {map : MapAccess} (hmap : Bracketed map)
    (de : Deserializer) : Ensures (nextKey seed map de) fun r _ => Bracketed r.2 := by
  have hflat : ∀ m : MapAccess, IsFlat m → Bracketed m := by
    intro m h
    cases m with
    | flatStruct => trivial
    | commaSeparated | empty => cases h
  cases map with
  | flatStruct state b =>
    refine Ensures.imp (Q := fun r _ => IsFlat r.2) ?_ fun r _ h => hflat r.2 h
    cases state with
    | attributes => exact .bind_any fun n de₁ => nextKeyAttributes_flat n de₁
    | between => exact nextKeyBetween_flat seed de
    | body => exact .bind_any fun n de₁ => nextKeyBody_flat n de₁
    | valueOnly => exact nextKeyValueOnly_flat seed de
    | done => exact .ok trivial
  | commaSeparated endByte ended =>
    refine .bind_any fun b de₁ => ?_
    cases b with
    | true => exact .ok hmap
    | false => exact .bind_any fun _ _ => .ok hmap
  | empty => exact .ok trivial

theorem nextKey_crowded {n : Nat} {seed : KeySeed κ} {endTok : Token} {endByte : UInt8}
    {ts : List Token} (hready : Ready limit depth de) (hrefuse : Refuses seed.deserialize)
    (hend : Closes endTok endByte) (hn : ¬ n ≤ 1) (h : Lexes de.lexer (seps n ++ ts) it') :
    Ensures (nextKey seed (.commaSeparated endByte false) de) fun _ _ => False := by
  obtain ⟨it₁, us, hat, hrest⟩ := commaSeparatedAtEnd_crowded hend hn h
  rw [nextKey]
  refine .bind_ok hat ?_
  exact hrefuse.bind _ (hready.withLexer it₁) hrest

/-- In front of an entry the access offers it, or there are too many `;`. -/
theorem nextKey_offers {seed : KeySeed κ} {map : MapAccess} {k : List UInt8} {d : Doc}
    {E : List (List UInt8 × Doc)} {r : Except YsonError κ} (hready : Ready limit depth de)
    (hkey : KeyReads seed k r) (hrefuse : Refuses seed.deserialize)
    (h : Holds map de.lexer ((k, d) :: E) it') :
    Offers limit depth de d r (nextKey seed map de) (fun map' it => Holds map' it E it' ∧
        ∀ e b, map = .commaSeparated e b → map' = .commaSeparated e false) ∨
      Ensures (nextKey seed map de) fun _ _ => False := by
  generalize hit : de.lexer = it at h
  generalize hE : (k, d) :: E = E' at h
  cases h with
  | presents h =>
    subst hit hE
    exact Or.inl ((nextKey_cons hready hkey h).imp fun _ _ h => ⟨.presents h.1, h.2⟩)
  | @comma _ _ pairs trail endTok endByte hend h =>
    subst hit
    cases pairs with
    | nil => cases hE
    | cons p pairs =>
      obtain ⟨n, k', d'⟩ := p
      cases hE
      simp only [pairsToks, List.append_assoc, List.cons_append] at h
      by_cases hn : n ≤ 1
      · refine Or.inl ?_
        obtain ⟨it₁, hat, hrest⟩ := commaSeparatedAtEnd_item hend hn rfl h
        rw [nextKey, StateExcept.bind_ok hat]
        refine (offers_token (de.withLexer it₁) (hready.withLexer it₁) hkey
          (Or.inr ⟨_, _, rfl⟩) hrest).imp ?_
        rintro map' it ⟨rfl, htail⟩
        refine ⟨.comma hend htail, ?_⟩
        rintro e b ⟨rfl, rfl⟩
        rfl
      · exact Or.inr (nextKey_crowded hready hrefuse hend hn h)

/-- **The next entry**: its key is read, its value comes next, the others come after it. -/
theorem nextKey_first {seed : KeySeed κ} {map : MapAccess} {k : List UInt8} {d : Doc}
    {E : List (List UInt8 × Doc)} {r : Except YsonError κ} (hready : Ready limit depth de)
    (hkey : KeyReads seed k r) (hrefuse : Refuses seed.deserialize) (hmap : Bracketed map)
    (hstop : Stops it') (h : Holds map de.lexer ((k, d) :: E) it') :
    Ensures (nextKey seed map de) fun x de₁ => ∃ key map' it₂, r = .ok key ∧
      x = (some key, map') ∧ Bracketed map' ∧ Holds map' it₂ E it' ∧
      (∀ e b, map = .commaSeparated e b → map' = .commaSeparated e false) ∧
      ∀ (β : Type) (s : De β), Covers s d →
        Ensures (nextValue s map' de₁) fun _ => Stands limit depth it₂ := by
  rcases nextKey_offers hready hkey hrefuse h with hoffers | hfails
  case inr => exact hfails.imp fun _ _ hfalse => hfalse.elim
  cases r with
  | error e => exact .of_error hoffers
  | ok key =>
    obtain ⟨map', it₁, it₂, hrun, hvalue, hrest, hcomma⟩ := hoffers
    have hmap' : Bracketed map' := nextKey_bracketed hmap de _ _ hrun
    refine .of_ok hrun ⟨key, map', it₂, rfl, rfl, hmap', hrest, hcomma, ?_⟩
    intro β s hseed
    exact nextValue_ensures hready hvalue hseed (Holds.stops hrest hmap' hstop)

/-- There is no further entry. -/
theorem nextKey_over {map : MapAccess} {seed : KeySeed κ} (hready : Ready limit depth de)
    (hrefuse : Refuses seed.deserialize) (h : Holds map de.lexer [] it') :
    Ensures (nextKey seed map de) fun x de₁ => ∃ map', x = (none, map') ∧
      Stands limit depth it' de₁ ∧ ∀ e b, map = .commaSeparated e b → map'.ended := by
  have hover : Presents map de.lexer [] it' →
      Ensures (nextKey seed map de) fun x de₁ => ∃ map', x = (none, map') ∧
        Stands limit depth it' de₁ ∧ ∀ e b, map = .commaSeparated e b → map'.ended := by
    intro h
    obtain ⟨map', hrun, hended⟩ := nextKey_nil seed h
    exact .of_ok hrun ⟨map', rfl, ⟨hready.withLexer it', rfl⟩, hended⟩
  generalize hit : de.lexer = it at h
  generalize hE : ([] : List (List UInt8 × Doc)) = E at h
  cases h with
  | presents h =>
    subst hit hE
    exact hover h
  | @comma _ _ pairs trail endTok endByte hend h =>
    subst hit
    obtain rfl : pairs = [] := by simpa [mapEntries] using hE
    by_cases htrail : trail ≤ 1
    · exact hover (.comma hend (fun p hp => absurd hp List.not_mem_nil) htrail h)
    · exact (nextKey_crowded hready hrefuse hend htrail h).imp fun _ _ hfalse => hfalse.elim

/-! ## Keys -/

theorem deserializeSkipping_string {k : List UInt8} (hready : Ready limit depth de)
    (visitor : Visitor α) (h : Lexes de.lexer [.string k] it') :
    deserializeSkipping visitor de
      = (visitString visitor k).map fun x => (x, de.withLexer it') := by
  have hskip := skipAttributes_plain de (by simp) h
  obtain ⟨it₁, hrun, hrest⟩ := deserializeAny_token (hready.withLexer de.lexer.skipIgnored) visitor
    (by simp) h.skipIgnored
  cases Lexes.nil_iff.mp hrest
  rw [deserializeSkipping, StateExcept.get_bind, StateExcept.ite_apply,
    if_pos (by rw [hready.plain]; rfl)]
  exact (StateExcept.bind_ok hskip).trans hrun

/-- A key read by a method that skips attributes. -/
theorem keyReads_skipping {visitor : Visitor κ} {k : List UInt8}
    (h : visitor.visitBytes k = visitString visitor k) :
    KeyReads ⟨visitor, deserializeSkipping visitor⟩ k (visitString visitor k) where
  token _ _ hlex hready := deserializeSkipping_string hready visitor hlex
  bytes := h
  str hk := (if_pos hk).symm

theorem stringKey_reads (k : List UInt8) :
    KeyReads stringKey k (visitString stringVisitor k) := by
  refine keyReads_skipping ?_
  rw [visitString]
  split
  · rename_i hk
    exact if_pos hk
  · rfl

theorem fieldKey_reads (names : List (List UInt8)) (k : List UInt8) :
    KeyReads (fieldKey names) k (.ok (names.findIdx? (· == k))) := by
  have hvisit : visitString (fieldVisitor names) k = .ok (names.findIdx? (· == k)) :=
    ite_self _
  have h : KeyReads (fieldKey names) k (visitString (fieldVisitor names) k) :=
    keyReads_skipping hvisit.symm
  rwa [hvisit] at h

theorem stringKey_refuses : Refuses stringKey.deserialize := Refuses.skipping _

theorem fieldKey_refuses (names : List (List UInt8)) : Refuses (fieldKey names).deserialize :=
  Refuses.skipping _

/-! ## Maps -/

theorem entries_ensures {value : De Datum} {map : MapAccess} {E : List (List UInt8 × Doc)}
    (hready : Ready limit depth de) (hmap : Bracketed map) (hstop : Stops it')
    (h : Holds map de.lexer E it') (hE : ∀ e ∈ E, Covers value e.2) (fuel : Nat)
    (es : List (List UInt8 × Datum)) :
    Ensures (entries value fuel es map de) fun r de' => Stands limit depth it' de' ∧
      ∀ e b, map = .commaSeparated e b → r.2.ended = true := by
  induction E generalizing de map fuel es with
  | nil =>
    cases fuel with
    | zero => exact .error _
    | succ fuel =>
      refine (nextKey_over hready stringKey_refuses h).bind ?_
      rintro _ de₁ ⟨map', rfl, hstands, hended⟩
      exact .ok ⟨hstands, hended⟩
  | cons e E ih =>
    obtain ⟨k, d⟩ := e
    cases fuel with
    | zero => exact .error _
    | succ fuel =>
      refine (nextKey_first hready (stringKey_reads k) stringKey_refuses hmap hstop h).bind ?_
      rintro _ de₁ ⟨key, map', it₂, _, rfl, hmap', hrest, hcomma, hvalue⟩
      refine (hvalue Datum value (hE _ List.mem_cons_self)).bind ?_
      rintro v de₂ ⟨hready₂, rfl⟩
      have hloop := ih hready₂ hmap' hrest (fun e he => hE e (List.mem_cons_of_mem _ he)) fuel
        (SortedMap.insert key v es)
      exact hloop.imp fun _ _ h => ⟨h.1, fun e b hm => h.2 e false (hcomma e b hm)⟩

theorem mapVisitor_covers {value : De Datum} {E : List (List UInt8 × Doc)}
    (hE : ∀ e ∈ E, Covers value e.2) : MapCovers (mapVisitor value) E := by
  intro limit depth de it' map hready hmap h hstop
  refine .bind_ok (budget_apply de) ?_
  refine (entries_ensures hready hmap hstop h hE _ []).bind ?_
  rintro ⟨es, map'⟩ de' hend
  exact .ok hend

/-! ## `IgnoredAny` -/

theorem ignoredEntries_ensures {element : De Unit} {key : KeySeed Unit} {map : MapAccess}
    {E : List (List UInt8 × Doc)} (hready : Ready limit depth de) (hmap : Bracketed map)
    (hstop : Stops it') (h : Holds map de.lexer E it') (hrefuse : Refuses key.deserialize)
    (hkey : ∀ e ∈ E, ∃ r, KeyReads key e.1 r) (hE : ∀ e ∈ E, Covers element e.2) (fuel : Nat) :
    Ensures (ignoredEntries element key fuel map de) fun map' de' => Stands limit depth it' de' ∧
      ∀ e b, map = .commaSeparated e b → map'.ended = true := by
  induction E generalizing de map fuel with
  | nil =>
    cases fuel with
    | zero => exact .error _
    | succ fuel =>
      refine (nextKey_over hready hrefuse h).bind ?_
      rintro _ de₁ ⟨map', rfl, hstands, hended⟩
      exact .ok ⟨hstands, hended⟩
  | cons e E ih =>
    obtain ⟨k, d⟩ := e
    obtain ⟨r, hk⟩ := hkey _ List.mem_cons_self
    cases fuel with
    | zero => exact .error _
    | succ fuel =>
      refine (nextKey_first hready hk hrefuse hmap hstop h).bind ?_
      rintro _ de₁ ⟨_, map', it₂, _, rfl, hmap', hrest, hcomma, hvalue⟩
      refine (hvalue Unit element (hE _ List.mem_cons_self)).bind ?_
      rintro _ de₂ ⟨hready₂, rfl⟩
      have hloop := ih hready₂ hmap' hrest (fun e he => hkey e (List.mem_cons_of_mem _ he))
        (fun e he => hE e (List.mem_cons_of_mem _ he)) fuel
      exact hloop.imp fun _ _ h => ⟨h.1, fun e b hm => h.2 e false (hcomma e b hm)⟩

theorem ignoredVisitor_map {element : De Unit} {E : List (List UInt8 × Doc)}
    (hrefuse : Refuses element)
    (hkey : ∀ e ∈ E, ∃ r, KeyReads (ignoredKey element ignoredScalar) e.1 r)
    (hE : ∀ e ∈ E, Covers element e.2) : MapCovers (ignoredVisitor element) E := by
  intro limit depth de it' map hready hmap h hstop
  refine .bind_ok (budget_apply de) ?_
  refine (ignoredEntries_ensures hready hmap hstop h hrefuse hkey hE _).bind ?_
  intro map' de' hend
  exact .ok hend

theorem ignoredKey_reads (fuel : Nat) (k : List UInt8) :
    KeyReads (ignoredKey (ignoredAny (fuel + 1)) ignoredScalar) k (.ok ()) where
  token _ _ hlex hready := by
    have hvisit : visitString (ignoredVisitor (ignoredAny fuel)) k = .ok () := ite_self _
    have hrun := deserializeSkipping_string hready (ignoredVisitor (ignoredAny fuel)) hlex
    rw [hvisit] at hrun
    exact hrun
  bytes := rfl
  str _ := rfl

omit [FloatText] in
theorem bare_toks_length (d : Doc) : d.bare.toks.length ≤ d.toks.length := by
  cases d with
  | attributed pairs trail body =>
    simp only [Doc.bare, Doc.toks, List.length_cons, List.length_append]
    omega
  | scalar | entity | list | map => exact Nat.le_refl _

theorem ignoredAny_refuses (fuel : Nat) : Refuses (ignoredAny fuel) := by
  cases fuel with
  | zero => exact fun _ _ => .error _
  | succ fuel => exact Refuses.skipping _

/-- **Whatever nobody asked for is passed over whole.** -/
theorem ignoredAny_covers (fuel : Nat) :
    ∀ d : Doc, d.toks.length ≤ fuel → Covers (ignoredAny fuel) d := by
  induction fuel with
  | zero =>
    intro d hlen
    exact absurd hlen (Nat.not_le_of_lt d.toks_length_pos)
  | succ fuel ih =>
    intro d hlen
    refine deserializeSkipping_covers ?_
    have hlen' := Nat.le_trans (bare_toks_length d) hlen
    generalize d.bare = d' at hlen'
    have hentries : ∀ E : List (List UInt8 × Doc), (∀ e ∈ E, e.2.toks.length < d'.toks.length) →
        MapCovers (ignoredVisitor (ignoredAny fuel)) E := by
      intro E hE
      have hinner : ∀ e ∈ E, e.2.toks.length ≤ fuel := fun e he =>
        Nat.le_of_lt_succ (Nat.lt_of_lt_of_le (hE e he) hlen')
      apply ignoredVisitor_map (ignoredAny_refuses fuel)
      · -- an entry has tokens, so the fuel is not used up
        intro e he
        obtain ⟨n, rfl⟩ : ∃ n, fuel = n + 1 :=
          ⟨fuel - 1, by have := hinner e he; have := e.2.toks_length_pos; omega⟩
        exact ⟨_, ignoredKey_reads n e.1⟩
      · exact fun e he => ih e.2 (hinner e he)
    cases d' with
    | scalar | entity => trivial
    | list items trail =>
      show SeqCovers _ items
      refine elements_covers (f := fun _ => ()) rfl (ignoredAny_refuses fuel) fun p hp => ?_
      refine ih p.2 ?_
      have := mem_items_length hp
      simp only [Doc.toks, List.length_cons, List.length_append] at hlen'
      omega
    | map pairs trail =>
      apply hentries
      exact fun e he => mem_mapEntries_length he
    | attributed pairs trail body =>
      apply hentries
      exact fun e he => mem_attributed_length he

theorem ignored_covers (d : Doc) : Covers ignored d := by
  intro limit depth de it' hready hlex hstop
  have hlen := hlex.length_le
  refine .bind_ok (budget_apply de) ?_
  exact ignoredAny_covers _ d (by omega) hready hlex hstop

theorem ignored_refuses : Refuses ignored := by
  intro limit depth de it' ts hready hlex
  refine .bind_ok (budget_apply de) ?_
  exact ignoredAny_refuses _ hready hlex

/-! ## Structs -/

/-- The fields that come with these entries read their values; a field nobody knows is
ignored. -/
def FieldsCover (fields : List FieldDe) (E : List (List UInt8 × Doc)) : Prop :=
  ∀ e ∈ E, ∀ i field, (fields.map FieldDe.name).findIdx? (· == e.1) = some i →
    fields[i]? = some field → Covers field.value e.2

theorem fieldEntry_ensures {fields : List FieldDe} {slots : List (Option Datum)} {map : MapAccess}
    {it₂ : YsonIterator} {d : Doc} {key : Option Nat}
    (hvalue : ∀ (β : Type) (s : De β), Covers s d →
      Ensures (nextValue s map de) fun _ => Stands limit depth it₂)
    (hfield : ∀ i field, key = some i → fields[i]? = some field → Covers field.value d) :
    Ensures (fieldEntry fields slots map key de) fun _ => Stands limit depth it₂ := by
  cases key with
  | none =>
    refine (hvalue Unit ignored (ignored_covers d)).bind ?_
    intro _ de' hstands
    exact .ok hstands
  | some i =>
    rw [fieldEntry]
    cases hi : fields[i]? with
    | none => exact .error _
    | some field =>
      have hread : Ensures ((nextValue field.value map >>= fun v =>
          pure (slots.set i (some v)) : De _) de) fun _ => Stands limit depth it₂ := by
        refine (hvalue Datum field.value (hfield i field rfl hi)).bind ?_
        intro v de' hstands
        exact .ok hstands
      dsimp only
      rw [StateExcept.ite_apply]
      split
      · exact .error _
      · exact hread

theorem fieldEntries_ensures {fields : List FieldDe} {map : MapAccess}
    {E : List (List UInt8 × Doc)} (hready : Ready limit depth de) (hmap : Bracketed map)
    (hstop : Stops it') (h : Holds map de.lexer E it') (hE : FieldsCover fields E) (fuel : Nat)
    (slots : List (Option Datum)) :
    Ensures (fieldEntries fields fuel slots map de) fun r de' => Stands limit depth it' de' ∧
      ∀ e b, map = .commaSeparated e b → r.2.ended = true := by
  induction E generalizing de map fuel slots with
  | nil =>
    cases fuel with
    | zero => exact .error _
    | succ fuel =>
      refine (nextKey_over hready (fieldKey_refuses _) h).bind ?_
      rintro _ de₁ ⟨map', rfl, hstands, hended⟩
      exact .ok ⟨hstands, hended⟩
  | cons e E ih =>
    obtain ⟨k, d⟩ := e
    have hfield := hE _ List.mem_cons_self
    cases fuel with
    | zero => exact .error _
    | succ fuel =>
      refine (nextKey_first hready (fieldKey_reads _ k) (fieldKey_refuses _) hmap hstop h).bind ?_
      rintro _ de₁ ⟨key, map', it₂, hkey, rfl, hmap', hrest, hcomma, hvalue⟩
      have hentry : ∀ i field, key = some i → fields[i]? = some field → Covers field.value d := by
        rintro i field rfl hi
        exact hfield i field (Except.ok.inj hkey) hi
      refine (fieldEntry_ensures hvalue hentry).bind ?_
      rintro slots' de₂ ⟨hready₂, rfl⟩
      have hloop := ih hready₂ hmap' hrest (fun e he => hE e (List.mem_cons_of_mem _ he)) fuel slots'
      exact hloop.imp fun _ _ h => ⟨h.1, fun e b hm => h.2 e false (hcomma e b hm)⟩

theorem structVisitor_map {fields : List FieldDe} {E : List (List UInt8 × Doc)}
    (hE : FieldsCover fields E) : MapCovers (structVisitor fields) E := by
  intro limit depth de it' map hready hmap h hstop
  refine .bind_ok (budget_apply de) ?_
  refine (fieldEntries_ensures hready hmap hstop h hE _ _).bind ?_
  rintro ⟨slots, map'⟩ de' hend
  have hfinish : Ensures (ofExcept (finishFields fields slots) de') fun _ de₁ => de₁ = de' := by
    rw [ofExcept_apply]
    cases finishFields fields slots with
    | error e => exact .error _
    | ok vs => exact .ok rfl
  refine hfinish.bind ?_
  rintro vs _ rfl
  exact .ok hend

theorem structVisitor_seq {fields : List FieldDe} {items : List (Nat × Doc)}
    (hrefuse : ∀ field ∈ fields, Refuses field.value)
    (hfits : Fits (fields.map FieldDe.part) (items.map Prod.snd)) :
    SeqCovers (structVisitor fields) items := by
  intro limit depth trail de it' hready h
  have hparts : ∀ part ∈ fields.map FieldDe.part, Refuses part.1 := by
    intro part hpart
    obtain ⟨field, hfield, rfl⟩ := List.mem_map.mp hpart
    exact hrefuse field hfield
  refine (positional_ensures hready hparts hfits h 0).bind ?_
  rintro ⟨vs, seq⟩ de' hend
  exact .ok hend

theorem tupleVisitor_seq {parts : List (De Datum)} {items : List (Nat × Doc)}
    (hrefuse : ∀ part ∈ parts, Refuses part)
    (hfits : Fits (parts.map required) (items.map Prod.snd)) :
    SeqCovers (tupleVisitor parts) items := by
  intro limit depth trail de it' hready h
  have hparts : ∀ part ∈ parts.map required, Refuses part.1 := by
    intro part hpart
    obtain ⟨seed, hseed, rfl⟩ := List.mem_map.mp hpart
    exact hrefuse seed hseed
  refine (positional_ensures hready hparts hfits h 0).bind ?_
  rintro ⟨vs, seq⟩ de' hend
  exact .ok hend

theorem newtypeVisitor_seq {inner : De Datum} {items : List (Nat × Doc)} (hrefuse : Refuses inner)
    (hfits : Fits [required inner] (items.map Prod.snd)) :
    SeqCovers (newtypeVisitor inner) items := by
  intro limit depth trail de it' hready h
  cases items with
  | nil =>
    refine (nextElement_last hready hrefuse h).bind ?_
    rintro _ de' ⟨rfl, _⟩
    exact .of_error (StateExcept.bind_error (orDefault_missing 0 de' rfl))
  | cons p items =>
    obtain ⟨n, d⟩ := p
    refine (nextElement_first hready hrefuse hfits.1 h).bind ?_
    rintro _ de' ⟨⟨v, rfl⟩, hready', hlex⟩
    refine .bind_ok (orDefault_read (required inner) 0 v de') ?_
    exact .ok ⟨hready', items, .more hlex⟩

/-! ## Options -/

omit [FloatText] in
theorem doc_of_entity {d : Doc} {ts : List Token} (h : d.toks = .entity :: ts) :
    d = .entity ∧ ts = [] := by
  cases d with
  | entity =>
    rw [Doc.toks] at h
    cases h
    exact ⟨rfl, rfl⟩
  | scalar s => cases s <;> simp [Doc.toks, Scalar.token] at h
  | list | map | attributed => simp [Doc.toks] at h

theorem deserializeOption_covers {visitSome : De α} {d : Doc}
    (h : d.bare ≠ .entity → Covers visitSome d.bare) :
    Covers (deserializeOption visitSome) d := by
  intro limit depth de it' hready hlex hstop
  refine .bind_ok (takeReadingAttributes_plain hready.plain) ?_
  rw [if_neg Bool.false_ne_true]
  refine (skipAttributes_bare hlex).bind ?_
  rintro _ de₁ ⟨hde, hbare⟩
  have hready₁ : Ready limit depth de₁ := hde ▸ hready.withLexer _
  obtain ⟨t, ts, htoks, _⟩ := d.bare.toks_head
  have hlex₁ := hbare
  rw [htoks] at hlex₁
  obtain ⟨b, it₁, hpeek, hlead, hnext, hrest⟩ := peek_next_of_lexes de₁ hlex₁
  refine .bind_ok hpeek ?_
  rw [StateExcept.ite_apply]
  split
  · rename_i hb
    obtain rfl : t = .entity := (hlead.eq_iff (u := .entity) rfl).mp hb
    obtain ⟨_, rfl⟩ := doc_of_entity htoks
    cases Lexes.nil_iff.mp hrest
    refine .bind_ok hnext ?_
    exact .ok ⟨hready₁.withLexer it', rfl⟩
  · rename_i hb
    have hsome : d.bare ≠ .entity := by
      intro hentity
      rw [hentity, Doc.toks] at htoks
      cases htoks
      exact hb ((hlead.eq_iff (u := .entity) rfl).mpr rfl)
    refine (h hsome (hready₁.withLexer _) (lexes_doc_skip hbare) hstop).bind ?_
    intro v de₂ hstands
    exact .ok hstands

/-! ## Enums -/

/-- The variant reads its content. -/
def VariantCovers : VariantDe → Doc → Prop
  | .unit, _ => True
  | .newtype seed, d => Covers seed d
  | .tuple parts, d => Covers (deserializeSkipping (tupleVisitor parts)) d
  | .struct fields, d => Covers (deserializeSkipping (structVisitor fields)) d

theorem expectVariantSeparator_ensures {ts : List Token} {t : Token}
    (h : Lexes de.lexer (t :: ts) it') : Ensures (expectVariantSeparator de) fun _ de' =>
      t = .keyValueSeparator ∧ de' = de.withLexer de'.lexer ∧ Lexes de'.lexer ts it' := by
  obtain ⟨it₁, hnext, hrest⟩ := nextToken_of_lexes de h
  refine .bind_ok hnext ?_
  rw [StateExcept.ite_apply]
  split
  · exact .error _
  · rename_i ht
    exact .ok ⟨Classical.not_not.mp ht, rfl, hrest⟩

theorem expectVariantSeparator_stops (hstop : Stops de.lexer) (Q : Unit → Deserializer → Prop) :
    Ensures (expectVariantSeparator de) Q := by
  intro _ de' hrun
  obtain ⟨t, de₁, hnext, hrun⟩ := StateExcept.bind_eq_ok.mp hrun
  obtain ⟨it₁, rfl, hlex⟩ := nextToken_ok hnext
  obtain ⟨it₂, hread, _⟩ := Lexes.cons_iff.mp hlex
  rw [StateExcept.ite_apply] at hrun
  split at hrun
  · cases hrun
  · rename_i ht
    rw [Classical.not_not.mp ht] at hread
    exact absurd hread (hstop it₂)

/-- Behind the name of a wrapped variant. -/
theorem variant_read_wrapped {variant : VariantDe} {d : Doc} {ts : List Token}
    (hready : Ready limit depth de) (hvariant : VariantCovers variant d) (hts : LeadsOn ts)
    (h : Lexes de.lexer (.keyValueSeparator :: (d.toks ++ ts)) it') :
    Ensures (variant.read true de) fun _ de' =>
      Ready limit depth de' ∧ Lexes de'.lexer ts it' := by
  have hseed : ∀ (seed : De Datum), Covers seed d → Ensures ((do
      expectVariantSeparator
      seed : De Datum) de) fun _ de' => Ready limit depth de' ∧ Lexes de'.lexer ts it' := by
    intro seed hseed
    refine (expectVariantSeparator_ensures h).bind ?_
    rintro _ de₁ ⟨_, hde, hrest⟩
    obtain ⟨it₂, hdoc, htail⟩ := Lexes.append_iff.mp hrest
    refine (hseed (hde ▸ hready.withLexer _) hdoc (htail.stops hts)).imp ?_
    rintro v de₂ ⟨hready₂, rfl⟩
    exact ⟨hready₂, htail⟩
  cases variant with
  | unit =>
    obtain ⟨t, us, htoks, ht⟩ := d.toks_head
    rw [VariantDe.read, unitVariant, if_pos rfl]
    refine Ensures.bind (Q := fun _ de' => Ready limit depth de' ∧ Lexes de'.lexer ts it') ?_
      fun _ de₁ hend => .ok hend
    refine (expectVariantSeparator_ensures h).bind ?_
    rintro _ de₁ ⟨_, hde, hrest⟩
    rw [htoks, List.cons_append] at hrest
    obtain ⟨it₂, hnext, htail⟩ := nextToken_of_lexes de₁ hrest
    refine .bind_ok hnext ?_
    rw [StateExcept.ite_apply]
    split
    · exact .error _
    · rename_i hentity
      obtain rfl := Classical.not_not.mp hentity
      obtain ⟨rfl, rfl⟩ := doc_of_entity htoks
      exact .ok ⟨hde ▸ (hready.withLexer _).withLexer it₂, htail⟩
  | newtype seed => exact hseed seed hvariant
  | tuple parts => exact hseed _ hvariant
  | struct fields => exact hseed _ hvariant

/-- The variants that go with this key read their content. -/
def VariantsCover (variants : List (List UInt8 × VariantDe)) (k : List UInt8) (d : Doc) : Prop :=
  ∀ i x, (variants.map Prod.fst).findIdx? (· == k) = some i → variants[i]? = some x →
    VariantCovers x.2 d

/-- A map-wrapped variant is read up to what follows its content. -/
theorem visitEnum_wrapped {variants : List (List UInt8 × VariantDe)} {k : List UInt8} {d : Doc}
    {ts : List Token} (hready : Ready limit depth de) (hvariants : VariantsCover variants k d)
    (hts : LeadsOn ts)
    (h : Lexes de.lexer (.string k :: .keyValueSeparator :: (d.toks ++ ts)) it') :
    Ensures (visitEnum variants true de) fun _ de' =>
      Ready limit depth de' ∧ Lexes de'.lexer ts it' := by
  obtain ⟨it₁, hkey, hrest⟩ := lexes_key h
  have hname : visitString (variantVisitor (variants.map Prod.fst)) k
      = ((variants.map Prod.fst).findIdx? (· == k)).elim
          (.error (.custom (.unknownVariant k))) .ok := ite_self _
  have hread := deserializeSkipping_string hready (variantVisitor (variants.map Prod.fst)) hkey
  rw [hname] at hread
  cases hfind : (variants.map Prod.fst).findIdx? (· == k) with
  | none =>
    rw [hfind] at hread
    exact .of_error (StateExcept.bind_error hread)
  | some i =>
    rw [hfind] at hread
    refine .bind_ok hread ?_
    cases hi : variants[i]? with
    | none => exact .error _
    | some x =>
      have hvariant := hvariants i x hfind hi
      refine (variant_read_wrapped (hready.withLexer it₁) hvariant hts hrest).bind ?_
      intro v de' hend
      exact .ok hend

/-- A variant that is not wrapped is its name. -/
theorem visitEnum_name (variants : List (List UInt8 × VariantDe)) (d : Doc) :
    Covers (visitEnum variants false) d := by
  intro limit depth de it' hready hlex hstop
  have hname : VisitorCovers (variantVisitor (variants.map Prod.fst)) d.bare := by
    cases d.bare with
    | list items trail => exact seqCovers_refuses rfl
    | map pairs trail => exact mapCovers_refuses rfl
    | attributed pairs trail body => exact mapCovers_refuses rfl
    | scalar | entity => trivial
  refine (deserializeSkipping_covers hname hready hlex hstop).bind ?_
  rintro i de₁ ⟨hready₁, rfl⟩
  cases hi : variants[i]? with
  | none => exact .error _
  | some x =>
    obtain ⟨name, variant⟩ := x
    have hread : Ensures (variant.read false de₁) fun _ => Stands limit depth de₁.lexer := by
      cases variant with
      | unit => exact .ok ⟨hready₁, rfl⟩
      | newtype seed =>
        exact (expectVariantSeparator_stops hstop fun _ _ => False).bind fun _ _ h => h.elim
      | tuple parts =>
        exact (expectVariantSeparator_stops hstop fun _ _ => False).bind fun _ _ h => h.elim
      | struct fields =>
        exact (expectVariantSeparator_stops hstop fun _ _ => False).bind fun _ _ h => h.elim
    refine hread.bind ?_
    intro v de' hend
    exact .ok hend

/-- Nothing but a value has a variant in it. -/
theorem visitEnum_stops {variants : List (List UInt8 × VariantDe)} {t : Token} {ts : List Token}
    {isMapWrapped : Bool} (hready : Ready limit depth de) (ht : t.startsValue = false)
    (h : Lexes de.lexer (t :: ts) it') (Q : Datum → Deserializer → Prop) :
    Ensures (visitEnum variants isMapWrapped de) Q :=
  (deserializeSkipping_stops hready ht h).bind fun _ _ hfalse => hfalse.elim

omit [FloatText] in
theorem behindVariant_cons (t : Token) (ts : List Token) : behindVariant (t :: ts) =
    if t = .itemSeparator ∨ t = .endMap then t :: ts else behindVariant ts := by
  unfold behindVariant
  by_cases h : t = .itemSeparator ∨ t = .endMap
  · rw [if_pos h, List.dropWhile_cons_of_neg]
    rw [decide_eq_true_eq]
    intro hne
    exact h.elim hne.1 hne.2
  · rw [if_neg h, List.dropWhile_cons_of_pos]
    rw [decide_eq_true_eq]
    exact not_or.mp h

omit [FloatText] in
theorem behindVariant_stops {ts : List Token} (h : .endMap ∈ ts) :
    ∃ t us, behindVariant ts = t :: us ∧ (t = .itemSeparator ∨ t = .endMap) ∧
      .endMap ∈ t :: us := by
  induction ts with
  | nil => cases h
  | cons t ts ih =>
    rw [behindVariant_cons]
    by_cases ht : t = .itemSeparator ∨ t = .endMap
    · rw [if_pos ht]
      exact ⟨t, ts, rfl, ht, h⟩
    · rw [if_neg ht]
      rcases List.mem_cons.mp h with h | h
      · exact absurd (Or.inr h.symm) ht
      · exact ih h

/-- The loop behind a variant stands at the first `;` or `}`. -/
theorem skipToVariantEnd_ensures {ts : List Token} (fuel : Nat) (hend : .endMap ∈ ts)
    (h : Lexes de.lexer ts it') :
    Ensures (skipToVariantEnd fuel de) fun _ de' =>
      de' = de.withLexer de'.lexer ∧ Lexes de'.lexer (behindVariant ts) it' := by
  induction ts generalizing de fuel with
  | nil => cases hend
  | cons t ts ih =>
    cases fuel with
    | zero => exact .error _
    | succ fuel =>
      obtain ⟨b, hpeek, hlead⟩ := h.peek
      obtain ⟨it₁, hnext, hrest⟩ :=
        nextToken_of_lexes (de.withLexer de.lexer.skipIgnored) h.skipIgnored
      have hstops : b = 0x3B ∨ b = 0x7D ↔ t = .itemSeparator ∨ t = .endMap :=
        or_congr (hlead.eq_iff (u := .itemSeparator) rfl) (hlead.eq_iff (u := .endMap) rfl)
      rw [skipToVariantEnd]
      dsimp only
      rw [hpeek]
      dsimp only
      by_cases hstop : t = .itemSeparator ∨ t = .endMap
      · -- the loop is over, nothing is passed over
        rw [if_pos (hstops.mpr hstop), behindVariant_cons, if_pos hstop]
        exact .ok ⟨rfl, h.skipIgnored⟩
      · rw [if_neg fun hb => hstop (hstops.mp hb), behindVariant_cons, if_neg hstop]
        have hlast : .endMap ∈ ts := by
          rcases List.mem_cons.mp hend with hend | hend
          · exact absurd (Or.inr hend.symm) hstop
          · exact hend
        refine .bind_ok hnext ?_
        refine (ih fuel hlast hrest).imp ?_
        rintro _ de' ⟨hde, hbehind⟩
        exact ⟨hde, hbehind⟩

/-- What `deserialize_enum` does behind the variant. -/
def closeVariant (value : α) : De α := do
  skipToVariantEnd (← budget)
  let peeked ← fun de =>
    match Yson.peekByte de.lexer with
    | .ok (byte, it) => .ok (some byte, { de with lexer := it })
    | .error _ => .ok (none, { de with lexer := de.lexer.skipIgnored })
  if peeked = some 0x3B then
    let _ ← nextToken
  match ← nextToken with
  | .endMap => pure value
  | t => throw (.custom (.afterVariant t))

/-- The next token is the bracket. -/
theorem takeEndMap_ensures {t : Token} {ts : List Token} (value : α) (hready : Ready limit depth de)
    (hlast : t = .endMap → ts = []) (h : Lexes de.lexer (t :: ts) it') :
    Ensures ((do
      match ← nextToken with
      | .endMap => pure value
      | t => throw (.custom (.afterVariant t)) : De α) de) fun _ => Stands limit depth it' := by
  obtain ⟨it₁, hnext, hrest⟩ := nextToken_of_lexes de h
  refine .bind_ok hnext ?_
  cases t with
  | endMap =>
    rw [hlast rfl] at hrest
    cases Lexes.nil_iff.mp hrest
    exact .ok ⟨hready.withLexer it', rfl⟩
  | _ => exact .error _

/-- **The map of an enum is closed by its own bracket**, if by any. -/
theorem closeVariant_ensures {ts : List Token} (value : α) (hready : Ready limit depth de)
    (hend : .endMap ∈ ts) (hearly : closesEarly (behindVariant ts) = false)
    (h : Lexes de.lexer ts it') : Ensures (closeVariant value de) fun _ => Stands limit depth it' := by
  rw [closeVariant]
  refine .bind_ok (budget_apply de) ?_
  refine (skipToVariantEnd_ensures _ hend h).bind ?_
  rintro _ de₁ ⟨hde, hbehind⟩
  have hready₁ : Ready limit depth de₁ := hde ▸ hready.withLexer _
  obtain ⟨t, us, hts, ht, hmem⟩ := behindVariant_stops hend
  rw [hts] at hbehind hearly
  obtain ⟨c, hpeek, hlead⟩ := hbehind.peek
  have hready₂ : Ready limit depth (de₁.withLexer de₁.lexer.skipIgnored) := hready₁.withLexer _
  have hskipped : Lexes (de₁.withLexer de₁.lexer.skipIgnored).lexer (t :: us) it' :=
    hbehind.skipIgnored
  refine Ensures.bind (Q := fun o de₂ => o = some c ∧
    de₂ = de₁.withLexer de₁.lexer.skipIgnored) (.of_ok ?_ ⟨rfl, rfl⟩) ?_
  · rw [hpeek]
    rfl
  · rintro _ _ ⟨rfl, rfl⟩
    rw [StateExcept.ite_apply]
    rcases ht with rfl | rfl
    · have hc : c = 0x3B := (hlead.eq_iff (u := .itemSeparator) rfl).mpr rfl
      rw [if_pos (by rw [hc])]
      obtain ⟨it₂, hnext, hrest⟩ := nextToken_of_lexes _ hskipped
      refine .bind_ok hnext ?_
      cases us with
      | nil => simp at hmem
      | cons u us =>
        refine takeEndMap_ensures value (hready₂.withLexer it₂) ?_ hrest
        rintro rfl
        simpa [closesEarly] using hearly
    · -- the bracket itself
      have hc : c ≠ 0x3B := fun hc => by
        cases (hlead.eq_iff (u := .itemSeparator) rfl).mp hc
      rw [if_neg (by simpa using hc)]
      refine takeEndMap_ensures value hready₂ (fun _ => ?_) hskipped
      simpa [closesEarly] using hearly

theorem deserializeEnum_covers {variants : List (List UInt8 × VariantDe)} {d : Doc}
    (hends : d.bare.variantEnds = true)
    (hvariants : ∀ n k v pairs trail, d.bare = .map ((n, k, v) :: pairs) trail →
      VariantsCover variants k v) : Covers (deserializeEnum (visitEnum variants)) d := by
  refine skipping_covers ?_
  generalize d.bare = d' at hvariants hends
  intro limit depth de it' hready hlex hstop
  obtain ⟨t, ts, htoks, ht⟩ := d'.toks_head
  have hlex' := hlex
  rw [htoks] at hlex'
  obtain ⟨b, it₁, hpeek, hlead, hnext, hrest⟩ := peek_next_of_lexes de hlex'
  refine .bind_ok hpeek ?_
  rw [StateExcept.ite_apply]
  split
  case isFalse =>
    exact visitEnum_name variants d' (hready.withLexer _) (lexes_doc_skip hlex) hstop
  case isTrue hb =>
    obtain rfl : t = .beginMap := (hlead.eq_iff (u := .beginMap) rfl).mp hb
    refine .bind_ok hnext ?_
    cases d' with
    | scalar s => cases s <;> simp [Doc.toks, Scalar.token] at htoks
    | entity | list | attributed => simp [Doc.toks] at htoks
    | map pairs trail =>
      rw [Doc.toks] at htoks
      cases htoks
      cases pairs with
      | nil =>
        have hnone : ∃ t ts, itemsToks [] ++ (seps trail ++ [.endMap]) = t :: ts ∧
            t.startsValue = false := by
          cases trail <;> exact ⟨_, _, rfl, rfl⟩
        obtain ⟨t, ts, hts, ht⟩ := hnone
        have hclose : Lexes it₁ (t :: ts) it' := hts ▸ hrest
        exact (visitEnum_stops (hready.withLexer it₁) ht hclose fun _ _ => False).bind
          fun _ _ h => h.elim
      | cons p pairs =>
        obtain ⟨n, k, v⟩ := p
        -- a leading `;` is no variant
        cases n with
        | succ n =>
          have hsep : Lexes it₁ (.itemSeparator :: (seps n ++ (.string k :: .keyValueSeparator ::
              (v.toks ++ pairsToks pairs)) ++ (seps trail ++ [.endMap]))) it' := by
            simpa [pairsToks, seps, List.replicate_succ] using hrest
          exact (visitEnum_stops (hready.withLexer it₁) rfl hsep fun _ _ => False).bind
            fun _ _ h => h.elim
        | zero =>
        have hwrapped := hvariants 0 k v pairs trail rfl
        rw [pairsToks] at hrest
        have hcontent : Lexes it₁ (.string k :: .keyValueSeparator :: (v.toks ++
            (pairsToks pairs ++ (seps trail ++ [.endMap])))) it' := by
          simpa [seps] using hrest
        have hts : LeadsOn (pairsToks pairs ++ (seps trail ++ [.endMap])) :=
          leadsOn_pairs (leadsOn_seps ⟨.endMap, [], rfl, by simp⟩ trail) pairs
        refine (visitEnum_wrapped (hready.withLexer it₁) hwrapped hts hcontent).bind ?_
        rintro value de₂ ⟨hready₂, htail⟩
        exact closeVariant_ensures value hready₂ (by simp) (by simpa [Doc.variantEnds] using hends)
          htail

/-! ## The attributes of `WithAttributes` -/

/-- In attribute position, at nesting depth `depth`. -/
structure Flagged (limit depth : Nat) (de : Deserializer) : Prop where
  flag : de.isReadingAttributes = true
  depth : de.depth = depth
  limit : de.maxDepth = limit

/-- In attribute position the seed reads the attribute block of the document, or nothing. -/
def ReadsBlock (seed : De α) (d : Doc) : Prop :=
  ∀ {limit depth : Nat} {de : Deserializer} {it' : YsonIterator}, Flagged limit depth de →
    Lexes de.lexer d.toks it' → Ensures (seed de) fun _ de' =>
      (de'.depth = depth ∧ de'.maxDepth = limit) ∧ Lexes de'.lexer d.bare.toks it'

/-- A pure step at the end. -/
theorem ReadsBlock.map {β : Type} {seed : De α} {d : Doc} (h : ReadsBlock seed d) (f : α → β) :
    ReadsBlock (seed >>= fun v => pure (f v)) d := fun hflag hlex =>
  (h hflag hlex).bind fun _ _ hend => .ok hend

/-- The state behind `takeReadingAttributes`. -/
def unflagged (de : Deserializer) : Deserializer := { de with isReadingAttributes := false }

omit [FloatText] in
theorem Flagged.take (h : Flagged limit depth de) :
    takeReadingAttributes de = .ok (true, unflagged de) ∧ Ready limit depth (unflagged de) := by
  refine ⟨?_, rfl, h.depth, h.limit⟩
  rw [← h.flag]
  rfl

omit [FloatText] in
theorem Flagged.withLexer (h : Flagged limit depth de) (it : YsonIterator) :
    Flagged limit depth (de.withLexer it) := ⟨h.flag, h.depth, h.limit⟩

theorem deserializeAttributes_ensures {visitor : Visitor α} {d : Doc}
    (hvisit : MapCovers visitor d.blockEntries) (hready : Ready limit depth de)
    (h : Lexes de.lexer d.toks it') :
    Ensures (deserializeAttributes visitor de) fun _ de' =>
      Ready limit depth de' ∧ Lexes de'.lexer d.bare.toks it' := by
  obtain ⟨t, ts, htoks, ht⟩ := d.toks_head
  have hlex := h
  rw [htoks] at hlex
  obtain ⟨b, it₁, hpeek, hlead, hnext, hrest⟩ := peek_next_of_lexes de hlex
  rw [deserializeAttributes]
  refine .bind_ok hpeek ?_
  rw [StateExcept.ite_apply]
  cases hattr : d.isAttributed with
  | false =>
    have hb : b ≠ 0x3C := fun hb =>
      Doc.plain_lead hattr htoks ((hlead.eq_iff (u := .beginAttributes) rfl).mp hb)
    rw [if_pos hb]
    have hstop : Stops de.lexer.skipIgnored := by
      refine (lexes_doc_skip h).stops ?_
      simpa using d.leadsOn []
    have hnone : d.blockEntries = [] := by
      cases d with
      | attributed => cases hattr
      | scalar | entity | list | map => rfl
    have hmap : Bracketed .empty := trivial
    rw [hnone] at hvisit
    refine (hvisit (hready.withLexer _) hmap (.presents (.empty _)) hstop).bind ?_
    rintro ⟨v, access⟩ de₁ ⟨⟨hready₁, hlexer⟩, _⟩
    refine .ok ⟨hready₁, ?_⟩
    rw [hlexer, Doc.bare_of_plain hattr]
    exact lexes_doc_skip h
  | true =>
    cases d with
    | scalar | entity | list | map => cases hattr
    | attributed pairs trail body =>
    rw [Doc.toks] at htoks
    cases htoks
    have hb : b = 0x3C := (hlead.eq_iff (u := .beginAttributes) rfl).mpr rfl
    rw [if_neg (by simp [hb])]
    refine .bind_ok hnext ?_
    have hsplit : Lexes it₁ ((pairsToks pairs ++ (seps trail ++ [.endAttributes])) ++ body.toks)
        it' := by
      simpa using hrest
    obtain ⟨it₂, hblock, hbody⟩ := Lexes.append_iff.mp hsplit
    have hstop : Stops it₂ := by
      refine hbody.stops ?_
      simpa using body.leadsOn []
    have hmap : Bracketed (.commaSeparated 0x3E false) := Or.inr rfl
    refine (visitCommaSeparatedMap_ensures (hready.withLexer it₁) hvisit hmap hstop
      (.comma closes_attributes hblock)).imp ?_
    rintro v de₁ ⟨⟨hready₁, rfl⟩, _⟩
    exact ⟨hready₁, hbody⟩

theorem deserializeSkipping_block {visitor : Visitor α} {d : Doc}
    (hvisit : MapCovers visitor d.blockEntries) : ReadsBlock (deserializeSkipping visitor) d := by
  intro limit depth de it' hflag hlex
  obtain ⟨htake, hready⟩ := hflag.take
  rw [deserializeSkipping, StateExcept.get_bind, StateExcept.ite_apply,
    if_neg (by simp [hflag.flag])]
  refine .bind_ok htake ?_
  rw [if_pos rfl]
  refine (deserializeAttributes_ensures hvisit hready hlex).imp ?_
  rintro v de' ⟨hready', hbare⟩
  exact ⟨⟨hready'.depth, hready'.limit⟩, hbare⟩

theorem deserializeOption_block {visitSome : De α} {d : Doc} (h : ReadsBlock visitSome d) :
    ReadsBlock (deserializeOption visitSome) d := by
  intro limit depth de it' hflag hlex
  obtain ⟨htake, hready⟩ := hflag.take
  obtain ⟨t, ts, htoks, ht⟩ := d.toks_head
  have hlex' := hlex
  rw [htoks] at hlex'
  obtain ⟨b, hpeek, hlead⟩ := peekByte_of_lexes (unflagged de) hlex'
  refine .bind_ok htake ?_
  rw [if_pos rfl]
  refine .bind_ok hpeek ?_
  rw [StateExcept.ite_apply]
  split
  · rw [StateExcept.modify_bind]
    have hflag' : Flagged limit depth { (unflagged de).withLexer de.lexer.skipIgnored with
        isReadingAttributes := true } := ⟨rfl, hready.depth, hready.limit⟩
    refine (h hflag' (lexes_doc_skip hlex)).bind ?_
    rintro v de₁ hend
    rw [StateExcept.modify_bind]
    exact .ok hend
  · rename_i hb
    refine .ok ⟨⟨hready.depth, hready.limit⟩, ?_⟩
    have hplain : d.isAttributed = false := by
      cases d with
      | attributed pairs trail body =>
        rw [Doc.toks] at htoks
        cases htoks
        exact absurd ((hlead.eq_iff (u := .beginAttributes) rfl).mpr rfl) hb
      | scalar | entity | list | map => rfl
    rw [Doc.bare_of_plain hplain]
    exact lexes_doc_skip hlex

/-- A visitor of no map refuses to be attributes. -/
theorem deserializeSkipping_refuses {visitor : Visitor α} {e : YsonError}
    (h : visitor.visitMap = fun _ => throw e) (hflag : Flagged limit depth de)
    (Q : α → Deserializer → Prop) : Ensures (deserializeSkipping visitor de) Q := by
  have hrefuse : ∀ (map : MapAccess) (de : Deserializer),
      Ensures (visitor.visitMap map de) fun _ _ => False := by
    intro map de
    rw [h]
    exact .error _
  obtain ⟨htake, _⟩ := hflag.take
  rw [deserializeSkipping, StateExcept.get_bind, StateExcept.ite_apply,
    if_neg (by simp [hflag.flag])]
  refine .bind_ok htake ?_
  rw [if_pos rfl, deserializeAttributes]
  refine .bind_any fun b de₁ => ?_
  rw [StateExcept.ite_apply]
  split
  · exact (hrefuse .empty de₁).bind fun _ _ h => h.elim
  · refine .bind_any fun t de₂ => ?_
    refine (visitCommaSeparated_ensures (hrefuse (.commaSeparated 0x3E false) de₂.deeper)).imp ?_
    rintro _ _ ⟨_, _, hfalse, _⟩
    exact hfalse.elim

/-- An enum is never attributes. -/
theorem deserializeEnum_flagged {variants : List (List UInt8 × VariantDe)} {t : Token}
    {ts : List Token} (hflag : Flagged limit depth de) (h : Lexes de.lexer (t :: ts) it') :
    Ensures (deserializeEnum (visitEnum variants) de) fun _ _ => False := by
  have hname : ∀ (b : Bool) (de : Deserializer), Flagged limit depth de →
      Ensures (visitEnum variants b de) fun _ _ => False := by
    intro b de hflag
    exact (deserializeSkipping_refuses rfl hflag fun _ _ => False).bind fun _ _ h => h.elim
  obtain ⟨b, it₁, hpeek, _, hnext, _⟩ := peek_next_of_lexes de h
  rw [deserializeEnum, StateExcept.get_bind, StateExcept.ite_apply,
    if_neg (by simp [hflag.flag])]
  refine .bind_ok hpeek ?_
  rw [StateExcept.ite_apply]
  split
  · refine .bind_ok hnext ?_
    exact (hname true _ (hflag.withLexer it₁)).bind fun _ _ h => h.elim
  · exact (hname false _ (hflag.withLexer _)).imp fun _ _ h => h.elim

theorem deserializeEnum_block {variants : List (List UInt8 × VariantDe)} {d : Doc} :
    ReadsBlock (deserializeEnum (visitEnum variants)) d := by
  intro limit depth de it' hflag hlex
  obtain ⟨t, ts, htoks, _⟩ := d.toks_head
  rw [htoks] at hlex
  exact (deserializeEnum_flagged hflag hlex).imp fun _ _ hfalse => hfalse.elim

/-- **`WithAttributes` reads the block into one part and the body into the other.** -/
theorem withAttributes_covers {attributes value : De Datum} {d : Doc}
    (hattributes : ReadsBlock attributes d) (hvalue : Covers value d.bare) :
    Covers (visitAttributesWrapper (withAttributesVisitor attributes value)) d := by
  intro limit depth de it' hready hlex hstop
  have hinner : Ensures ((do
      let (v, _) ← (withAttributesVisitor attributes value).visitSeq (.attributesWrapper 0)
      pure v : De Datum) de.deeper) fun _ de₁ => Stands limit (depth + 1) it' de₁ := by
    refine Ensures.bind (Q := fun _ de₁ => Stands limit (depth + 1) it' de₁) ?_
      fun _ _ hstands => .ok hstands
    have hflag : Flagged limit (depth + 1) { de.deeper with isReadingAttributes := true } :=
      ⟨rfl, hready.deeper.depth, hready.deeper.limit⟩
    have hblock : Ensures (nextElement attributes (.attributesWrapper 0) de.deeper) fun r de₁ =>
        (∃ a, r = (some a, .attributesWrapper 1)) ∧ Ready limit (depth + 1) de₁ ∧
          Lexes de₁.lexer d.bare.toks it' := by
      rw [nextElement, StateExcept.modify_bind]
      refine (hattributes hflag hlex).bind ?_
      rintro a de₁ ⟨⟨hdepth, hlimit⟩, hbody⟩
      rw [StateExcept.modify_bind]
      exact .ok ⟨⟨a, rfl⟩, ⟨rfl, hdepth, hlimit⟩, hbody⟩
    refine hblock.bind ?_
    rintro _ de₁ ⟨⟨a, rfl⟩, hready₁, hbody⟩
    refine .bind_ok rfl ?_
    refine Ensures.bind (Q := fun r de₂ => (∃ v, r = (some v, .attributesWrapper 2)) ∧
      Stands limit (depth + 1) it' de₂) ?_ ?_
    · refine (hvalue hready₁ hbody hstop).bind ?_
      intro v de₂ hstands
      exact .ok ⟨⟨v, rfl⟩, hstands⟩
    · rintro _ de₂ ⟨⟨v, rfl⟩, hstands⟩
      refine .bind_ok rfl ?_
      exact .ok hstands
  refine (nested_ensures hinner).imp ?_
  rintro v _ ⟨de₁, hstands, rfl⟩
  exact ⟨ready_leave hstands.ready de₁.containerEnded, hstands.lexer⟩

end Ytsaurus.Yson.De
