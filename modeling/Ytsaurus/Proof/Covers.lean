import Ytsaurus.Grammar.Bare
import Ytsaurus.Proof.SkipAttributes
import Ytsaurus.Yson.Typed

/-!
# `Proof/Covers.lean` — how far a typed decode reads

A decode that succeeds on the tokens of a document should end exactly behind them. `Covers seed d`
says so of one seed and one document; here it is proved of every visitor the standard types and
derived structs have, given it of their parts. What can go wrong is a positional visitor that asks
for an element after it was told there are none: `Fits` is what keeps it from doing so.

A document may have any number of `;` between its items. The access objects step over one, so a
second one is handed to the seed of the next element or key, and no seed takes it (`Refuses`).

The predicate is one-sided. It speaks of decodes that succeed and of nothing else, neither of what
they return nor of whether they do, so that it can be proved of a visitor without knowing what
the visitor makes of its elements. `Ensures` carries such a statement through a program, step by
step: whatever the first part leaves behind when it succeeds is what the next part starts from.

Lists are here; maps, structs and enums are in `Proof/Entries.lean`, and the types that put them
together in `Proof/Consumed.lean`.
-/

set_option autoImplicit false

namespace Ytsaurus.Yson

open StateExcept (Ensures)

variable {α κ : Type}

/-! ## What may follow a value -/

/-- No `=` comes next. -/
def Stops [FloatText] (it : YsonIterator) : Prop :=
  ∀ it', nextToken it ≠ .ok (.keyValueSeparator, it')

/-- There is a first token, and it is not `=`. -/
def LeadsOn (ts : List Token) : Prop := ∃ t us, ts = t :: us ∧ t ≠ .keyValueSeparator

theorem leadsOn_seps {ts : List Token} (h : LeadsOn ts) (n : Nat) : LeadsOn (seps n ++ ts) := by
  cases n with
  | zero => exact h
  | succ n => exact ⟨.itemSeparator, seps n ++ ts, rfl, by simp⟩

theorem Doc.leadsOn (d : Doc) (ts : List Token) : LeadsOn (d.toks ++ ts) := by
  obtain ⟨t, us, htoks, ht⟩ := d.toks_head
  refine ⟨t, us ++ ts, by rw [htoks]; rfl, ?_⟩
  rintro rfl
  cases ht

theorem leadsOn_items {ts : List Token} (h : LeadsOn ts) (items : List (Nat × Doc)) :
    LeadsOn (itemsToks items ++ ts) := by
  cases items with
  | nil => exact h
  | cons p items =>
    obtain ⟨n, d⟩ := p
    rw [itemsToks, List.append_assoc, List.append_assoc]
    exact leadsOn_seps (d.leadsOn _) n

theorem leadsOn_pairs {ts : List Token} (h : LeadsOn ts) (pairs : List (Nat × List UInt8 × Doc)) :
    LeadsOn (pairsToks pairs ++ ts) := by
  cases pairs with
  | nil => exact h
  | cons p pairs =>
    obtain ⟨n, k, d⟩ := p
    rw [pairsToks, List.append_assoc]
    exact leadsOn_seps ⟨.string k, _, rfl, by simp⟩ n

theorem Lexes.stops [FloatText] {it it' : YsonIterator} {ts : List Token} (h : Lexes it ts it')
    (hlead : LeadsOn ts) : Stops it := by
  obtain ⟨t, us, rfl, ht⟩ := hlead
  obtain ⟨it₁, hnext, _⟩ := Lexes.cons_iff.mp h
  intro it₂ heq
  cases hnext.symm.trans heq
  exact ht rfl

/-! ## Seeds that read one document -/

/-- In front of a `;` the seed fails. -/
def Refuses [FloatText] (seed : De α) : Prop :=
  ∀ {limit depth : Nat} {de : Deserializer} {it' : YsonIterator} {ts : List Token},
    Ready limit depth de → Lexes de.lexer (.itemSeparator :: ts) it' →
    Ensures (seed de) fun _ _ => False

/-- Whatever comes behind the seed. -/
theorem Refuses.bind [FloatText] {β : Type} {seed : De α} (h : Refuses seed) (f : α → De β) :
    Refuses (seed >>= f) := by
  intro limit depth de it' ts hready hlex
  refine (h hready hlex).bind ?_
  intro _ _ hfalse
  exact hfalse.elim

/-- Between values, at `it`. -/
structure Stands (limit depth : Nat) (it : YsonIterator) (de : Deserializer) : Prop where
  ready : Ready limit depth de
  lexer : de.lexer = it

/-- On the document, in front of something that is not `=`, a success of the seed ends behind
the document. -/
def Covers [FloatText] (seed : De α) (d : Doc) : Prop :=
  ∀ {limit depth : Nat} {de : Deserializer} {it' : YsonIterator}, Ready limit depth de →
    Lexes de.lexer d.toks it' → Stops it' → Ensures (seed de) fun _ => Stands limit depth it'

theorem Reads.ensures {limit depth : Nat} {de : Deserializer} {it' : YsonIterator}
    {r : Except YsonError α} {run : Except YsonError (α × Deserializer)}
    (h : Reads de it' r run) (hready : Ready limit depth de) :
    Ensures run fun v de' => r = .ok v ∧ Stands limit depth it' de' := by
  cases r with
  | error e => exact .of_error h
  | ok v =>
    obtain ⟨b, hrun⟩ := h
    exact .of_ok hrun ⟨rfl, ⟨hready.plain, hready.depth, hready.limit⟩, rfl⟩

theorem Covers.error [FloatText] {seed : De α} {d : Doc} {e : YsonError}
    (h : ∀ de, seed de = .error e) : Covers seed d := fun _ _ _ => .of_error (h _)

/-- A pure step at the end. -/
theorem Covers.map [FloatText] {β : Type} {seed : De α} {d : Doc} (h : Covers seed d) (f : α → β) :
    Covers (seed >>= fun v => pure (f v)) d := fun hready hlex hstop =>
  (h hready hlex hstop).bind fun _ _ hstands => .ok hstands

namespace De

variable [FloatText] {limit depth : Nat} {de : Deserializer} {it' : YsonIterator}

/-! ## Where a list access stands -/

/-- The items a list access has still to offer. -/
inductive AtItems (trail : Nat) (it' : YsonIterator) :
    SeqAccess → YsonIterator → List (Nat × Doc) → Prop where
  | more {it : YsonIterator} {items : List (Nat × Doc)}
    (h : Lexes it (itemsToks items ++ (seps trail ++ [.endList])) it') :
    AtItems trail it' (.commaSeparated 0x5D false) it items
  | ended : AtItems trail it' (.commaSeparated 0x5D true) it' []

/-- Of several `;` the access steps over the first. -/
theorem commaSeparatedAtEnd_crowded {n : Nat} {endTok : Token} {endByte : UInt8} {ts : List Token}
    (hend : Closes endTok endByte) (hn : ¬ n ≤ 1) (h : Lexes de.lexer (seps n ++ ts) it') :
    ∃ it₁ us, commaSeparatedAtEnd endByte de = .ok (false, de.withLexer it₁) ∧
      Lexes it₁ (.itemSeparator :: us) it' := by
  obtain ⟨m, rfl⟩ : ∃ m, n = m + 2 := ⟨n - 2, by omega⟩
  have hseps : Lexes de.lexer (.itemSeparator :: .itemSeparator :: (seps m ++ ts)) it' := h
  obtain ⟨b, it₁, hpeek, hlead, hnext, hrest⟩ := peek_next_of_lexes de hseps
  obtain ⟨c, hpeek', hlead'⟩ := peekByte_of_lexes (de.withLexer it₁) hrest
  have hopen : ∀ {b : UInt8}, Leads b .itemSeparator → b ≠ endByte := fun hlead hb =>
    hend.notSeparator ((hlead.eq_iff hend.lead).mp hb).symm
  have hb : b = 0x3B := (hlead.eq_iff (u := .itemSeparator) rfl).mpr rfl
  refine ⟨_, seps m ++ ts, ?_, Lexes.skipIgnored hrest⟩
  rw [commaSeparatedAtEnd, StateExcept.bind_ok hpeek]
  rw [StateExcept.ite_apply, if_neg (hopen hlead), StateExcept.ite_apply, if_pos hb,
    StateExcept.bind_ok hnext, StateExcept.bind_ok hpeek', StateExcept.ite_apply,
    if_neg (hopen hlead')]
  rfl

theorem nextElement_crowded {n : Nat} {ts : List Token} {seed : De α}
    (hready : Ready limit depth de) (hrefuse : Refuses seed) (hn : ¬ n ≤ 1)
    (h : Lexes de.lexer (seps n ++ ts) it') :
    Ensures (nextElement seed (.commaSeparated 0x5D false) de) fun _ _ => False := by
  obtain ⟨it₁, us, hat, hrest⟩ := commaSeparatedAtEnd_crowded closes_list hn h
  rw [nextElement]
  refine .bind_ok hat ?_
  exact hrefuse.bind _ (hready.withLexer it₁) hrest

theorem nextElement_last {trail : Nat} {seed : De α} (hready : Ready limit depth de)
    (hrefuse : Refuses seed)
    (h : Lexes de.lexer (itemsToks [] ++ (seps trail ++ [.endList])) it') :
    Ensures (nextElement seed (.commaSeparated 0x5D false) de) fun r de' =>
      r = (none, .commaSeparated 0x5D true) ∧ Stands limit depth it' de' := by
  by_cases htrail : trail ≤ 1
  · exact .of_ok (nextElement_close closes_list htrail h seed false)
      ⟨rfl, hready.withLexer it', rfl⟩
  · exact (nextElement_crowded hready hrefuse htrail h).imp fun _ _ hfalse => hfalse.elim

theorem nextElement_first {trail n : Nat} {d : Doc} {items : List (Nat × Doc)} {seed : De α}
    (hready : Ready limit depth de) (hrefuse : Refuses seed) (hseed : Covers seed d)
    (h : Lexes de.lexer (itemsToks ((n, d) :: items) ++ (seps trail ++ [.endList])) it') :
    Ensures (nextElement seed (.commaSeparated 0x5D false) de) fun r de' =>
      (∃ v, r = (some v, .commaSeparated 0x5D false)) ∧ Ready limit depth de' ∧
      Lexes de'.lexer (itemsToks items ++ (seps trail ++ [.endList])) it' := by
  obtain ⟨t, ts, htoks, ht⟩ := d.toks_head
  rw [itemsToks, htoks, List.append_assoc, List.append_assoc, List.cons_append] at h
  by_cases hn : n ≤ 1
  case neg => exact (nextElement_crowded hready hrefuse hn h).imp fun _ _ hfalse => hfalse.elim
  obtain ⟨it₁, hat, hrest⟩ := commaSeparatedAtEnd_item closes_list hn ht h
  rw [← List.cons_append, ← htoks] at hrest
  obtain ⟨it₂, hdoc, htail⟩ := Lexes.append_iff.mp hrest
  have hstop : Stops it₂ :=
    htail.stops (leadsOn_items (leadsOn_seps ⟨.endList, [], rfl, by simp⟩ trail) items)
  rw [nextElement]
  refine .bind_ok hat ?_
  refine (hseed (hready.withLexer it₁) hdoc hstop).bind fun v de' hstands => ?_
  refine .ok ⟨⟨v, rfl⟩, hstands.ready, ?_⟩
  rw [hstands.lexer]
  exact htail

/-! ## Lists -/

/-- On these items a visit leaves the access in front of what it did not read. -/
def SeqCovers (visitor : Visitor α) (items : List (Nat × Doc)) : Prop :=
  ∀ {limit depth trail : Nat} {de : Deserializer} {it' : YsonIterator}, Ready limit depth de →
    Lexes de.lexer (itemsToks items ++ (seps trail ++ [.endList])) it' →
    Ensures (visitor.visitSeq (.commaSeparated 0x5D false) de) fun r de' => Ready limit depth de' ∧
      ∃ rest, AtItems trail it' r.2 de'.lexer rest

theorem seqCovers_refuses {visitor : Visitor α} {items : List (Nat × Doc)} {e : YsonError}
    (h : visitor.visitSeq = fun _ => throw e) : SeqCovers visitor items := by
  intro _ _ _ _ _ _ _
  rw [h]
  exact .error _

theorem elements_ensures {element : De α} {items : List (Nat × Doc)} {trail : Nat}
    (hready : Ready limit depth de) (hrefuse : Refuses element)
    (hitems : ∀ p ∈ items, Covers element p.2)
    (h : Lexes de.lexer (itemsToks items ++ (seps trail ++ [.endList])) it') (fuel : Nat)
    (vs : List α) :
    Ensures (elements element fuel vs (.commaSeparated 0x5D false) de) fun r de' =>
      r.2 = .commaSeparated 0x5D true ∧ Stands limit depth it' de' := by
  induction items generalizing de fuel vs with
  | nil =>
    cases fuel with
    | zero => exact .error _
    | succ fuel =>
      refine (nextElement_last hready hrefuse h).bind ?_
      rintro _ de' ⟨rfl, hstands⟩
      exact .ok ⟨rfl, hstands⟩
  | cons p items ih =>
    obtain ⟨n, d⟩ := p
    have hseed : Covers element d := hitems _ List.mem_cons_self
    cases fuel with
    | zero => exact .error _
    | succ fuel =>
      refine (nextElement_first hready hrefuse hseed h).bind ?_
      rintro _ de' ⟨⟨v, rfl⟩, hready', hlex⟩
      exact ih hready' (fun p hp => hitems p (List.mem_cons_of_mem _ hp)) hlex fuel (vs ++ [v])

/-- A visitor that asks for elements until there are none. -/
theorem elements_covers {element : De α} {items : List (Nat × Doc)} {β : Type}
    {visitor : Visitor β} {f : List α → β}
    (hvisit : visitor.visitSeq = fun seq => do
      let r ← elements element (← budget) [] seq
      pure (f r.1, r.2))
    (hrefuse : Refuses element) (hitems : ∀ p ∈ items, Covers element p.2) :
    SeqCovers visitor items := by
  intro limit depth trail de it' hready h
  rw [hvisit]
  refine .bind_ok (budget_apply de) ?_
  refine (elements_ensures hready hrefuse hitems h _ []).bind ?_
  rintro ⟨vs, seq⟩ de' ⟨hseq, hstands⟩
  obtain rfl : seq = .commaSeparated 0x5D true := hseq
  refine .ok ⟨hstands.ready, [], ?_⟩
  rw [hstands.lexer]
  exact .ended

omit [FloatText] in
theorem orDefault_read (part : Part) (i : Nat) (v : Datum) (de : Deserializer) :
    part.orDefault i (some v) de = .ok (v, de) := by
  obtain ⟨seed, default⟩ := part
  rfl

omit [FloatText] in
theorem orDefault_default {part : Part} {v : Datum} (i : Nat) (de : Deserializer)
    (h : part.2 = some v) : part.orDefault i none de = .ok (v, de) := by
  obtain ⟨seed, default⟩ := part
  cases h
  rfl

omit [FloatText] in
theorem orDefault_missing {part : Part} (i : Nat) (de : Deserializer) (h : part.2 = none) :
    part.orDefault i none de = .error (.custom (.invalidLength i)) := by
  obtain ⟨seed, default⟩ := part
  cases h
  rfl

/-- No part is asked for once the items are over: the first that is missing is the last, or
has no default to go on with. -/
def Fits : List Part → List Doc → Prop
  | [], _ => True
  | part :: parts, [] => parts = [] ∨ part.2 = none
  | part :: parts, d :: ds => Covers part.1 d ∧ Fits parts ds

theorem positional_ensures {parts : List Part} {items : List (Nat × Doc)} {trail : Nat}
    (hready : Ready limit depth de) (hrefuse : ∀ part ∈ parts, Refuses part.1)
    (hfits : Fits parts (items.map Prod.snd))
    (h : Lexes de.lexer (itemsToks items ++ (seps trail ++ [.endList])) it') (i : Nat) :
    Ensures (positional parts i (.commaSeparated 0x5D false) de) fun r de' =>
      Ready limit depth de' ∧ ∃ rest, AtItems trail it' r.2 de'.lexer rest := by
  induction parts generalizing de items i with
  | nil => exact .ok ⟨hready, items, .more h⟩
  | cons part parts ih =>
    have hpart : Refuses part.1 := hrefuse part List.mem_cons_self
    rw [positional]
    cases items with
    | nil =>
      refine (nextElement_last hready hpart h).bind ?_
      rintro _ de' ⟨rfl, hstands⟩
      have hended : AtItems trail it' (.commaSeparated 0x5D true) de'.lexer [] := by
        rw [hstands.lexer]
        exact .ended
      cases hdefault : part.2 with
      | none =>
        exact .of_error (StateExcept.bind_error (orDefault_missing i de' hdefault))
      | some v =>
        have hlast : parts = [] := by
          rcases hfits with hlast | hnone
          · exact hlast
          · rw [hdefault] at hnone
            cases hnone
        subst hlast
        refine .bind_ok (orDefault_default i de' hdefault) ?_
        exact .ok ⟨hstands.ready, [], hended⟩
    | cons p items =>
      obtain ⟨n, d⟩ := p
      obtain ⟨hseed, hfits⟩ := hfits
      refine (nextElement_first hready hpart hseed h).bind ?_
      rintro _ de' ⟨⟨v, rfl⟩, hready', hlex⟩
      refine .bind_ok (orDefault_read part i v de') ?_
      have hrest := ih hready' (fun p hp => hrefuse p (List.mem_cons_of_mem _ hp)) hfits hlex (i + 1)
      refine hrest.bind ?_
      rintro ⟨vs, seq⟩ de'' hend
      exact .ok hend

/-! ## Closing a container -/

theorem skipSeparator_seps {n : Nat} {t : Token} {ts : List Token} (de : Deserializer)
    (ht : t ≠ .itemSeparator) (h : Lexes de.lexer (seps n ++ (t :: ts)) it') :
    ∃ it₁, skipSeparator de = .ok ((), de.withLexer it₁) ∧
      Lexes it₁ (seps (n - 1) ++ (t :: ts)) it' := by
  cases n with
  | zero =>
    obtain ⟨b, hpeek, hlead⟩ := peekByte_of_lexes de h
    refine ⟨_, ?_, h.skipIgnored⟩
    have hb : b ≠ 0x3B := fun hb => ht ((hlead.eq_iff (u := .itemSeparator) rfl).mp hb)
    rw [skipSeparator, StateExcept.bind_ok hpeek, StateExcept.ite_apply, if_neg hb]
    rfl
  | succ n =>
    have hsep : Lexes de.lexer (.itemSeparator :: (seps n ++ (t :: ts))) it' := h
    obtain ⟨b, it₁, hpeek, hlead, hnext, hrest⟩ := peek_next_of_lexes de hsep
    refine ⟨it₁, ?_, hrest⟩
    have hb : b = 0x3B := (hlead.eq_iff (u := .itemSeparator) rfl).mpr rfl
    rw [skipSeparator, StateExcept.bind_ok hpeek, StateExcept.ite_apply, if_pos hb,
      StateExcept.bind_ok hnext]
    rfl

theorem takeTerminator_stops {t : Token} {ts : List Token} (ht : t ≠ .endList)
    (h : Lexes de.lexer (t :: ts) it') : Ensures (takeTerminator 0x5D de) fun _ _ => False := by
  obtain ⟨b, hpeek, hlead⟩ := peekByte_of_lexes de h
  have hb : b ≠ 0x5D := fun hb => ht ((hlead.eq_iff (u := .endList) rfl).mp hb)
  rw [takeTerminator]
  refine .bind_ok hpeek ?_
  rw [StateExcept.ite_apply, if_neg hb]
  exact .error _

/-- Behind at most one `;` the bracket has to come. -/
theorem endContainer_stops {n : Nat} {t : Token} {ts : List Token} (hopen : de.containerEnded = false)
    (hsep : t ≠ .itemSeparator) (ht : n ≤ 1 → t ≠ .endList)
    (h : Lexes de.lexer (seps n ++ (t :: ts)) it') :
    Ensures (endContainer 0x5D de) fun _ _ => False := by
  obtain ⟨it₁, hskip, hrest⟩ := skipSeparator_seps de hsep h
  rw [endContainer, StateExcept.get_bind, StateExcept.ite_apply, if_neg (by simp [hopen])]
  refine .bind_ok hskip ?_
  have hlex : Lexes (de.withLexer it₁).lexer (seps (n - 1) ++ (t :: ts)) it' := hrest
  cases hmore : n - 1 with
  | zero =>
    rw [hmore] at hlex
    exact takeTerminator_stops (ht (by omega)) hlex
  | succ m =>
    rw [hmore] at hlex
    have hsecond : Token.itemSeparator ≠ .endList := by simp
    exact takeTerminator_stops hsecond hlex

/-- A list is closed only behind its last item. -/
theorem endContainer_items {items : List (Nat × Doc)} {trail : Nat}
    (hopen : de.containerEnded = false)
    (h : Lexes de.lexer (itemsToks items ++ (seps trail ++ [.endList])) it') :
    Ensures (endContainer 0x5D de) fun _ de' => de' = de.withLexer it' := by
  cases items with
  | nil =>
    by_cases htrail : trail ≤ 1
    · exact .of_ok (endContainer_open hopen closes_list htrail h) rfl
    · exact (endContainer_stops hopen (by simp) (fun hle => absurd hle htrail) h).imp
        fun _ _ hfalse => hfalse.elim
  | cons p items =>
    obtain ⟨n, d⟩ := p
    obtain ⟨t, ts, htoks, ht⟩ := d.toks_head
    have hsep : t ≠ .itemSeparator := by
      rintro rfl
      cases ht
    have hclose : t ≠ .endList := by
      rintro rfl
      cases ht
    rw [itemsToks, htoks, List.append_assoc, List.append_assoc, List.cons_append] at h
    exact (endContainer_stops hopen hsep (fun _ => hclose) h).imp fun _ _ hfalse => hfalse.elim

omit [FloatText] in
theorem nested_ensures {x : De α} {Q : α → Deserializer → Prop} (h : Ensures (x de.deeper) Q) :
    Ensures (nested x de) fun v de' =>
      ∃ de₁, Q v de₁ ∧ de' = { de₁ with depth := de₁.depth - 1 } := by
  intro v de' hrun
  obtain ⟨de₁, hx, hde⟩ := nested_ok hrun
  exact ⟨de₁, h v de₁ hx, hde⟩

omit [FloatText] in
/-- What a `CommaSeparated` reports on `Drop` comes on top. -/
theorem visitCommaSeparated_ensures {β : Type} {visit : De (α × β)} {ended : β → Bool}
    {Q : α × β → Deserializer → Prop} (h : Ensures (visit de.deeper) Q) :
    Ensures (visitCommaSeparated visit ended de) fun _ de' => ∃ r de₁, Q r de₁ ∧
      de' = { de₁ with containerEnded := ended r.2, depth := de₁.depth - 1 } := by
  have hvisit : Ensures ((visit >>= fun r =>
      modify (fun de => { de with containerEnded := ended r.2 }) >>= fun _ =>
        pure r.1 : De α) de.deeper) fun _ de₂ => ∃ r de₁, Q r de₁ ∧
        de₂ = { de₁ with containerEnded := ended r.2 } := by
    refine h.bind ?_
    intro r de₁ hQ
    exact .ok ⟨r, de₁, hQ, rfl⟩
  refine (nested_ensures hvisit).imp ?_
  rintro v de' ⟨_, ⟨r, de₁, hQ, rfl⟩, rfl⟩
  exact ⟨r, de₁, hQ, rfl⟩

/-- **A list is read to its bracket**, by the visitor or by `end_container`. -/
theorem visitToken_list {visitor : Visitor α} {items : List (Nat × Doc)} {trail : Nat}
    (hready : Ready limit depth de) (hvisit : SeqCovers visitor items)
    (h : Lexes de.lexer (itemsToks items ++ (seps trail ++ [.endList])) it') :
    Ensures (visitToken visitor .beginList de) fun _ => Stands limit depth it' := by
  have hinner : Ensures (visitor.visitSeq (.commaSeparated 0x5D false) de.deeper) fun r de₁ =>
      Ready limit (depth + 1) de₁ ∧ ∃ rest, AtItems trail it' r.2 de₁.lexer rest :=
    hvisit hready.deeper h
  have htoken : visitToken visitor .beginList = (visitCommaSeparatedSeq visitor 0x5D >>= fun v =>
    endContainer 0x5D >>= fun _ => pure v) := rfl
  rw [htoken]
  refine (visitCommaSeparated_ensures hinner).bind ?_
  rintro v de₂ ⟨⟨_, access⟩, de₁, ⟨hready₁, rest, hat⟩, hde⟩
  have hready₂ : Ready limit depth de₂ := hde ▸ ready_leave hready₁ _
  have hlexer : de₂.lexer = de₁.lexer := by rw [hde]
  have hended : de₂.containerEnded = access.ended := by rw [hde]
  rw [← hlexer] at hat
  generalize hit : de₂.lexer = it at hat
  cases hat with
  | more hlex =>
    subst hit
    refine (endContainer_items hended hlex).bind ?_
    rintro _ de₃ rfl
    exact .ok ⟨hready₂.withLexer it', rfl⟩
  | ended =>
    refine .bind_ok (endContainer_ended hended) ?_
    exact .ok ⟨hready₂, hit⟩

/-! ## Maps -/

/-- A `CommaSeparated` ends at `}` or `>`. -/
def Bracketed : MapAccess → Prop
  | .commaSeparated endByte _ => endByte = 0x7D ∨ endByte = 0x3E
  | _ => True

/-- As `Presents`, with any number of `;` between the entries of a container. -/
inductive Holds : MapAccess → YsonIterator → List (List UInt8 × Doc) → YsonIterator → Prop where
  | comma {it it' : YsonIterator} {pairs : List (Nat × List UInt8 × Doc)} {trail : Nat}
    {endTok : Token} {endByte : UInt8} (hend : Closes endTok endByte)
    (h : Lexes it (pairsToks pairs ++ (seps trail ++ [endTok])) it') :
    Holds (.commaSeparated endByte false) it (mapEntries pairs) it'
  | presents {map : MapAccess} {it it' : YsonIterator} {E : List (List UInt8 × Doc)}
    (h : Presents map it E it') : Holds map it E it'

/-- On these entries a visit reads all of them. -/
def MapCovers (visitor : Visitor α) (E : List (List UInt8 × Doc)) : Prop :=
  ∀ {limit depth : Nat} {de : Deserializer} {it' : YsonIterator} {map : MapAccess},
    Ready limit depth de → Bracketed map → Holds map de.lexer E it' → Stops it' →
    Ensures (visitor.visitMap map de) fun r de' => Stands limit depth it' de' ∧
      ∀ e b, map = .commaSeparated e b → r.2.ended = true

theorem mapCovers_refuses {visitor : Visitor α} {E : List (List UInt8 × Doc)} {e : YsonError}
    (h : visitor.visitMap = fun _ => throw e) : MapCovers visitor E := by
  intro _ _ _ _ _ _ _ _ _
  rw [h]
  exact .error _

theorem visitCommaSeparatedMap_ensures {visitor : Visitor α} {E : List (List UInt8 × Doc)}
    {endByte : UInt8} (hready : Ready limit depth de) (hvisit : MapCovers visitor E)
    (hmap : Bracketed (.commaSeparated endByte false)) (hstop : Stops it')
    (h : Holds (.commaSeparated endByte false) de.lexer E it') :
    Ensures (visitCommaSeparatedMap visitor endByte de) fun _ de' =>
      Stands limit depth it' de' ∧ de'.containerEnded = true := by
  have hinner : Ensures (visitor.visitMap (.commaSeparated endByte false) de.deeper) fun r de₁ =>
      Stands limit (depth + 1) it' de₁ ∧ r.2.ended = true := by
    refine (hvisit hready.deeper hmap h hstop).imp ?_
    rintro r de₁ ⟨hstands, hended⟩
    exact ⟨hstands, hended _ _ rfl⟩
  refine (visitCommaSeparated_ensures hinner).imp ?_
  rintro v de₂ ⟨r, de₁, ⟨hstands, hended⟩, rfl⟩
  exact ⟨⟨ready_leave hstands.ready _, hstands.lexer⟩, hended⟩

theorem visitToken_map {visitor : Visitor α} {E : List (List UInt8 × Doc)}
    (hready : Ready limit depth de) (hvisit : MapCovers visitor E) (hstop : Stops it')
    (h : Holds (.commaSeparated 0x7D false) de.lexer E it') :
    Ensures (visitToken visitor .beginMap de) fun _ => Stands limit depth it' := by
  have htoken : visitToken visitor .beginMap = (visitCommaSeparatedMap visitor 0x7D >>= fun v =>
    endContainer 0x7D >>= fun _ => pure v) := rfl
  rw [htoken]
  refine (visitCommaSeparatedMap_ensures hready hvisit (Or.inl rfl) hstop h).bind ?_
  rintro v de₁ ⟨hstands, hended⟩
  refine .bind_ok (endContainer_ended hended) ?_
  exact .ok hstands

/-! ## Flat structs -/

theorem lexes_doc_skip {it : YsonIterator} {d : Doc} (h : Lexes it d.toks it') :
    Lexes it.skipIgnored d.toks it' := by
  obtain ⟨t, ts, htoks, _⟩ := d.toks_head
  rw [htoks] at h ⊢
  exact h.skipIgnored

/-- The state a flat struct starts in offers its entries. -/
theorem flatStructStart_ensures {d : Doc} (h : Lexes de.lexer d.toks it') :
    Ensures (flatStructStart de) fun state de' => de' = de.withLexer de'.lexer ∧
      Presents (.flatStruct state false) de'.lexer d.flatEntries it' := by
  obtain ⟨t, ts, htoks, ht⟩ := d.toks_head
  have hlex := h
  rw [htoks] at hlex
  obtain ⟨b, it₁, hpeek, hlead, hnext, hrest⟩ := peek_next_of_lexes de hlex
  rw [flatStructStart]
  refine .bind_ok hpeek ?_
  have hvalue : t ≠ .beginAttributes → t ≠ .beginMap → t ≠ .entity →
      d.flatEntries = [(valueKey, d)] →
      Ensures ((if b = 0x3C then do let _ ← De.nextToken; pure .attributes
        else if b = 0x7B then do let _ ← De.nextToken; pure .body
        else if b = 0x23 then do let _ ← De.nextToken; pure .done
        else pure .valueOnly : De FlatState) (de.withLexer de.lexer.skipIgnored)) fun state de' =>
        de' = de.withLexer de'.lexer ∧
          Presents (.flatStruct state false) de'.lexer d.flatEntries it' := by
    intro hattr hmap hentity hentries
    have h₁ : b ≠ 0x3C := fun hb => hattr ((hlead.eq_iff (u := .beginAttributes) rfl).mp hb)
    have h₂ : b ≠ 0x7B := fun hb => hmap ((hlead.eq_iff (u := .beginMap) rfl).mp hb)
    have h₃ : b ≠ 0x23 := fun hb => hentity ((hlead.eq_iff (u := .entity) rfl).mp hb)
    rw [if_neg h₁, if_neg h₂, if_neg h₃, hentries]
    exact .ok ⟨rfl, .valueOnly (lexes_doc_skip h)⟩
  cases d with
  | attributed pairs trail body =>
    rw [Doc.toks] at htoks
    cases htoks
    have hb : b = 0x3C := (hlead.eq_iff (u := .beginAttributes) rfl).mpr rfl
    rw [StateExcept.ite_apply, if_pos hb]
    refine .bind_ok hnext ?_
    exact .ok ⟨rfl, .attributes hrest⟩
  | map pairs trail =>
    rw [Doc.toks] at htoks
    cases htoks
    have hb : b = 0x7B := (hlead.eq_iff (u := .beginMap) rfl).mpr rfl
    rw [StateExcept.ite_apply, if_neg (by rw [hb]; decide), StateExcept.ite_apply, if_pos hb]
    refine .bind_ok hnext ?_
    exact .ok ⟨rfl, .body hrest⟩
  | entity =>
    rw [Doc.toks] at htoks
    cases htoks
    have hb : b = 0x23 := (hlead.eq_iff (u := .entity) rfl).mpr rfl
    cases Lexes.nil_iff.mp hrest
    rw [StateExcept.ite_apply, if_neg (by rw [hb]; decide), StateExcept.ite_apply,
      if_neg (by rw [hb]; decide), StateExcept.ite_apply, if_pos hb]
    refine .bind_ok hnext ?_
    exact .ok ⟨rfl, .done _ _⟩
  | scalar s =>
    rw [Doc.toks] at htoks
    cases htoks
    exact hvalue (by cases s <;> simp [Scalar.token]) (by cases s <;> simp [Scalar.token])
      (by cases s <;> simp [Scalar.token]) rfl
  | list items trail =>
    rw [Doc.toks] at htoks
    cases htoks
    exact hvalue (by simp) (by simp) (by simp) rfl

theorem visitFlatStruct_covers {visitor : Visitor α} {d : Doc}
    (hvisit : MapCovers visitor d.flatEntries) : Covers (visitFlatStruct visitor) d := by
  intro limit depth de it' hready hlex hstop
  have hinner : Ensures ((flatStructStart >>= fun state =>
      visitor.visitMap (.flatStruct state false) >>= fun r => pure r.1 : De α) de.deeper)
      fun _ de₁ => Stands limit (depth + 1) it' de₁ := by
    refine (flatStructStart_ensures (show Lexes de.deeper.lexer d.toks it' from hlex)).bind ?_
    rintro state de₁ ⟨hde, hpresents⟩
    have hready₁ : Ready limit (depth + 1) de₁ := hde ▸ hready.deeper.withLexer _
    have hmap : Bracketed (.flatStruct state false) := trivial
    refine (hvisit hready₁ hmap (.presents hpresents) hstop).bind ?_
    intro r de₂ hboth
    exact .ok hboth.1
  refine (nested_ensures hinner).imp ?_
  rintro v _ ⟨de₁, hstands, rfl⟩
  exact ⟨ready_leave hstands.ready de₁.containerEnded, hstands.lexer⟩

/-! ## `deserialize_any` and the methods that skip attributes -/

/-- The visitor reads what it is given of this document. -/
def VisitorCovers (visitor : Visitor α) : Doc → Prop
  | .list items _ => SeqCovers visitor items
  | .map pairs _ => MapCovers visitor (mapEntries pairs)
  | .attributed pairs _ body => MapCovers visitor (attributeEntries pairs ++ bodyEntries body)
  | _ => True

theorem deserializeAny_covers {visitor : Visitor α} {d : Doc} (hvisit : VisitorCovers visitor d) :
    Covers (deserializeAny visitor) d := by
  intro limit depth de it' hready hlex hstop
  cases d with
  | scalar s =>
    exact ((deserializeAny_scalar hready visitor hlex).ensures hready).imp fun _ _ h => h.2
  | entity =>
    exact ((deserializeAny_entity hready visitor hlex).ensures hready).imp fun _ _ h => h.2
  | list items trail =>
    rw [Doc.toks] at hlex
    obtain ⟨it₁, hrun, hrest⟩ := deserializeAny_token hready visitor (by simp) hlex
    rw [hrun]
    exact visitToken_list (hready.withLexer it₁) hvisit hrest
  | map pairs trail =>
    rw [Doc.toks] at hlex
    obtain ⟨it₁, hrun, hrest⟩ := deserializeAny_token hready visitor (by simp) hlex
    rw [hrun]
    exact visitToken_map (hready.withLexer it₁) hvisit hstop (.comma closes_map hrest)
  | attributed pairs trail body =>
    have hflat : Covers (visitFlatStruct visitor) (.attributed pairs trail body) :=
      visitFlatStruct_covers hvisit
    have hskipped := lexes_doc_skip hlex
    rw [Doc.toks] at hlex
    rw [deserializeAny_attributed hready visitor hlex]
    exact hflat (hready.withLexer _) hskipped hstop

/-- A block in front of a document is skipped, and nothing else is. -/
theorem skipAttributes_bare {d : Doc} (h : Lexes de.lexer d.toks it') :
    Ensures (skipAttributes de) fun _ de' =>
      de' = de.withLexer de'.lexer ∧ Lexes de'.lexer d.bare.toks it' := by
  cases hattr : d.isAttributed with
  | true =>
    cases d with
    | attributed pairs trail body =>
      have hblock : Lexes de.lexer (blockToks pairs trail ++ body.toks) it' := by
        rw [Doc.toks] at h
        simpa [blockToks] using h
      exact skipAttributes_ensures de hblock
    | scalar | entity | list | map => cases hattr
  | false =>
    obtain ⟨t, ts, htoks, _⟩ := d.toks_head
    rw [Doc.bare_of_plain hattr, htoks]
    rw [htoks] at h
    exact .of_ok (skipAttributes_plain de (Doc.plain_lead hattr htoks) h) ⟨rfl, h.skipIgnored⟩

/-- A seed that skips attributes and goes on with another. -/
theorem skipping_covers {seed : De α} {d : Doc} (h : Covers seed d.bare) :
    Covers (do
      if !(← get).isReadingAttributes then skipAttributes
      seed : De α) d := by
  intro limit depth de it' hready hlex hstop
  rw [StateExcept.get_bind, StateExcept.ite_apply, if_pos (by rw [hready.plain]; rfl)]
  refine (skipAttributes_bare hlex).bind ?_
  rintro _ de₁ ⟨hde, hbare⟩
  exact h (hde ▸ hready.withLexer _) hbare hstop

theorem deserializeSkipping_covers {visitor : Visitor α} {d : Doc}
    (hvisit : VisitorCovers visitor d.bare) : Covers (deserializeSkipping visitor) d :=
  skipping_covers (deserializeAny_covers hvisit)

/-- A token that starts no value is refused, whatever the visitor. -/
theorem deserializeSkipping_stops {visitor : Visitor α} {t : Token} {ts : List Token}
    (hready : Ready limit depth de) (ht : t.startsValue = false)
    (h : Lexes de.lexer (t :: ts) it') :
    Ensures (deserializeSkipping visitor de) fun _ _ => False := by
  have hattr : t ≠ .beginAttributes := by
    rintro rfl
    cases ht
  obtain ⟨it₁, hrun, _⟩ := deserializeAny_token (hready.withLexer de.lexer.skipIgnored) visitor
    hattr h.skipIgnored
  rw [deserializeSkipping, StateExcept.get_bind, StateExcept.ite_apply,
    if_pos (by rw [hready.plain]; rfl)]
  refine .bind_ok (skipAttributes_plain de hattr h) ?_
  dsimp only
  rw [hrun]
  cases t <;> first | exact .error _ | cases ht

theorem Refuses.skipping (visitor : Visitor α) : Refuses (deserializeSkipping visitor) :=
  fun hready hlex => deserializeSkipping_stops hready rfl hlex

end De

end Ytsaurus.Yson
