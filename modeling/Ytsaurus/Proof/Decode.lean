import Ytsaurus.Proof.Access

/-!
# `Proof/Decode.lean` — decoding a document

Containers first, for any visitor: entering, visiting, closing. Then the dynamic value:
`YsonValue::deserialize` on the tokens of a document gives exactly `Doc.value`, errors
included, and stops behind the document.

Closing a container is the delicate part. A visitor may return before the closing bracket or
behind it, and the deserializer finds out through a flag that the access leaves behind
(`containerEnded`); if the visitor has stopped early, one `;` is passed over and the bracket is
read. `Visits` allows both, and `container_reads` says that either way the container has been
read to its bracket. Nesting is counted on the way in and on the way out, whatever happens in
between.

The induction for the value is on the document, with a budget that is at least as long as its
tokens (`deserialize_reads`). Errors are part of the statement: a document that nests too
deeply, or offers two bodies, is refused with the error that `Doc.value` gives, at the place
where it is met. For documents with two `;` in a row nothing is said here; they are not decoded
at all, which follows from `Proof/Accept.lean`.
-/

set_option autoImplicit false

namespace Ytsaurus.Yson

variable {α β κ : Type}

/-! ## Nesting -/

/-- One level further in. -/
def Deserializer.deeper (de : Deserializer) : Deserializer := { de with depth := de.depth + 1 }

theorem Ready.deeper {limit depth : Nat} {de : Deserializer} (h : Ready limit depth de) :
    Ready limit (depth + 1) de.deeper := ⟨h.plain, congrArg (· + 1) h.depth, h.limit⟩

namespace De

theorem nested_deep {limit depth : Nat} {de : Deserializer} (hready : Ready limit depth de)
    (h : limit < depth + 1) (x : De α) : nested x de = .error (.custom .recursionLimit) := by
  have henter : enterRecursion de = .error (.custom .recursionLimit) := by
    rw [enterRecursion, if_pos (by rw [hready.limit, hready.depth]; exact h)]
  rw [nested, StateExcept.bind_error henter]

theorem nested_eq {limit depth : Nat} {de : Deserializer} (hready : Ready limit depth de)
    (h : depth + 1 ≤ limit) {x : De α} {r : Except YsonError α} (it' : YsonIterator) (b : Bool)
    (hx : x de.deeper = r.map fun v => (v, { de.deeper with lexer := it', containerEnded := b })) :
    nested x de = r.map fun v => (v, { de with lexer := it', containerEnded := b }) := by
  have henter : enterRecursion de = .ok ((), de.deeper) := by
    rw [enterRecursion, if_neg (by rw [hready.limit, hready.depth]; omega)]
    rfl
  rw [nested, StateExcept.bind_ok henter]
  cases r with
  | error e => exact StateExcept.bind_error hx
  | ok v =>
    rw [StateExcept.bind_ok hx]
    rfl

theorem nested_reads {limit depth : Nat} {de : Deserializer} (hready : Ready limit depth de)
    (h : depth + 1 ≤ limit) {x : De α} {r : Except YsonError α} {it' : YsonIterator}
    (hx : Reads de.deeper it' r (x de.deeper)) : Reads de it' r (nested x de) := by
  cases r with
  | error e => exact nested_eq (r := .error e) hready h it' false hx
  | ok v =>
    obtain ⟨b, hx⟩ := hx
    exact ⟨b, nested_eq (r := .ok v) hready h it' b hx⟩

theorem ofExcept_reads (r : Except YsonError α) (de : Deserializer) (it : YsonIterator) :
    Reads de it r (ofExcept r (de.withLexer it)) := by
  cases r with
  | error e => rfl
  | ok v => exact ⟨de.containerEnded, rfl⟩

/-- A visit of the elements up to `endTok`: the visitor has either read the terminator and
reports so, or it stopped in front of it, at most one `;` away. -/
def Visits [FloatText] (de : Deserializer) (it' : YsonIterator) (endTok : Token)
    (r : Except YsonError α) (ended : β → Bool)
    (run : Except YsonError ((α × β) × Deserializer)) : Prop :=
  match r with
  | .error e => run = .error e
  | .ok v => ∃ access it₁ b, run = .ok ((v, access), { de with lexer := it₁, containerEnded := b }) ∧
    (ended access = true ∧ it₁ = it' ∨
      ended access = false ∧ ∃ n ≤ 1, Lexes it₁ (seps n ++ [endTok]) it')

variable [FloatText] {limit depth : Nat} {de : Deserializer} {it' : YsonIterator}
  {endTok : Token} {endByte : UInt8}

theorem endContainer_ended (h : de.containerEnded = true) : endContainer endByte de = .ok ((), de) := by
  rw [endContainer, StateExcept.get_bind, StateExcept.ite_apply, if_pos h]
  rfl

theorem takeTerminator_closes (de : Deserializer) (hend : Closes endTok endByte)
    (h : Lexes de.lexer [endTok] it') : takeTerminator endByte de = .ok ((), de.withLexer it') := by
  obtain ⟨b, it₁, hpeek, hlead, hnext, hrest⟩ := peek_next_of_lexes de h
  cases Lexes.nil_iff.mp hrest
  rw [takeTerminator, StateExcept.bind_ok hpeek]
  rw [StateExcept.ite_apply, if_pos ((hlead.eq_iff hend.lead).mpr rfl), StateExcept.bind_ok hnext]
  rfl

theorem skipSeparator_closes (de : Deserializer) {n : Nat} (hend : Closes endTok endByte) (hn : n ≤ 1)
    (h : Lexes de.lexer (seps n ++ [endTok]) it') :
    ∃ it₁, skipSeparator de = .ok ((), de.withLexer it₁) ∧ Lexes it₁ [endTok] it' := by
  rcases Nat.le_one_iff_eq_zero_or_eq_one.mp hn with rfl | rfl
  · obtain ⟨b, hpeek, hlead⟩ := peekByte_of_lexes de h
    refine ⟨_, ?_, h.skipIgnored⟩
    have hb : b ≠ 0x3B := fun hb => hend.notSeparator ((hlead.eq_iff (u := .itemSeparator) rfl).mp hb)
    rw [skipSeparator, StateExcept.bind_ok hpeek]
    rw [StateExcept.ite_apply, if_neg hb]
    rfl
  · obtain ⟨b, it₁, hpeek, hlead, hnext, hrest⟩ := peek_next_of_lexes de h
    refine ⟨it₁, ?_, hrest⟩
    rw [skipSeparator, StateExcept.bind_ok hpeek]
    rw [StateExcept.ite_apply, if_pos ((hlead.eq_iff (u := .itemSeparator) rfl).mpr rfl),
      StateExcept.bind_ok hnext]
    rfl

theorem endContainer_open {n : Nat} (hopen : de.containerEnded = false)
    (hend : Closes endTok endByte) (hn : n ≤ 1) (h : Lexes de.lexer (seps n ++ [endTok]) it') :
    endContainer endByte de = .ok ((), de.withLexer it') := by
  obtain ⟨it₁, hskip, hrest⟩ := skipSeparator_closes de hend hn h
  rw [endContainer, StateExcept.get_bind, StateExcept.ite_apply, if_neg (by simp [hopen]),
    StateExcept.bind_ok hskip]
  exact takeTerminator_closes (de.withLexer it₁) hend hrest

/-- **Opening, visiting and closing a container.** -/
theorem container_reads {visit : De (α × β)} {ended : β → Bool} {r : Except YsonError α}
    (hready : Ready limit depth de) (h : depth + 1 ≤ limit) (hend : Closes endTok endByte)
    (hvisit : Visits de.deeper it' endTok r ended (visit de.deeper)) :
    Reads de it' r
      ((do let value ← visitCommaSeparated visit ended; endContainer endByte; pure value : De α) de) := by
  cases r with
  | error e =>
    have hinner : (visit >>= fun r =>
        (modify fun de => { de with containerEnded := ended r.2 }) >>= fun _ => pure r.1 : De α)
          de.deeper = .error e := StateExcept.bind_error hvisit
    exact StateExcept.bind_error
      (nested_eq (r := .error e) hready h it' false hinner)
  | ok v =>
    obtain ⟨access, it₁, b, hrun, hwhere⟩ := hvisit
    have hinner : (visit >>= fun r =>
        (modify fun de => { de with containerEnded := ended r.2 }) >>= fun _ => pure r.1 : De α)
          de.deeper = .ok (v, { de.deeper with lexer := it₁, containerEnded := ended access }) := by
      rw [StateExcept.bind_ok hrun]
      rfl
    have hnested := nested_eq (r := .ok v) hready h it₁ (ended access) hinner
    rw [visitCommaSeparated, StateExcept.bind_ok hnested]
    rcases hwhere with ⟨hended, rfl⟩ | ⟨hopen, n, hn, hlex⟩
    · refine ⟨ended access, ?_⟩
      rw [StateExcept.bind_ok (endContainer_ended hended)]
      rfl
    · refine ⟨ended access, ?_⟩
      rw [StateExcept.bind_ok (endContainer_open hopen hend hn hlex)]
      rfl

/-! ## `deserialize_any` by the first token -/

theorem deserializeAny_token (hready : Ready limit depth de) (visitor : Visitor α) {t : Token}
    {ts : List Token} (ht : t ≠ .beginAttributes) (h : Lexes de.lexer (t :: ts) it') :
    ∃ it₁, deserializeAny visitor de = visitToken visitor t (de.withLexer it₁) ∧ Lexes it₁ ts it' := by
  obtain ⟨b, it₁, hpeek, hlead, hnext, hrest⟩ := peek_next_of_lexes de h
  have hb : b ≠ 0x3C := fun hb => ht ((hlead.eq_iff (u := .beginAttributes) rfl).mp hb)
  refine ⟨it₁, ?_, hrest⟩
  rw [deserializeAny, StateExcept.bind_ok (takeReadingAttributes_plain hready.plain)]
  simp only [Bool.false_eq_true, if_false]
  rw [StateExcept.bind_ok hpeek, StateExcept.ite_apply, if_neg hb, StateExcept.bind_ok hnext]

theorem deserializeAny_attributed (hready : Ready limit depth de) (visitor : Visitor α)
    {ts : List Token} (h : Lexes de.lexer (.beginAttributes :: ts) it') :
    deserializeAny visitor de = visitFlatStruct visitor (de.withLexer de.lexer.skipIgnored) := by
  obtain ⟨b, hpeek, hlead⟩ := peekByte_of_lexes de h
  have hb : b = 0x3C := (hlead.eq_iff (u := .beginAttributes) rfl).mpr rfl
  rw [deserializeAny, StateExcept.bind_ok (takeReadingAttributes_plain hready.plain)]
  simp only [Bool.false_eq_true, if_false]
  rw [StateExcept.bind_ok hpeek, StateExcept.ite_apply, if_pos hb]

/-- A scalar is handed to the visitor method of its type. -/
def visitScalar (visitor : Visitor α) : Scalar → Except YsonError α
  | .boolean b => visitor.visitBool b
  | .int64 i => visitor.visitI64 i
  | .uint64 u => visitor.visitU64 u
  | .double d => visitor.visitF64 d
  | .string s => visitString visitor s

theorem visitToken_scalar (visitor : Visitor α) (s : Scalar) :
    visitToken visitor s.token = ofExcept (visitScalar visitor s) := by
  cases s <;> rfl

theorem deserializeAny_scalar (hready : Ready limit depth de) (visitor : Visitor α) {s : Scalar}
    (h : Lexes de.lexer (Doc.scalar s).toks it') :
    Reads de it' (visitScalar visitor s) (deserializeAny visitor de) := by
  have hs : s.token ≠ .beginAttributes := by cases s <;> simp [Scalar.token]
  rw [Doc.toks] at h
  obtain ⟨it₁, hrun, hrest⟩ := deserializeAny_token hready visitor hs h
  cases Lexes.nil_iff.mp hrest
  rw [hrun, visitToken_scalar]
  exact ofExcept_reads _ _ _

theorem deserializeAny_entity (hready : Ready limit depth de) (visitor : Visitor α)
    (h : Lexes de.lexer Doc.entity.toks it') :
    Reads de it' visitor.visitUnit (deserializeAny visitor de) := by
  rw [Doc.toks] at h
  obtain ⟨it₁, hrun, hrest⟩ := deserializeAny_token hready visitor (by decide) h
  cases Lexes.nil_iff.mp hrest
  rw [hrun]
  exact ofExcept_reads _ _ _

theorem deserializeAny_list {r : Except YsonError α} {ts : List Token} (hready : Ready limit depth de)
    (visitor : Visitor α) (h : depth + 1 ≤ limit) (hlex : Lexes de.lexer (.beginList :: ts) it')
    (hvisit : ∀ de₁, Ready limit (depth + 1) de₁ → Lexes de₁.lexer ts it' →
      Visits de₁ it' .endList r SeqAccess.ended (visitor.visitSeq (.commaSeparated 0x5D false) de₁)) :
    Reads de it' r (deserializeAny visitor de) := by
  obtain ⟨it₁, hrun, hrest⟩ := deserializeAny_token hready visitor (by decide) hlex
  rw [hrun]
  exact container_reads (hready.withLexer it₁) h closes_list
    (hvisit _ (hready.withLexer it₁).deeper hrest)

theorem deserializeAny_map {r : Except YsonError α} {ts : List Token} (hready : Ready limit depth de)
    (visitor : Visitor α) (h : depth + 1 ≤ limit) (hlex : Lexes de.lexer (.beginMap :: ts) it')
    (hvisit : ∀ de₁, Ready limit (depth + 1) de₁ → Lexes de₁.lexer ts it' →
      Visits de₁ it' .endMap r MapAccess.ended (visitor.visitMap (.commaSeparated 0x7D false) de₁)) :
    Reads de it' r (deserializeAny visitor de) := by
  obtain ⟨it₁, hrun, hrest⟩ := deserializeAny_token hready visitor (by decide) hlex
  rw [hrun]
  exact container_reads (hready.withLexer it₁) h closes_map
    (hvisit _ (hready.withLexer it₁).deeper hrest)

/-- A container that is nested too deeply is refused when it is opened. -/
theorem deserializeAny_deep (hready : Ready limit depth de) (visitor : Visitor α)
    (h : limit < depth + 1) {d : Doc} (hd : (∀ s, d ≠ .scalar s) ∧ d ≠ .entity)
    (hlex : Lexes de.lexer d.toks it') :
    deserializeAny visitor de = .error (.custom .recursionLimit) := by
  cases d with
  | scalar s => exact absurd rfl (hd.1 s)
  | entity => exact absurd rfl hd.2
  | list items trail =>
    rw [Doc.toks] at hlex
    obtain ⟨it₁, hrun, _⟩ := deserializeAny_token hready visitor (by decide) hlex
    rw [hrun]
    exact StateExcept.bind_error (nested_deep (hready.withLexer it₁) h _)
  | map pairs trail =>
    rw [Doc.toks] at hlex
    obtain ⟨it₁, hrun, _⟩ := deserializeAny_token hready visitor (by decide) hlex
    rw [hrun]
    exact StateExcept.bind_error (nested_deep (hready.withLexer it₁) h _)
  | attributed pairs trail body =>
    rw [Doc.toks] at hlex
    rw [deserializeAny_attributed hready visitor hlex]
    exact nested_deep (hready.withLexer _) h _

/-! ## Flat structs -/

/-- **An attributed document is visited as its entries**: the attributes under `@` keys, then
the entries of a map body or the body under `$value`. -/
theorem visitFlatStruct_attributed {visitor : Visitor α} {r : Except YsonError α}
    {pairs : List (Nat × List UInt8 × Doc)} {trail : Nat} {body : Doc}
    (hready : Ready limit depth de) (h : depth + 1 ≤ limit)
    (hlex : Lexes de.lexer (Doc.attributed pairs trail body).toks it')
    (hvisit : ∀ de₁, Ready limit (depth + 1) de₁ →
      Presents (.flatStruct .attributes false) de₁.lexer
        (attributeEntries pairs ++ bodyEntries body) it' →
      ∃ access, Reads de₁ it' (r.map fun v => (v, access))
        (visitor.visitMap (.flatStruct .attributes false) de₁)) :
    Reads de it' r (visitFlatStruct visitor de) := by
  refine nested_reads hready h ?_
  rw [Doc.toks] at hlex
  obtain ⟨b, it₁, hpeek, hlead, hnext, hrest⟩ := peek_next_of_lexes de.deeper hlex
  have hb : b = 0x3C := (hlead.eq_iff (u := .beginAttributes) rfl).mpr rfl
  have hstart : flatStructStart de.deeper = .ok (.attributes, de.deeper.withLexer it₁) := by
    rw [flatStructStart, StateExcept.bind_ok hpeek]
    rw [StateExcept.ite_apply, if_pos hb, StateExcept.bind_ok hnext]
    rfl
  rw [StateExcept.bind_ok hstart]
  obtain ⟨access, hreads⟩ := hvisit _ (hready.deeper.withLexer it₁) (.attributes hrest)
  cases r with
  | error e => exact StateExcept.bind_error hreads
  | ok v =>
    obtain ⟨ended, hrun⟩ := hreads
    exact ⟨ended, StateExcept.bind_ok hrun⟩

end De

/-! ## The dynamic value -/

namespace YsonValue

open De

variable [FloatText] {limit depth : Nat} {de : Deserializer} {it' : YsonIterator}

/-- A seed that keeps byte strings as they are, read with `deserialize_any`. -/
theorem mapKey_reads (k : List UInt8) : KeyReads mapKey k (.ok k) where
  token := by
    intro limit depth de it' h hready
    obtain ⟨it₁, hrun, hrest⟩ := deserializeAny_token hready mapKeyVisitor (by simp) h
    cases Lexes.nil_iff.mp hrest
    show deserializeAny mapKeyVisitor de = _
    rw [hrun]
    show ofExcept (visitString mapKeyVisitor k) (de.withLexer it') = _
    rw [visitString]
    split <;> rfl
  bytes := rfl
  str _ := rfl

theorem visitSeqLoop_reads {element : De YsonValue} {f : Doc → Except YsonError YsonValue}
    {items : List (Nat × Doc)} {trail fuel : Nat} (vec : List YsonValue) (ended : Bool)
    (hready : Ready limit depth de) (hfuel : items.length < fuel) (htrail : trail ≤ 1)
    (hitems : ∀ p ∈ items, p.1 ≤ 1 ∧ SeedReads limit depth element p.2 (f p.2))
    (h : Lexes de.lexer (itemsToks items ++ (seps trail ++ [.endList])) it') :
    Reads de it' ((itemsM f items).map fun vs => (vec ++ vs, SeqAccess.commaSeparated 0x5D true))
      (visitSeqLoop element fuel vec (.commaSeparated 0x5D ended) de) := by
  induction items generalizing de fuel vec with
  | nil =>
    obtain ⟨fuel, rfl⟩ : ∃ m, fuel = m + 1 := ⟨fuel - 1, by simp at hfuel; omega⟩
    refine ⟨de.containerEnded, ?_⟩
    rw [visitSeqLoop, StateExcept.bind_ok (nextElement_close closes_list htrail h element ended)]
    simp [Deserializer.withLexer]
  | cons p items ih =>
    obtain ⟨n, d⟩ := p
    obtain ⟨fuel, rfl⟩ : ∃ m, fuel = m + 1 := ⟨fuel - 1, by omega⟩
    obtain ⟨hn, hseed⟩ := hitems _ List.mem_cons_self
    rw [itemsToks, ← List.append_assoc (seps n), List.append_assoc] at h
    obtain ⟨it₁, hitem, hrest⟩ := Lexes.append_iff.mp h
    have hnext := nextElement_item closes_list hn hitem hready hseed ended
    rw [visitSeqLoop, itemsM]
    simp only at hseed hnext
    cases hd : f d with
    | error e =>
      rw [hd] at hnext
      exact StateExcept.bind_error hnext
    | ok v =>
      rw [hd] at hnext
      obtain ⟨b, hrun⟩ := hnext
      have hready₁ : Ready limit depth { de with lexer := it₁, containerEnded := b } :=
        ⟨hready.plain, hready.depth, hready.limit⟩
      have hfuel' : items.length < fuel := by simpa using hfuel
      have hloop := ih (vec ++ [v]) hready₁ hfuel'
        (fun p hp => hitems p (List.mem_cons_of_mem _ hp)) hrest
      rw [StateExcept.bind_ok hrun]
      have happend : (bind (Except.ok v) fun v => do
            let vs ← itemsM f items
            Except.ok (v :: vs)).map (fun vs => (vec ++ vs, SeqAccess.commaSeparated 0x5D true))
          = (itemsM f items).map
            fun vs => (vec ++ [v] ++ vs, SeqAccess.commaSeparated 0x5D true) := by
        cases itemsM f items <;> simp [bind, Except.bind, Except.map]
      rw [happend]
      exact hloop

theorem visitMapLoop_reads {value : De YsonValue} {f : Doc → Except YsonError YsonValue}
    {E : List (List UInt8 × Doc)} {fuel : Nat} (parts : MapParts) {map : MapAccess}
    (hready : Ready limit depth de) (hfuel : E.length < fuel)
    (hE : ∀ e ∈ E, SeedReads limit depth value e.2 (f e.2)) (h : Presents map de.lexer E it') :
    ∃ access, Reads de it' ((entriesM f E).map fun es => (parts.addAll es, access))
        (visitMapLoop value fuel parts map de) ∧
      ∀ e b, map = .commaSeparated e b → access.ended := by
  induction E generalizing de fuel parts map with
  | nil =>
    obtain ⟨fuel, rfl⟩ : ∃ m, fuel = m + 1 := ⟨fuel - 1, by simp at hfuel; omega⟩
    obtain ⟨map', hrun, hended⟩ := nextKey_nil mapKey h
    refine ⟨map', ⟨de.containerEnded, ?_⟩, hended⟩
    rw [visitMapLoop, StateExcept.bind_ok hrun]
    rfl
  | cons e E ih =>
    obtain ⟨k, d⟩ := e
    obtain ⟨fuel, rfl⟩ : ∃ m, fuel = m + 1 := ⟨fuel - 1, by omega⟩
    obtain ⟨map', it₁, it₂, hkey, hvalue, hrest, hcomma⟩ := nextKey_cons hready (mapKey_reads k) h
    have hread := hvalue _ _ _ (hE _ List.mem_cons_self)
    rw [visitMapLoop, entriesM]
    cases hd : f d with
    | error e =>
      rw [hd] at hread
      refine ⟨.commaSeparated 0 true, ?_, fun _ _ _ => rfl⟩
      rw [StateExcept.bind_ok hkey]
      exact StateExcept.bind_error hread
    | ok v =>
      rw [hd] at hread
      obtain ⟨b, hrun⟩ := hread
      have hready₂ : Ready limit depth { de with lexer := it₂, containerEnded := b } :=
        ⟨hready.plain, hready.depth, hready.limit⟩
      have hfuel' : E.length < fuel := by simpa using hfuel
      obtain ⟨access, hloop, hended⟩ := ih (parts.add k v) hready₂ hfuel'
        (fun e he => hE e (List.mem_cons_of_mem _ he)) hrest
      refine ⟨access, ?_, fun e b' hmap => hended _ _ (hcomma e b' hmap)⟩
      rw [StateExcept.bind_ok hkey]
      simp only
      rw [StateExcept.bind_ok hrun]
      have hadd : (bind (Except.ok v) fun v => do
            let vs ← entriesM f E
            Except.ok ((k, v) :: vs)).map (fun es => (parts.addAll es, access))
          = (entriesM f E).map fun es => ((parts.add k v).addAll es, access) := by
        cases entriesM f E <;> rfl
      rw [hadd]
      exact hloop

/-- The `visit_map` of a value, on the entries an access offers. -/
theorem visitMap_reads {value : De YsonValue} {f : Doc → Except YsonError YsonValue}
    {E : List (List UInt8 × Doc)} {map : MapAccess} (hready : Ready limit depth de)
    (hE : ∀ e ∈ E, SeedReads limit depth value e.2 (f e.2)) (h : Presents map de.lexer E it') :
    ∃ access, Reads de it' (((entriesM f E).bind fun es => (MapParts.addAll .new es).finish).map
        fun v => (v, access)) ((visitor value).visitMap map de) ∧
      ∀ e b, map = .commaSeparated e b → access.ended := by
  obtain ⟨access, hloop, hended⟩ := visitMapLoop_reads .new hready
    (Nat.lt_succ_of_le (Presents.length_le h)) hE h
  refine ⟨access, ?_, hended⟩
  show Reads de it' _ ((De.budget >>= fun fuel =>
    visitMapLoop value fuel .new map >>= fun r =>
      De.ofExcept r.1.finish >>= fun v => pure (v, r.2) : De (YsonValue × MapAccess)) de)
  rw [StateExcept.bind_ok (budget_apply de)]
  cases hes : entriesM f E with
  | error e =>
    rw [hes] at hloop
    exact StateExcept.bind_error hloop
  | ok es =>
    rw [hes] at hloop
    obtain ⟨b, hrun⟩ := hloop
    rw [StateExcept.bind_ok hrun]
    simp only [Except.bind]
    cases hfin : (MapParts.addAll .new es).finish with
    | error e => exact StateExcept.bind_error (by rw [ofExcept_apply]; rfl)
    | ok v => exact ⟨b, StateExcept.bind_ok (by rw [ofExcept_apply]; rfl)⟩

theorem visitSeq_visits {element : De YsonValue} {f : Doc → Except YsonError YsonValue}
    {items : List (Nat × Doc)} {trail : Nat} (hready : Ready limit depth de) (htrail : trail ≤ 1)
    (hitems : ∀ p ∈ items, p.1 ≤ 1 ∧ SeedReads limit depth element p.2 (f p.2))
    (h : Lexes de.lexer (itemsToks items ++ (seps trail ++ [.endList])) it') :
    Visits de it' .endList ((itemsM f items).map fun vs => YsonValue.bare (.list vs))
      SeqAccess.ended ((visitor element).visitSeq (.commaSeparated 0x5D false) de) := by
  have hlen : items.length < de.lexer.rest.length + 1 := by
    have := h.length_le
    have := itemsToks_length items
    simp only [List.length_append] at *
    omega
  have hloop := visitSeqLoop_reads [] false hready hlen htrail hitems h
  show Visits de it' _ _ _ ((De.budget >>= fun fuel =>
    visitSeqLoop element fuel [] (.commaSeparated 0x5D false) >>= fun r =>
      pure (.bare (.list r.1), r.2) : De (YsonValue × SeqAccess)) de)
  rw [StateExcept.bind_ok (budget_apply de)]
  cases hvs : itemsM f items with
  | error e =>
    rw [hvs] at hloop
    exact StateExcept.bind_error hloop
  | ok vs =>
    rw [hvs] at hloop
    obtain ⟨b, hrun⟩ := hloop
    exact ⟨.commaSeparated 0x5D true, it', b, StateExcept.bind_ok hrun, Or.inl ⟨rfl, rfl⟩⟩

theorem visitMap_visits {value : De YsonValue} {f : Doc → Except YsonError YsonValue}
    {E : List (List UInt8 × Doc)} {endByte : UInt8} {endTok : Token} (hready : Ready limit depth de)
    (hE : ∀ e ∈ E, SeedReads limit depth value e.2 (f e.2))
    (h : Presents (.commaSeparated endByte false) de.lexer E it') :
    Visits de it' endTok ((entriesM f E).bind fun es => (MapParts.addAll .new es).finish)
      MapAccess.ended ((visitor value).visitMap (.commaSeparated endByte false) de) := by
  obtain ⟨access, hreads, hended⟩ := visitMap_reads hready hE h
  cases hr : (entriesM f E).bind fun es => (MapParts.addAll .new es).finish with
  | error e =>
    rw [hr] at hreads
    exact hreads
  | ok v =>
    rw [hr] at hreads
    obtain ⟨b, hrun⟩ := hreads
    exact ⟨access, it', b, hrun, Or.inl ⟨hended _ _ rfl, rfl⟩⟩

theorem visitScalar_eq (element : De YsonValue) (s : Scalar) :
    visitScalar (visitor element) s = Doc.value limit depth (.scalar s) := by
  cases s with
  | string bytes =>
    rw [visitScalar, visitString, Doc.value]
    split <;> rfl
  | _ => rfl

/-- **Decoding a document gives its value and consumes exactly the document**, at any depth
and with the error the value says. -/
theorem deserialize_reads (d : Doc) : ∀ (fuel depth : Nat), d.SingleSep → d.toks.length ≤ fuel →
    SeedReads limit depth (deserialize fuel) d (d.value limit depth) := by
  -- the entries of a document are documents with fewer tokens
  induction hn : d.toks.length using Nat.strongRecOn generalizing d with
  | ind n ih =>
  subst hn
  intro fuel depth hsep hfuel de it' hlex hready
  obtain ⟨fuel, rfl⟩ : ∃ m, fuel = m + 1 := ⟨fuel - 1, by have := d.toks_length_pos; omega⟩
  rw [deserialize]
  by_cases hdepth : depth + 1 ≤ limit
  · have hchild : ∀ d' : Doc, d'.SingleSep → d'.toks.length < d.toks.length →
        SeedReads limit (depth + 1) (deserialize fuel) d' (d'.value limit (depth + 1)) :=
      fun d' hsep' hlt => ih _ hlt d' rfl fuel (depth + 1) hsep' (by omega)
    cases d with
    | scalar s =>
      have hscalar := deserializeAny_scalar hready (visitor (deserialize fuel)) hlex
      rwa [visitScalar_eq] at hscalar
    | entity => exact deserializeAny_entity hready (visitor (deserialize fuel)) hlex
    | list items trail =>
      rw [Doc.value_list hdepth]
      obtain ⟨htrail, hitems⟩ := hsep
      rw [Doc.toks] at hlex
      refine deserializeAny_list hready _ hdepth hlex fun de₁ hready₁ hlex₁ => ?_
      refine visitSeq_visits hready₁ htrail (fun p hp => ?_) hlex₁
      obtain ⟨hn, hsep'⟩ := mem_itemsSeparated hitems p hp
      refine ⟨hn, hchild p.2 hsep' ?_⟩
      have := mem_items_length hp
      simp only [Doc.toks, List.length_cons, List.length_append]
      omega
    | map pairs trail =>
      rw [Doc.value_map hdepth]
      obtain ⟨hseps, hpairs⟩ := hsep
      obtain ⟨htrail, hseps⟩ := hseps rfl
      rw [Doc.toks] at hlex
      refine deserializeAny_map hready _ hdepth hlex fun de₁ hready₁ hlex₁ => ?_
      refine visitMap_visits hready₁ (fun e he => ?_) (.comma closes_map hseps htrail hlex₁)
      exact hchild e.2 (pairsSeparated_iff.mp hpairs e he) (mem_mapEntries_length he)
    | attributed pairs trail body =>
      rw [Doc.value_attributed hdepth]
      have hentries := separated_attributed hsep
      have hbegin : Lexes de.lexer (.beginAttributes ::
          (pairsToks pairs ++ (seps trail ++ (.endAttributes :: body.toks)))) it' := by
        rwa [Doc.toks] at hlex
      rw [deserializeAny_attributed hready _ hbegin]
      refine visitFlatStruct_attributed
        (hready.withLexer de.lexer.skipIgnored) hdepth (by rw [Doc.toks]; exact hbegin.skipIgnored)
        fun de₁ hready₁ hpresents => ?_
      obtain ⟨access, hreads, _⟩ := visitMap_reads hready₁
        (fun e he => hchild e.2 (hentries e he) (mem_attributed_length he)) hpresents
      exact ⟨access, hreads⟩
  · by_cases hflat : (∀ s, d ≠ .scalar s) ∧ d ≠ .entity
    · rw [Doc.value_deep (by omega) hflat]
      exact deserializeAny_deep hready _ (by omega) hflat hlex
    · cases d with
      | scalar s =>
        have hscalar := deserializeAny_scalar hready (visitor (deserialize fuel)) hlex
        rwa [visitScalar_eq] at hscalar
      | entity => exact deserializeAny_entity hready (visitor (deserialize fuel)) hlex
      | list items trail => simp at hflat
      | map pairs trail => simp at hflat
      | attributed pairs trail body => simp at hflat

end YsonValue

end Ytsaurus.Yson
