import Ytsaurus.Proof.Accept

/-!
# `Proof/SkipAttributes.lean` — finding the end of an attribute block

`skip_attributes` counts the attribute blocks that are open and looks at nothing else. On the
tokens of a document the count never falls to zero before the block it began with is closed,
whatever lists, maps and blocks stand inside.

The loop does not check brackets other than `<` and `>`, so it passes over inputs that no decoder
would accept; on a document it does not matter, since inside a document the blocks are balanced.
`Within` says of a run of tokens that there always is an open block and that there are never
more than the limit allows, and `Passes` that the run also leaves as many open as it found.
Documents pass (`Doc.passes`, along the document, with the count as a parameter), and along
what passes the loop goes on.

The limit is the nesting limit of the deserializer, which the loop compares with its count of open
blocks; `Doc.blocks` is the number a document needs. A document with more is refused, and so the
converse, that a `skip_attributes` which succeeds stands behind the block
(`skipAttributes_ensures`), needs no condition on the document. It is used where a decode of an
attributed value is known to have succeeded.
-/

set_option autoImplicit false

namespace Ytsaurus.Yson

/-! ## How many attribute blocks are open at once -/

mutual

def Doc.blocks : Doc → Nat
  | .scalar _ | .entity => 0
  | .list items _ => itemsBlocks items
  | .map pairs _ => pairsBlocks pairs
  | .attributed pairs _ body => max (1 + pairsBlocks pairs) body.blocks

def itemsBlocks : List (Nat × Doc) → Nat
  | [] => 0
  | (_, d) :: items => max d.blocks (itemsBlocks items)

def pairsBlocks : List (Nat × List UInt8 × Doc) → Nat
  | [] => 0
  | (_, _, d) :: pairs => max d.blocks (pairsBlocks pairs)

end

/-- What a token does to the number of open blocks. -/
def blockDepth : Nat → Token → Nat
  | k, .beginAttributes => k + 1
  | k, .endAttributes => k - 1
  | k, _ => k

/-- From `k` open blocks on, there always is one and never more than `limit`. -/
def Within (limit : Nat) : Nat → List Token → Prop
  | _, [] => True
  | k, t :: ts => k ≠ 0 ∧ blockDepth k t ≤ limit ∧ Within limit (blockDepth k t) ts

theorem within_append {limit k : Nat} {ts us : List Token} :
    Within limit k (ts ++ us) ↔ Within limit k ts ∧ Within limit (ts.foldl blockDepth k) us := by
  induction ts generalizing k with
  | nil => simp [Within]
  | cons t ts ih => simp only [List.cons_append, Within, ih, List.foldl_cons, and_assoc]

/-- The tokens stay within the limit and close every block they open. -/
def Passes (limit k : Nat) (ts : List Token) : Prop :=
  Within limit k ts ∧ ts.foldl blockDepth k = k

theorem Passes.append {limit k : Nat} {ts us : List Token} (h : Passes limit k ts)
    (h' : Passes limit k us) : Passes limit k (ts ++ us) := by
  refine ⟨within_append.mpr ⟨h.1, ?_⟩, ?_⟩
  · rw [h.2]
    exact h'.1
  · rw [List.foldl_append, h.2, h'.2]

theorem Passes.nil {limit k : Nat} : Passes limit k [] := ⟨trivial, rfl⟩

theorem passes_single {limit k : Nat} {t : Token} (hk : k ≠ 0) (hle : k ≤ limit)
    (ht : blockDepth k t = k) : Passes limit k [t] :=
  ⟨⟨hk, ht.trans_le hle, trivial⟩, ht⟩

theorem passes_seps {limit k : Nat} (hk : k ≠ 0) (hle : k ≤ limit) (n : Nat) :
    Passes limit k (seps n) := by
  induction n with
  | zero => exact .nil
  | succ n ih => exact (passes_single hk hle rfl).append ih

/-- A block around tokens that pass one level further in. -/
theorem passes_block {limit k : Nat} {ts : List Token} (hk : k ≠ 0) (hle : k + 1 ≤ limit)
    (h : Passes limit (k + 1) ts) :
    Passes limit k (.beginAttributes :: (ts ++ [.endAttributes])) := by
  have hclose : Within limit (k + 1) [.endAttributes] :=
    ⟨Nat.succ_ne_zero k, Nat.le_of_succ_le hle, trivial⟩
  refine ⟨⟨hk, hle, within_append.mpr ⟨h.1, ?_⟩⟩, ?_⟩
  · rw [show ts.foldl blockDepth (blockDepth k .beginAttributes) = k + 1 from h.2]
    exact hclose
  · rw [List.foldl_cons, List.foldl_append,
      show ts.foldl blockDepth (blockDepth k .beginAttributes) = k + 1 from h.2]
    rfl

mutual

theorem Doc.passes : ∀ (d : Doc) {limit k : Nat}, k ≠ 0 → k + d.blocks ≤ limit →
    Passes limit k d.toks
  | .scalar s, _, _, hk, hle => by
    rw [Doc.toks]
    exact passes_single hk hle (by cases s <;> rfl)
  | .entity, _, _, hk, hle => by
    rw [Doc.toks]
    exact passes_single hk hle rfl
  | .list items trail, _, _, hk, hle => by
    have hle' := Nat.le_trans (Nat.le_add_right _ _) hle
    rw [Doc.blocks] at hle
    rw [Doc.toks]
    exact (passes_single hk hle' rfl).append ((itemsToks_passes items hk hle).append
      ((passes_seps hk hle' trail).append (passes_single hk hle' rfl)))
  | .map pairs trail, _, _, hk, hle => by
    have hle' := Nat.le_trans (Nat.le_add_right _ _) hle
    rw [Doc.blocks] at hle
    rw [Doc.toks]
    exact (passes_single hk hle' rfl).append ((pairsToks_passes pairs hk hle).append
      ((passes_seps hk hle' trail).append (passes_single hk hle' rfl)))
  | .attributed pairs trail body, limit, k, hk, hle => by
    rw [Doc.blocks] at hle
    rw [Doc.toks]
    have hinner : k + 1 + pairsBlocks pairs ≤ limit := by omega
    have hpairs := pairsToks_passes pairs (Nat.succ_ne_zero k) hinner
    have hblock := passes_block hk (Nat.le_trans (Nat.le_add_right _ _) hinner)
      (hpairs.append (passes_seps (Nat.succ_ne_zero k) (by omega) trail))
    simpa using hblock.append (body.passes hk (by omega))

theorem itemsToks_passes : ∀ (items : List (Nat × Doc)) {limit k : Nat}, k ≠ 0 →
    k + itemsBlocks items ≤ limit → Passes limit k (itemsToks items)
  | [], _, _, _, _ => .nil
  | (n, d) :: items, _, _, hk, hle => by
    rw [itemsBlocks] at hle
    rw [itemsToks]
    exact (passes_seps hk (by omega) n).append
      ((d.passes hk (by omega)).append (itemsToks_passes items hk (by omega)))

theorem pairsToks_passes : ∀ (pairs : List (Nat × List UInt8 × Doc)) {limit k : Nat}, k ≠ 0 →
    k + pairsBlocks pairs ≤ limit → Passes limit k (pairsToks pairs)
  | [], _, _, _, _ => .nil
  | (n, key, d) :: pairs, _, _, hk, hle => by
    rw [pairsBlocks] at hle
    rw [pairsToks]
    exact (passes_seps hk (by omega) n).append
      ((passes_single (t := .string key) hk (by omega) rfl).append
        ((passes_single (t := .keyValueSeparator) hk (by omega) rfl).append
          ((d.passes hk (by omega)).append (pairsToks_passes pairs hk (by omega)))))

end

/-- The tokens of an attribute block. -/
def blockToks (pairs : List (Nat × List UInt8 × Doc)) (trail : Nat) : List Token :=
  .beginAttributes :: (pairsToks pairs ++ (seps trail ++ [.endAttributes]))

namespace De

variable [FloatText] {de de₁ : Deserializer} {it' : YsonIterator}

/-! ## `skip_attributes` -/

theorem skipAttributesLoop_step (fuel : Nat) {k : Nat} {t : Token} {ts : List Token} (de : Deserializer)
    (hk : k ≠ 0) (hle : blockDepth k t ≤ de.maxDepth) (h : Lexes de.lexer (t :: ts) it') :
    ∃ it₁, skipAttributesLoop (fuel + 1) k de
      = skipAttributesLoop fuel (blockDepth k t) (de.withLexer it₁) ∧ Lexes it₁ ts it' := by
  obtain ⟨it₁, hnext, hrest⟩ := nextToken_of_lexes de h
  refine ⟨it₁, ?_, hrest⟩
  rw [skipAttributesLoop, if_neg hk, StateExcept.bind_ok hnext]
  have hsame : ∀ n, n = blockDepth k t →
      ((MonadState.get : De Deserializer) >>= fun s => if n > s.maxDepth then
        (throw (.custom .attributesTooDeep) : De Unit) >>= fun _ => skipAttributesLoop fuel n
        else skipAttributesLoop fuel n) (de.withLexer it₁)
      = skipAttributesLoop fuel (blockDepth k t) (de.withLexer it₁) := by
    rintro n rfl
    rw [StateExcept.get_bind, StateExcept.ite_apply, if_neg]
    exact Nat.not_lt_of_le hle
  cases t <;> exact hsame _ rfl

theorem skipAttributesLoop_passes (fuel : Nat) {k : Nat} {ts : List Token} (de : Deserializer)
    (hwithin : Within de.maxDepth k ts) (h : Lexes de.lexer ts it') :
    skipAttributesLoop (fuel + ts.length) k de
      = skipAttributesLoop fuel (ts.foldl blockDepth k) (de.withLexer it') := by
  induction ts generalizing de k with
  | nil =>
    cases Lexes.nil_iff.mp h
    rfl
  | cons t ts ih =>
    obtain ⟨hk, hle, hwithin⟩ := hwithin
    obtain ⟨it₁, hstep, hrest⟩ :=
      skipAttributesLoop_step (fuel + ts.length) de hk hle h
    rw [List.length_cons, ← Nat.add_assoc, hstep]
    exact ih (de.withLexer it₁) hwithin hrest

/-- **`skip_attributes` finds the end of the block.** -/
theorem skipAttributes_block {pairs : List (Nat × List UInt8 × Doc)} {trail : Nat}
    (de : Deserializer) (hdepth : de.depth + 1 ≤ de.maxDepth)
    (hblocks : 1 + pairsBlocks pairs ≤ de.maxDepth) (h : Lexes de.lexer (blockToks pairs trail) it') :
    skipAttributes de = .ok ((), de.withLexer it') := by
  obtain ⟨b, it₁, hpeek, hlead, hnext, hrest⟩ := peek_next_of_lexes de h
  have hb : b = 0x3C := (hlead.eq_iff (u := .beginAttributes) rfl).mpr rfl
  have henter : enterRecursion (de.withLexer de.lexer.skipIgnored)
      = .ok ((), (de.withLexer de.lexer.skipIgnored).deeper) := by
    rw [enterRecursion, if_neg (by simp only [withLexer_depth, withLexer_maxDepth]; omega)]
    rfl
  have hnext' : De.nextToken (de.withLexer de.lexer.skipIgnored).deeper
      = .ok (.beginAttributes, (de.withLexer it₁).deeper) := by
    obtain ⟨⟨u, it⟩, hu, heq⟩ := ExceptList.map_eq_ok.mp hnext
    cases heq
    exact ExceptList.map_eq_ok.mpr ⟨_, hu, rfl⟩
  have hpasses : Passes de.maxDepth 1 (pairsToks pairs ++ seps trail) :=
    (pairsToks_passes pairs (by decide) hblocks).append (passes_seps (by decide) (by omega) trail)
  have hwithin : Within de.maxDepth 1 ((pairsToks pairs ++ seps trail) ++ [.endAttributes]) := by
    refine within_append.mpr ⟨hpasses.1, ?_⟩
    rw [hpasses.2]
    exact ⟨by decide, Nat.zero_le _, trivial⟩
  have hlen := hrest.length_le
  rw [← List.append_assoc] at hrest hlen
  obtain ⟨fuel, hfuel⟩ : ∃ fuel, it₁.rest.length + 1
      = (fuel + 1) + ((pairsToks pairs ++ seps trail) ++ [Token.endAttributes]).length :=
    ⟨it₁.rest.length - ((pairsToks pairs ++ seps trail) ++ [Token.endAttributes]).length,
      by omega⟩
  have hloop := skipAttributesLoop_passes (fuel + 1) (de.withLexer it₁).deeper hwithin hrest
  rw [List.foldl_append, hpasses.2] at hloop
  rw [skipAttributes, StateExcept.bind_ok hpeek, StateExcept.ite_apply, if_pos hb,
    StateExcept.bind_ok henter, StateExcept.bind_ok hnext']
  rw [StateExcept.bind_ok (budget_apply _)]
  show (skipAttributesLoop (it₁.rest.length + 1) 1 >>= fun _ => leaveRecursion) _ = _
  have hdone : skipAttributesLoop (it₁.rest.length + 1) 1 (de.withLexer it₁).deeper
      = .ok ((), ((de.withLexer it₁).deeper).withLexer it') := by
    rw [hfuel, hloop]
    rfl
  rw [StateExcept.bind_ok hdone]
  rfl

/-- One level too many is refused. -/
theorem skipAttributesLoop_deep (fuel : Nat) {k : Nat} {t : Token} {ts : List Token}
    (de : Deserializer) (hk : k ≠ 0) (hdeep : de.maxDepth < blockDepth k t)
    (h : Lexes de.lexer (t :: ts) it') :
    skipAttributesLoop (fuel + 1) k de = .error (.custom .attributesTooDeep) := by
  obtain ⟨it₁, hnext, _⟩ := nextToken_of_lexes de h
  rw [skipAttributesLoop, if_neg hk, StateExcept.bind_ok hnext]
  have hsame : ∀ n, n = blockDepth k t →
      ((MonadState.get : De Deserializer) >>= fun s => if n > s.maxDepth then
        (throw (.custom .attributesTooDeep) : De Unit) >>= fun _ => skipAttributesLoop fuel n
        else skipAttributesLoop fuel n) (de.withLexer it₁)
      = .error (.custom .attributesTooDeep) := by
    rintro n rfl
    rw [StateExcept.get_bind, StateExcept.ite_apply, if_pos (by exact hdeep)]
    rfl
  cases t <;> exact hsame _ rfl

open StateExcept (Ensures)

/-- Whatever the limit: if the loop succeeds, it passed over the tokens. -/
theorem skipAttributesLoop_ensures {limit fuel k : Nat} {ts us : List Token}
    {Q : Unit → Deserializer → Prop} (de : Deserializer) (hwithin : Within limit k ts)
    (h : Lexes de.lexer (ts ++ us) it')
    (hrest : ∀ fuel it₁, Lexes it₁ us it' →
      Ensures (skipAttributesLoop fuel (ts.foldl blockDepth k) (de.withLexer it₁)) Q) :
    Ensures (skipAttributesLoop fuel k de) Q := by
  induction ts generalizing fuel k de with
  | nil => exact hrest fuel de.lexer h
  | cons t ts ih =>
    obtain ⟨hk, _, hwithin⟩ := hwithin
    cases fuel with
    | zero => exact .error _
    | succ fuel =>
      by_cases hle : blockDepth k t ≤ de.maxDepth
      · obtain ⟨it₁, hstep, hlex⟩ := skipAttributesLoop_step fuel de hk hle h
        rw [hstep]
        exact ih (de.withLexer it₁) hwithin hlex hrest
      · exact .of_error (skipAttributesLoop_deep fuel de hk (Nat.lt_of_not_le hle) h)

/-- **`skip_attributes` that succeeds stands behind the block**, whatever the depth. -/
theorem skipAttributes_ensures {pairs : List (Nat × List UInt8 × Doc)} {trail : Nat}
    {us : List Token} (de : Deserializer) (h : Lexes de.lexer (blockToks pairs trail ++ us) it') :
    Ensures (skipAttributes de) fun _ de' =>
      de' = de.withLexer de'.lexer ∧ Lexes de'.lexer us it' := by
  obtain ⟨b, it₁, hpeek, hlead, hnext, hrest⟩ := peek_next_of_lexes de h
  have hb : b = 0x3C := (hlead.eq_iff (u := .beginAttributes) rfl).mpr rfl
  rw [skipAttributes]
  refine .bind_ok hpeek ?_
  rw [StateExcept.ite_apply, if_pos hb]
  have henter : Ensures (enterRecursion (de.withLexer de.lexer.skipIgnored)) fun _ de₁ =>
      de₁ = (de.withLexer de.lexer.skipIgnored).deeper := by
    rw [enterRecursion]
    split
    · exact .error _
    · exact .ok rfl
  refine henter.bind ?_
  rintro _ _ rfl
  have hnext' : De.nextToken (de.withLexer de.lexer.skipIgnored).deeper
      = .ok (.beginAttributes, (de.withLexer it₁).deeper) := by
    obtain ⟨⟨u, it⟩, hu, heq⟩ := ExceptList.map_eq_ok.mp hnext
    cases heq
    exact ExceptList.map_eq_ok.mpr ⟨_, hu, rfl⟩
  refine .bind_ok hnext' (.bind_ok (budget_apply _) ?_)
  -- the count is one until the closing bracket takes it to zero
  have hpasses : Passes (1 + pairsBlocks pairs) 1 (pairsToks pairs ++ seps trail) :=
    (pairsToks_passes pairs Nat.one_ne_zero (Nat.le_refl _)).append
      (passes_seps Nat.one_ne_zero (Nat.le_add_right _ _) trail)
  have hwithin : Within (1 + pairsBlocks pairs) 1
      ((pairsToks pairs ++ seps trail) ++ [.endAttributes]) := by
    refine within_append.mpr ⟨hpasses.1, ?_⟩
    rw [hpasses.2]
    exact ⟨Nat.one_ne_zero, Nat.zero_le _, trivial⟩
  have htoks : Lexes it₁ (((pairsToks pairs ++ seps trail) ++ [.endAttributes]) ++ us) it' := by
    simpa [blockToks] using hrest
  have hloop : Ensures (skipAttributesLoop (it₁.rest.length + 1) 1 (de.withLexer it₁).deeper)
      fun _ de₁ => de₁ = de.deeper.withLexer de₁.lexer ∧ Lexes de₁.lexer us it' := by
    refine skipAttributesLoop_ensures _ hwithin htoks fun fuel it₂ hus => ?_
    rw [List.foldl_append, hpasses.2]
    cases fuel with
    | zero => exact .error _
    | succ fuel => exact .ok ⟨rfl, hus⟩
  refine hloop.bind ?_
  rintro _ de₁ ⟨hde, hus⟩
  refine .of_ok rfl ⟨?_, hus⟩
  rw [hde]
  rfl

/-- Nothing is skipped where no block stands. -/
theorem skipAttributes_plain {t : Token} {ts : List Token} (de : Deserializer)
    (ht : t ≠ .beginAttributes) (h : Lexes de.lexer (t :: ts) it') :
    skipAttributes de = .ok ((), de.withLexer de.lexer.skipIgnored) := by
  obtain ⟨b, hpeek, hlead⟩ := peekByte_of_lexes de h
  have hb : b ≠ 0x3C := fun hb => ht ((hlead.eq_iff (u := .beginAttributes) rfl).mp hb)
  rw [skipAttributes, StateExcept.bind_ok hpeek, StateExcept.ite_apply, if_neg hb]
  rfl

end De

end Ytsaurus.Yson
