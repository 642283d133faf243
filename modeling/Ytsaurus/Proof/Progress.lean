import Ytsaurus.Proof.Plan
import Ytsaurus.Proof.TypedEnds
import Ytsaurus.Yson.Stream

/-!
# `Proof/Progress.lean` — the lexer moves forwards, and every reader of it ends

A byte the lexer does not know is refused, a lone `/` is where skipping stops, and a comment
that is never closed runs to the end: there is no way through `next_token` that succeeds where
it started. So what reads by tokens ends. The scanner and the deserializers are plans over the
lexer, which take no more tokens than there are bytes; and they do end by themselves, since
none of them uses the budgets up that its loops were given.

The two halves are different claims. That a run takes at most so many tokens would hold of a
run that was cut off as well; that it is not cut off is what `Proof/TypedEnds.lean` and
`Proof/ScanStable.lean` show. For the stream of a fragment there is one more: every item takes a
byte at least, so asking for items again and again comes to the end of the input, or to an error
(`items_ends`).

Nothing here depends on the input being well formed, and it is stated of both formats.
-/

set_option autoImplicit false

namespace Ytsaurus.Yson

variable {α : Type}

/-! ## One step -/

theorem Advanced.eq_advance {it it' : YsonIterator} {n : Nat} (h : Advanced it it' n) :
    it' = it.advance n := h.ext ⟨rfl, rfl, h.le, rfl⟩

variable [FloatText]

/-- What the lexer does where it stands: it skips forwards and not past the end, and a token is
refused, the end of the input among the reasons, or is a byte long at least. -/
structure Progresses (it : YsonIterator) : Prop where
  skip : ∃ n ≤ it.rest.length, it.skipIgnored = it.advance n
  token : (∃ e, e ≠ .outOfFuel ∧ nextToken it = .error e) ∨
    ∃ t n, 0 < n ∧ n ≤ it.rest.length ∧ nextToken it = .ok (t, it.advance n)

theorem progresses (it : YsonIterator) : Progresses it where
  skip := by
    obtain ⟨n, hn⟩ := advanced_skipIgnored it
    exact ⟨n, hn.le, hn.eq_advance⟩
  token := by
    cases h : nextToken it with
    | error e => exact .inl ⟨e, fun he => nextToken_ne_outOfFuel it (he ▸ h), rfl⟩
    | ok r =>
      obtain ⟨n, hpos, hn⟩ := nextToken_advanced h
      have heq : r = (r.1, it.advance n) := congrArg (r.1, ·) hn.eq_advance
      exact .inr ⟨r.1, n, hpos, hn.le, congrArg Except.ok heq⟩

/-! ## Readers -/

/-- A reader that ends where the lexer stands: its budgets last, and however it is written as a
plan, it takes no more tokens than there are bytes. -/
structure Terminates (m : LexM α) (it : YsonIterator) : Prop where
  ends : m it ≠ .error .outOfFuel
  planned : Planned m
  tokens : ∀ p : Plan α, m = p.run lexer → p.taken lexer it ≤ it.rest.length

theorem Planned.terminates {m : LexM α} (h : Planned m) {it : YsonIterator}
    (hends : m it ≠ .error .outOfFuel) : Terminates m it :=
  ⟨hends, h, fun p _ => lexer_taken_le p it⟩

theorem scanTree_terminates (bytes : List UInt8) (f : YsonFormat) :
    Terminates (scanTree (bytes.length + 1) 0) (.new bytes f.isBinary) := by
  refine (scanTree_planned _ _).terminates fun h => ?_
  apply scanValue_ne_outOfFuel bytes f
  unfold scanValue
  rw [h]
  rfl

omit [FloatText] in
theorem De.end_eats {n : Nat} : Eats n 0 De.end := by
  intro de _
  unfold De.end Yson.peekByte
  cases de.lexer.skipIgnored.rest with
  | nil => exact .ok ⟨skipIgnored_length de.lexer, id⟩
  | cons b x => exact .error (nomatch ·)

theorem readAll_terminates {deserialize : De α} (hbuilt : Built deserialize)
    {bytes : List UInt8} (h : Seed bytes.length deserialize) (isBinary : Bool) :
    Terminates (readAll deserialize) (.new bytes isBinary) := by
  refine (readAll_planned hbuilt).terminates fun hrun => ?_
  have hall : Eats bytes.length 0 (deserialize >>= fun value => De.end >>= fun _ => pure value) :=
    .bind h.any fun value => .bind De.end_eats fun _ => .pure value
  have hends := hall ⟨.new bytes isBinary, false, false, 0, 128⟩ (Nat.le_refl _)
  exact hends.1 (ExceptList.map_eq_error.mp hrun)

/-! ## A sequence of values -/

namespace StreamDeserializer

/-- All items of a stream: a loop over `next_item`, up to the end or the first error. -/
def drain (deserialize : De α) : Nat → StreamM (List α)
  | 0 => throw .outOfFuel
  | calls + 1 => do
    match ← nextItem deserialize with
    | none => pure []
    | some v =>
      let vs ← drain deserialize calls
      pure (v :: vs)

/-- One item, and whether the next is the first one. -/
def pull (deserialize : De α) (first : Bool) : De (Option α × Bool) :=
  De.peekAny >>= fun byte =>
    if byte = none then pure (none, first)
    else if first then deserialize >>= fun v => pure (some v, false)
    else if byte = some 0x3B then
      De.nextToken >>= fun _ => De.peekAny >>= fun next =>
        if next = none then pure (none, false)
        else deserialize >>= fun v => pure (some v, false)
    else deserialize >>= fun v => pure (some v, false)

/-- The items, and whether the next is the first one. -/
def items (deserialize : De α) : Nat → Bool → De (List α × Bool)
  | 0, _ => throw .outOfFuel
  | calls + 1, first =>
    pull deserialize first >>= fun r =>
      r.1.elim (pure ([], r.2)) fun v =>
        items deserialize calls r.2 >>= fun s => pure (v :: s.1, s.2)

/-- What a program on the deserializer's fields and on `first` does to a stream. -/
def onStream (m : Bool → De (α × Bool)) : StreamM α := fun stream =>
  (m stream.first stream.de).map fun r => (r.1.1, ⟨r.2, r.1.2⟩)

omit [FloatText] in
theorem peek_eq : peek = De.peekAny := by
  funext de
  unfold peek De.peekAny Yson.peekByte
  cases de.lexer.skipIgnored.rest <;> rfl

section OnDe

omit [FloatText]

variable {m : De α} {de de' : Deserializer}

theorem onDe_ok {a : α} (h : m de = .ok (a, de')) (first : Bool) :
    onDe m ⟨de, first⟩ = .ok (a, ⟨de', first⟩) := by
  unfold onDe
  rw [h]
  rfl

theorem onDe_error {e : YsonError} (h : m de = .error e) (first : Bool) :
    onDe m ⟨de, first⟩ = .error e := by
  unfold onDe
  rw [h]
  rfl

theorem onStream_ok {m : Bool → De (α × Bool)} {a : α} {first first' : Bool}
    (h : m first de = .ok ((a, first'), de')) :
    onStream m ⟨de, first⟩ = .ok (a, ⟨de', first'⟩) := by
  unfold onStream
  rw [h]
  rfl

theorem onStream_error {m : Bool → De (α × Bool)} {e : YsonError} {first : Bool}
    (h : m first de = .error e) : onStream m ⟨de, first⟩ = .error e := by
  unfold onStream
  rw [h]
  rfl

end OnDe

omit [FloatText] in
/-- A look never fails. -/
theorem peekAny_ok (de : Deserializer) :
    ∃ byte, De.peekAny de = .ok (byte, de.withLexer de.lexer.skipIgnored) := by
  unfold De.peekAny Yson.peekByte
  cases de.lexer.skipIgnored.rest with
  | nil => exact ⟨none, rfl⟩
  | cons b x => exact ⟨some b, rfl⟩

omit [FloatText] in
theorem item_eq (deserialize : De α) (de : Deserializer) : item deserialize ⟨de, false⟩ =
    onStream (fun _ => deserialize >>= fun v => pure (some v, false)) ⟨de, false⟩ := by
  unfold item
  cases h : deserialize de with
  | error e =>
    rw [StateExcept.bind_error (onDe_error h false)]
    exact (onStream_error (StateExcept.bind_error h)).symm
  | ok r =>
    rw [StateExcept.bind_ok (onDe_ok h false)]
    exact (onStream_ok (StateExcept.bind_ok h)).symm

/-- `next_item`, as a program on the deserializer's fields. -/
theorem nextItem_eq (deserialize : De α) : nextItem deserialize = onStream (pull deserialize) := by
  funext stream
  obtain ⟨de, first⟩ := stream
  obtain ⟨byte, hpeek⟩ := peekAny_ok de
  unfold nextItem
  rw [peek_eq, StateExcept.bind_ok (onDe_ok hpeek first)]
  unfold onStream pull
  rw [StateExcept.bind_ok hpeek]
  generalize de.withLexer de.lexer.skipIgnored = de
  cases byte with
  | none => rfl
  | some byte =>
    dsimp only
    rw [StateExcept.get_bind, if_neg (Option.some_ne_none byte)]
    cases first with
    | true => exact item_eq deserialize de
    | false =>
      rw [if_neg Bool.false_ne_true, if_neg Bool.false_ne_true]
      by_cases hsep : byte = 0x3B
      · rw [if_pos hsep, if_pos (congrArg some hsep)]
        cases htoken : De.nextToken de with
        | error e =>
          rw [StateExcept.bind_error (onDe_error htoken false), StateExcept.bind_error htoken]
          rfl
        | ok r =>
          obtain ⟨t, de₁⟩ := r
          obtain ⟨next, hnext⟩ := peekAny_ok de₁
          rw [StateExcept.bind_ok (onDe_ok htoken false), StateExcept.bind_ok htoken,
            StateExcept.bind_ok (onDe_ok hnext false), StateExcept.bind_ok hnext]
          cases next with
          | none => rfl
          | some next => exact item_eq deserialize _
      · rw [if_neg hsep, if_neg fun h => hsep (Option.some.inj h)]
        exact item_eq deserialize de

theorem drain_eq (deserialize : De α) : ∀ calls : Nat,
    drain deserialize calls = onStream (items deserialize calls)
  | 0 => rfl
  | calls + 1 => by
    funext stream
    obtain ⟨de, first⟩ := stream
    rw [drain, nextItem_eq]
    cases hpull : pull deserialize first de with
    | error e =>
      rw [StateExcept.bind_error (onStream_error hpull)]
      exact (onStream_error (StateExcept.bind_error hpull)).symm
    | ok r =>
      obtain ⟨⟨v, first'⟩, de'⟩ := r
      rw [StateExcept.bind_ok (onStream_ok hpull)]
      show _ = Except.map _ (items deserialize (calls + 1) first de)
      rw [items, StateExcept.bind_ok hpull]
      cases v with
      | none => rfl
      | some v =>
        rw [drain_eq deserialize calls]
        dsimp only [Option.elim]
        cases hrest : items deserialize calls first' de' with
        | error e =>
          rw [StateExcept.bind_error (onStream_error hrest), StateExcept.bind_error hrest]
          rfl
        | ok r =>
          rw [StateExcept.bind_ok (onStream_ok hrest), StateExcept.bind_ok hrest]
          rfl

theorem pull_built {deserialize : De α} (h : Built deserialize) (first : Bool) :
    Built (pull deserialize first) := by
  have hitem : Built (deserialize >>= fun v => pure (some v, false)) := .bind h fun _ => .pure _
  refine .bind .peek fun byte => .ite (.pure _) (.ite hitem (.ite ?_ hitem))
  exact .bind .token fun _ => .bind .peek fun next => .ite (.pure _) hitem

theorem items_built {deserialize : De α} (h : Built deserialize) :
    ∀ (calls : Nat) (first : Bool), Built (items deserialize calls first)
  | 0, _ => .throw _
  | calls + 1, first => by
    refine .bind (pull_built h first) fun r => ?_
    obtain ⟨v, first'⟩ := r
    cases v with
    | none => exact .pure _
    | some v => exact .bind (items_built h calls first') fun _ => .pure _

variable {n : Nat} {deserialize : De α}

/-- An item is a byte long at least. -/
theorem pull_ends (h : Seed n deserialize) (first : Bool) {de : Deserializer} (hde : de.left ≤ n)
    (hcalm : de.Calm) : Ends (pull deserialize first de) fun r de' =>
      Ran 0 de de' ∧ (r.1.isSome = true → Ran 1 de de') := by
  have hitem : ∀ de₁, Ran 0 de de₁ →
      Ends ((deserialize >>= fun v => pure (some v, false) : De (Option α × Bool)) de₁)
        fun r de' => Ran 0 de de' ∧ (r.1.isSome = true → Ran 1 de de') := by
    intro de₁ hran
    refine (h.calm de₁ (hran.le hde) (hran.calm hcalm)).bind fun v de₂ h₂ => .ok ?_
    have hall := hran.trans h₂
    exact ⟨hall.mono (Nat.zero_le 1), fun _ => hall⟩
  refine (De.peekAny_ends de).bind fun byte de₁ h₁ => ?_
  refine .ite (fun _ => .ok ⟨h₁, (nomatch ·)⟩) fun _ => ?_
  refine .ite (fun _ => hitem de₁ h₁) fun _ => .ite (fun _ => ?_) fun _ => hitem de₁ h₁
  -- behind the separator
  refine (De.nextToken_ends de₁).bind fun t de₂ h₂ => ?_
  refine (De.peekAny_ends de₂).bind fun next de₃ h₃ => ?_
  have hall := ((h₁.trans h₂.1).trans h₃).mono (Nat.zero_le _)
  exact .ite (fun _ => .ok ⟨hall, (nomatch ·)⟩) fun _ => hitem de₃ hall

/-- **All items of a stream** are read with as many calls as there are bytes, and one more. -/
theorem items_ends (h : Seed n deserialize) : ∀ {calls : Nat} (first : Bool) {de : Deserializer},
    de.left < calls → de.left ≤ n → de.Calm →
      Ends (items deserialize calls first de) fun _ => Ran 0 de
  | 0, _, _, hcalls, _, _ => absurd hcalls (Nat.not_lt_zero _)
  | calls + 1, first, de, hcalls, hde, hcalm => by
    refine (pull_ends h first hde hcalm).bind fun r de₁ h₁ => ?_
    obtain ⟨v, first'⟩ := r
    cases v with
    | none => exact .ok h₁.1
    | some v =>
      have hran := h₁.2 rfl
      have hless := hran.left
      have hrest := items_ends h first' (show de₁.left < calls by omega) (hran.le hde)
        (hran.calm hcalm)
      refine hrest.bind fun s de₂ h₂ => .ok ?_
      exact (hran.trans h₂).mono (Nat.zero_le _)

/-- All items of a stream that begins here. -/
def readAll (deserialize : De α) (calls : Nat) : LexM (List α) := fun it =>
  (drain deserialize calls ⟨⟨it, false, false, 0, 128⟩, true⟩).map fun r => (r.1, r.2.de.lexer)

theorem readAll_planned (h : Built deserialize) (calls : Nat) :
    Planned (readAll deserialize calls) := by
  obtain ⟨p, hp⟩ := (items_built h calls true).plan ⟨.new [] false, false, false, 0, 128⟩
  refine ⟨p.bind fun r => .done (.ok r.1.1), funext fun it => ?_⟩
  rw [Reading.Plan.run_bind, StateExcept.bind_apply]
  unfold readAll
  rw [drain_eq]
  refine (congrArg (fun run => (Except.map _ run).map _) (hp it)).trans ?_
  cases p.run lexer it <;> rfl

theorem readAll_terminates (hbuilt : Built deserialize) {bytes : List UInt8}
    (h : Seed bytes.length deserialize) (isBinary : Bool) :
    Terminates (readAll deserialize (bytes.length + 1)) (.new bytes isBinary) := by
  refine (readAll_planned hbuilt _).terminates fun hrun => ?_
  unfold readAll at hrun
  rw [drain_eq] at hrun
  have hitems := ExceptList.map_eq_error.mp (ExceptList.map_eq_error.mp hrun)
  let start : Deserializer := ⟨.new bytes isBinary, false, false, 0, 128⟩
  have hcalm : start.Calm := rfl
  exact (items_ends h true (Nat.lt_succ_self start.left) (Nat.le_refl _) hcalm).1 hitems

end StreamDeserializer

/-! ## All of them -/

/-- **The lexer always makes progress**, and whatever reads by it ends: the scanner, and the
deserializers of values and of every type, for one document and for a stream of them. -/
theorem lexer_progresses [FloatCasts] (bytes : List UInt8) (f : YsonFormat) :
    (∀ pos, Progresses ((YsonIterator.new bytes f.isBinary).advance pos)) ∧
    Terminates (scanTree (bytes.length + 1) 0) (.new bytes f.isBinary) ∧
    (Terminates (readAll (YsonValue.deserialize (bytes.length + 1))) (.new bytes f.isBinary) ∧
      Terminates (StreamDeserializer.readAll (YsonValue.deserialize (bytes.length + 1))
        (bytes.length + 1)) (.new bytes f.isBinary)) ∧
    ∀ t : Ty, Terminates (readAll t.decode) (.new bytes f.isBinary) ∧
      Terminates (StreamDeserializer.readAll t.decode (bytes.length + 1))
        (.new bytes f.isBinary) := by
  have hvalue : Seed bytes.length (YsonValue.deserialize (bytes.length + 1)) :=
    YsonValue.deserialize_seed (Nat.lt_succ_self _)
  have hbuilt := YsonValue.deserialize_built (bytes.length + 1)
  refine ⟨fun pos => progresses _, scanTree_terminates bytes f, ⟨?_, ?_⟩, fun t => ⟨?_, ?_⟩⟩
  · exact readAll_terminates hbuilt hvalue _
  · exact StreamDeserializer.readAll_terminates hbuilt hvalue _
  · exact readAll_terminates t.decode_built (t.decode_seed _) _
  · exact StreamDeserializer.readAll_terminates t.decode_built (t.decode_seed _) _

end Ytsaurus.Yson
