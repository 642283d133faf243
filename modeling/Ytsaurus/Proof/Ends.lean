import Ytsaurus.Proof.ScanStable
import Ytsaurus.Yson.Typed

/-!
# `Proof/Ends.lean` — every decode ends

A loop of the deserializer takes its budget from the bytes that are left, and nested values are
read by a deserializer of their own. So a budget lasts if every turn reads a byte at least. Two
parts may read nothing and succeed: a missing attribute block, which is an empty map, and the
key under which a body without a map is offered. The first only happens while attributes are
awaited, which no loop over elements ever is; behind the second there is no further turn.

The budgets are the model's. The code loops and recurses, and a reader of the model wants to know
that an `outOfFuel` stands for nothing the code does; the theorem that it never occurs is in
`Proof/TypedEnds.lean`, and this module has the parts. `Ran k de de'` says that at least `k` bytes
were read between two states, and `Seed n m` that a part on at most `n` bytes ends within its
budgets and reads at least one byte where no attributes are awaited (`Calm`). A loop over a
container then needs of its seed that it ends on fewer bytes than the loop has, which is the
inductive hypothesis of whatever nests.
-/

set_option autoImplicit false

namespace Ytsaurus.Yson

variable {α β κ : Type}

/-! ## What a run reads -/

namespace Deserializer

/-- How many bytes are left. -/
def left (de : Deserializer) : Nat := de.lexer.rest.length

/-- No attributes are awaited. -/
def Calm (de : Deserializer) : Prop := de.isReadingAttributes = false

end Deserializer

/-- From `de` to `de'` at least `k` bytes were read, and no attributes became awaited. -/
structure Ran (k : Nat) (de de' : Deserializer) : Prop where
  left : de'.left + k ≤ de.left
  calm : de.Calm → de'.Calm

namespace Ran

variable {j k : Nat} {de de₁ de₂ : Deserializer}

theorem refl (de : Deserializer) : Ran 0 de de := ⟨Nat.le_refl _, id⟩

theorem trans (h : Ran j de de₁) (h' : Ran k de₁ de₂) : Ran (j + k) de de₂ where
  left := by
    have h₁ := h.left
    have h₂ := h'.left
    omega
  calm hcalm := h'.calm (h.calm hcalm)

theorem mono (h : Ran k de de₁) (hle : j ≤ k) : Ran j de de₁ :=
  ⟨Nat.le_trans (Nat.add_le_add_left hle _) h.left, h.calm⟩

theorem le (h : Ran k de de₁) {n : Nat} (hn : de.left ≤ n) : de₁.left ≤ n :=
  Nat.le_trans (Nat.le_trans (Nat.le_add_right _ k) h.left) hn

end Ran

/-- The budget lasts, and what is returned satisfies `Q`. -/
abbrev Ends (run : Except YsonError (α × Deserializer)) (Q : α → Deserializer → Prop) : Prop :=
  StateExcept.Avoids .outOfFuel run Q

/-- With at most `n` bytes left the program ends, and has read `k` bytes if it succeeds. -/
def Eats (n k : Nat) (m : De α) : Prop :=
  ∀ de : Deserializer, de.left ≤ n → Ends (m de) fun _ => Ran k de

/-- A deserializer for a part: it reads something unless attributes are awaited. -/
structure Seed (n : Nat) (m : De α) : Prop where
  any : Eats n 0 m
  calm : ∀ de : Deserializer, de.left ≤ n → de.Calm → Ends (m de) fun _ => Ran 1 de

theorem Seed.of_ends {n : Nat} {m : De α} (h : ∀ de : Deserializer, de.left ≤ n →
    Ends (m de) fun _ de' => Ran 0 de de' ∧ (de.Calm → Ran 1 de de')) : Seed n m where
  any de hde := (h de hde).imp fun _ _ hran => hran.1
  calm de hde hcalm := (h de hde).imp fun _ _ hran => hran.2 hcalm

/-- Both halves at one run. -/
theorem Seed.ends {n : Nat} {m : De α} (h : Seed n m) {de : Deserializer} (hde : de.left ≤ n) :
    Ends (m de) fun _ de' => Ran 0 de de' ∧ (de.Calm → Ran 1 de de') := by
  by_cases hcalm : de.Calm
  · exact (h.calm de hde hcalm).imp fun _ _ hran => ⟨hran.mono (Nat.zero_le 1), fun _ => hran⟩
  · exact (h.any de hde).imp fun _ _ hran => ⟨hran, fun h => absurd h hcalm⟩

section Seed

variable {n : Nat}

theorem Seed.mono {m : De α} (h : Seed (n + 1) m) : Seed n m where
  any de hde := h.any de (Nat.le_succ_of_le hde)
  calm de hde := h.calm de (Nat.le_succ_of_le hde)

/-- A pure step behind a seed. -/
theorem Seed.map {m : De α} (h : Seed n m) {f : α → De β} (hf : ∀ a, Eats n 0 (f a)) :
    Seed n (m >>= f) := by
  refine .of_ends fun de hde => ?_
  refine (h.ends hde).bind fun a de₁ h₁ => ?_
  refine (hf a de₁ (h₁.1.le hde)).imp fun _ _ h₂ => ?_
  exact ⟨h₁.1.trans h₂, fun hcalm => (h₁.2 hcalm).trans h₂⟩

/-- A step in front that may read nothing. -/
theorem Seed.before {m : De α} (hm : Eats n 0 m) {f : α → De β} (hf : ∀ a, Seed n (f a)) :
    Seed n (m >>= f) := by
  refine .of_ends fun de hde => ?_
  refine (hm de hde).bind fun a de₁ h₁ => ?_
  refine ((hf a).ends (h₁.le hde)).imp fun _ _ h₂ => ?_
  refine ⟨h₁.trans h₂.1, fun hcalm => ?_⟩
  have htrans := h₁.trans (h₂.2 (h₁.calm hcalm))
  rwa [Nat.zero_add] at htrans

theorem Seed.get {f : Deserializer → De α} (hf : ∀ de, Seed n (f de)) :
    Seed n (MonadState.get >>= f) where
  any de hde := (hf de).any de hde
  calm de hde hcalm := (hf de).calm de hde hcalm

theorem Seed.ite {c : Prop} [Decidable c] {m m' : De α} (hm : Seed n m) (hm' : Seed n m') :
    Seed n (if c then m else m') := by
  split
  · exact hm
  · exact hm'

theorem Seed.custom (m : Message) : Seed n (throw (.custom m) : De α) where
  any _ _ := .error (nomatch ·)
  calm _ _ _ := .error (nomatch ·)

end Seed

namespace Eats

variable {n k : Nat}

theorem pure (a : α) : Eats n 0 (Pure.pure a : De α) := fun de _ => .ok (.refl de)

theorem throw {e : YsonError} (h : e ≠ .outOfFuel) : Eats n k (MonadExcept.throw e : De α) :=
  fun _ _ => .error h

theorem custom (m : Message) : Eats n k (MonadExcept.throw (.custom m) : De α) :=
  .throw (nomatch ·)

theorem ofExcept {x : Except YsonError α} (h : x ≠ .error .outOfFuel) :
    Eats n 0 (De.ofExcept x) := by
  intro de _
  cases x with
  | error e => exact .error fun he => h (congrArg _ he)
  | ok a => exact .ok (.refl de)

theorem less {m : De α} (h : Eats n k m) : Eats n 0 m :=
  fun de hde => (h de hde).imp fun _ _ hran => hran.mono (Nat.zero_le k)

theorem bind {m : De α} {f : α → De β} (hm : Eats n 0 m) (hf : ∀ a, Eats n k (f a)) :
    Eats n k (m >>= f) := by
  intro de hde
  refine (hm de hde).bind fun a de₁ h₁ => (hf a de₁ (h₁.le hde)).imp fun _ _ h₂ => ?_
  have h := h₁.trans h₂
  rwa [Nat.zero_add] at h

/-- The first statement reads something; the rest has fewer bytes left. -/
theorem step {m : De α} {f : α → De β} (hm : ∀ n, Eats n 1 m) (hf : ∀ a, Eats n 0 (f a)) :
    Eats (n + 1) 1 (m >>= f) := by
  intro de hde
  refine (hm _ de hde).bind fun a de₁ h₁ => ?_
  have hle := h₁.left
  exact (hf a de₁ (by omega)).imp fun _ _ h₂ => h₁.trans h₂

theorem ite {c : Prop} [Decidable c] {m m' : De α} (hm : Eats n k m) (hm' : Eats n k m') :
    Eats n k (if c then m else m') :=
  fun de hde => .ite (fun _ => hm de hde) fun _ => hm' de hde

theorem get {f : Deserializer → De α} (hf : ∀ de, Eats n k (f de)) :
    Eats n k (MonadState.get >>= f) := fun de hde => hf de de hde

theorem update {f : Deserializer → Deserializer} (hlexer : ∀ de, (f de).lexer = de.lexer)
    (hcalm : ∀ de : Deserializer, de.Calm → (f de).Calm) : Eats n 0 (modify f : De Unit) := by
  intro de _
  refine .ok ⟨?_, hcalm de⟩
  show (f de).lexer.rest.length + 0 ≤ de.lexer.rest.length
  rw [hlexer]
  exact Nat.le_refl _

end Eats

/-! ## Access to entries -/

namespace MapAccess

/-- A key was read, and a `=` stands in front of its value. -/
def opens : MapAccess → Bool
  | .flatStruct .attributes false => true
  | .flatStruct .body false => true
  | .commaSeparated _ _ => true
  | _ => false

/-- Enough turns for the entries that are left, with `left` bytes. The turn that offers the body
need not read anything, and the one behind it ends the loop. -/
def Enough (fuel left : Nat) : MapAccess → Prop
  | .flatStruct .done _ => 1 ≤ fuel
  | .empty => 1 ≤ fuel
  | .flatStruct .valueOnly _ => left < fuel ∧ 2 ≤ fuel
  | .flatStruct .between _ => left < fuel ∧ 2 ≤ fuel
  | .flatStruct .attributes _ => left < fuel
  | .flatStruct .body _ => left < fuel
  | .commaSeparated _ _ => left < fuel

/-- The body may be offered at once. -/
def AtValue : MapAccess → Prop
  | .flatStruct .valueOnly _ => True
  | .flatStruct .between _ => True
  | _ => False

/-- There may be a further key. -/
def Live : MapAccess → Prop
  | .flatStruct .done _ => False
  | .empty => False
  | _ => True

section Enough

variable {map : MapAccess} {fuel left : Nat}

theorem Enough.pos (h : map.Enough fuel left) : 1 ≤ fuel := by
  unfold Enough at h
  split at h <;> omega

theorem Enough.lt (h : map.Enough fuel left) (hlive : map.Live) : left < fuel := by
  unfold Enough at h
  split at h
  case h_1 => exact hlive.elim
  case h_2 => exact hlive.elim
  all_goals omega

theorem Enough.two (h : map.Enough fuel left) (hvalue : map.AtValue) : 2 ≤ fuel := by
  unfold Enough at h
  split at h
  case h_3 => exact h.2
  case h_4 => exact h.2
  all_goals exact hvalue.elim

theorem enough_of_opens (hopens : map.opens = true) (h : left < fuel) : map.Enough fuel left := by
  unfold opens at hopens
  split at hopens
  case h_4 => cases hopens
  all_goals exact h

end Enough

end MapAccess

/-- What is known where a key was read: a `=` comes next, or the key stands for the body, which
was offered behind a byte at least unless there is no other way to it. -/
structure KeyRead (atValue : Prop) (de : Deserializer) (r : Option κ × MapAccess)
    (de' : Deserializer) : Prop where
  ran : Ran 0 de de'
  key : r.1.isSome = true →
    r.2.opens = true ∨ r.2 = .flatStruct .done true ∧ (atValue ∨ Ran 1 de de')

namespace KeyRead

variable {p : Prop} {k : Nat} {de de₁ de₂ : Deserializer} {r : Option κ × MapAccess}

theorem none (h : Ran k de de₁) (map : MapAccess) : KeyRead p de ((none, map) : Option κ × _) de₁ :=
  ⟨h.mono (Nat.zero_le k), (nomatch ·)⟩

theorem some (h : Ran k de de₁) (key : κ) {map : MapAccess} (hmap : map.opens = true) :
    KeyRead p de (some key, map) de₁ :=
  ⟨h.mono (Nat.zero_le k), fun _ => .inl hmap⟩

theorem weaken (h : KeyRead False de r de₁) : KeyRead p de r de₁ :=
  ⟨h.ran, fun hsome => (h.key hsome).imp_right fun hdone => ⟨hdone.1, hdone.2.imp_left False.elim⟩⟩

/-- Behind a byte the body is no exception. -/
theorem after (h : Ran 1 de de₁) (hkey : KeyRead p de₁ r de₂) : KeyRead False de r de₂ where
  ran := (h.trans hkey.ran).mono (Nat.zero_le _)
  key hsome := (hkey.key hsome).imp_right fun hdone => ⟨hdone.1, .inr (h.trans hkey.ran)⟩

theorem before (h : Ran 0 de de₁) (hkey : KeyRead p de₁ r de₂) : KeyRead p de r de₂ where
  ran := h.trans hkey.ran
  key hsome := (hkey.key hsome).imp_right fun hdone => ⟨hdone.1, hdone.2.imp_right fun hran => by
    have hall := h.trans hran
    rwa [Nat.zero_add] at hall⟩

end KeyRead

namespace De

/-! ## Peeks, tokens and depth -/

/-- What a peek leaves: the byte is still there. -/
structure Peeked (de : Deserializer) (b : UInt8) (de' : Deserializer) : Prop where
  ran : Ran 0 de de'
  first : ∃ it, Yson.peekByte de.lexer = .ok (b, it)
  again : ∃ it, Yson.peekByte de'.lexer = .ok (b, it)
  left : 1 ≤ de'.left

/-- The next byte is not this one. -/
def NotNext (b : UInt8) (de : Deserializer) : Prop := ∀ it, Yson.peekByte de.lexer ≠ .ok (b, it)

theorem Peeked.notNext {de de' : Deserializer} {b c : UInt8} (h : Peeked de b de') (hne : b ≠ c) :
    NotNext c de := by
  intro it hpeek
  obtain ⟨it', hfirst⟩ := h.first
  cases hfirst.symm.trans hpeek
  exact hne rfl

theorem peekByte_ends (de : Deserializer) : Ends (De.peekByte de) (Peeked de) := by
  have hpeek : De.peekByte de = (Yson.peekByte de.lexer).map fun r => (r.1, de.withLexer r.2) := rfl
  rw [hpeek]
  cases hrest : de.lexer.skipIgnored.rest with
  | nil =>
    rw [Yson.peekByte, hrest]
    exact .error fun h => YsonError.noConfusion h
  | cons b x =>
    have hfirst : Yson.peekByte de.lexer = .ok (b, de.lexer.skipIgnored) := by
      rw [Yson.peekByte, hrest]
    rw [hfirst]
    have hleft : (de.withLexer de.lexer.skipIgnored).left = x.length + 1 :=
      congrArg List.length hrest
    refine .ok ⟨⟨skipIgnored_length de.lexer, id⟩, ⟨_, hfirst⟩, ?_, ?_⟩
    · exact ⟨_, (peekByte_skipIgnored de.lexer).trans hfirst⟩
    · show 1 ≤ (de.withLexer de.lexer.skipIgnored).left
      omega

theorem peekByte_eats {n : Nat} : Eats n 0 De.peekByte :=
  fun de _ => (peekByte_ends de).imp fun _ _ h => h.ran

theorem enterRecursion_eats {n : Nat} : Eats n 0 enterRecursion := by
  intro de _
  unfold enterRecursion
  split
  · exact .error (nomatch ·)
  · exact .ok ⟨Nat.le_refl _, id⟩

theorem leaveRecursion_eats {n : Nat} : Eats n 0 leaveRecursion :=
  .update (fun _ => rfl) fun _ => id

/-- Attributes are no longer awaited. -/
theorem takeReadingAttributes_ends (de : Deserializer) :
    Ends (takeReadingAttributes de) fun b de' => Ran 0 de de' ∧ de'.Calm ∧
      (de.Calm → b = false) :=
  .ok ⟨⟨Nat.le_refl _, fun _ => rfl⟩, rfl, id⟩

variable [FloatText]

theorem nextToken_ends (de : Deserializer) : Ends (De.nextToken de) fun _ de' =>
    Ran 1 de de' ∧ de'.isReadingAttributes = de.isReadingAttributes := by
  have hnext : De.nextToken de =
      (Yson.nextToken de.lexer).map fun r => (r.1, de.withLexer r.2) := rfl
  rw [hnext]
  cases h : Yson.nextToken de.lexer with
  | error e => exact .error fun he => nextToken_ne_outOfFuel de.lexer (he ▸ h)
  | ok r => exact .ok ⟨⟨nextToken_shorter h, id⟩, rfl⟩

theorem nextToken_eats (n : Nat) : Eats n 1 De.nextToken :=
  fun de _ => (nextToken_ends de).imp fun _ _ h => h.1

/-! ## Attributes and terminators -/

theorem skipAttributesLoop_ends : ∀ {fuel : Nat} (attrDepth : Nat) {de : Deserializer},
    de.left < fuel → Ends (skipAttributesLoop fuel attrDepth de) fun _ => Ran 0 de
  | 0, _, _, h => absurd h (Nat.not_lt_zero _)
  | fuel + 1, attrDepth, de, h => by
    refine .ite (fun _ => .ok (.refl de)) fun _ => ?_
    refine (nextToken_ends de).bind fun t de₁ h₁ => ?_
    have hless := h₁.1.left
    have hrest : ∀ attrDepth : Nat,
        Ends (skipAttributesLoop fuel attrDepth de₁) fun _ => Ran 0 de := by
      intro attrDepth
      have hloop := skipAttributesLoop_ends attrDepth (show de₁.left < fuel by omega)
      exact hloop.imp fun _ _ h₂ => (h₁.1.trans h₂).mono (Nat.zero_le _)
    refine .ite (fun _ => ?_) fun _ => hrest _
    exact .error (nomatch ·)

theorem skipAttributes_eats {n : Nat} : Eats n 0 skipAttributes := by
  refine .bind peekByte_eats fun b => .ite ?_ (.pure _)
  refine .bind enterRecursion_eats fun _ => .bind (nextToken_eats n).less fun _ de hde => ?_
  show Ends ((skipAttributesLoop (de.left + 1) 1 >>= fun _ => leaveRecursion) de) _
  refine (skipAttributesLoop_ends 1 (Nat.lt_succ_self de.left)).bind fun _ de₁ h₁ => ?_
  refine (leaveRecursion_eats (n := n) de₁ (h₁.le hde)).imp fun _ _ h₂ => ?_
  exact h₁.trans h₂

theorem skipSeparator_eats {n : Nat} : Eats n 0 skipSeparator :=
  .bind peekByte_eats fun _ => .ite (.bind (nextToken_eats n).less fun _ => .pure _) (.pure _)

theorem takeTerminator_eats {n : Nat} (endByte : UInt8) : Eats n 0 (takeTerminator endByte) :=
  .bind peekByte_eats fun _ => .ite (.bind (nextToken_eats n).less fun _ => .pure _)
    fun _ _ => .error (nomatch ·)

theorem endContainer_eats {n : Nat} (endByte : UInt8) : Eats n 0 (endContainer endByte) :=
  .get fun _ => .ite (.pure _) (.bind skipSeparator_eats fun _ => takeTerminator_eats endByte)

theorem commaSeparatedAtEnd_eats {n : Nat} (endByte : UInt8) :
    Eats n 0 (commaSeparatedAtEnd endByte) := by
  have htoken := (nextToken_eats n).less
  refine .bind peekByte_eats fun b => .ite (.bind htoken fun _ => .pure _) (.ite ?_ (.pure _))
  refine .bind htoken fun _ => .bind peekByte_eats fun c => .ite ?_ (.pure _)
  exact .bind htoken fun _ => .pure _

theorem expectKeyValueSeparator_eats (n : Nat) : Eats n 1 expectKeyValueSeparator := by
  intro de hde
  refine (nextToken_eats n de hde).bind fun t de₁ h₁ => ?_
  exact .ite (fun _ => .error (nomatch ·)) fun _ => .ok h₁

/-! ## Sequences -/

theorem nextElement_same {n : Nat} {seed : De α} (h : Eats n 0 seed) (endByte : UInt8)
    (ended : Bool) {de : Deserializer} (hde : de.left ≤ n) :
    Ends (nextElement seed (.commaSeparated endByte ended) de) fun r de' =>
      Ran 0 de de' ∧ ∃ ended', r.2 = .commaSeparated endByte ended' := by
  refine (commaSeparatedAtEnd_eats endByte de hde).bind fun b de₁ h₁ => ?_
  refine .ite (fun _ => .ok ⟨h₁, _, rfl⟩) fun _ => ?_
  refine (h de₁ (h₁.le hde)).bind fun v de₂ h₂ => .ok ?_
  exact ⟨h₁.trans h₂, _, rfl⟩

/-- One element of a list: a value was read, or the list is over. -/
theorem nextElement_ends {n : Nat} {seed : De α} (h : Seed n seed) (endByte : UInt8) (ended : Bool)
    {de : Deserializer} (hde : de.left ≤ n) (hcalm : de.Calm) :
    Ends (nextElement seed (.commaSeparated endByte ended) de) fun r de' =>
      Ran 0 de de' ∧ (r.1.isSome = true →
        Ran 1 de de' ∧ ∃ ended', r.2 = .commaSeparated endByte ended') := by
  refine (commaSeparatedAtEnd_eats endByte de hde).bind fun b de₁ h₁ => ?_
  refine .ite (fun _ => .ok ⟨h₁, (nomatch ·)⟩) fun _ => ?_
  refine (h.calm de₁ (h₁.le hde) (h₁.calm hcalm)).bind fun v de₂ h₂ => ?_
  have hran := h₁.trans h₂
  rw [Nat.zero_add] at hran
  exact .ok ⟨hran.mono (Nat.zero_le 1), fun _ => ⟨hran, _, rfl⟩⟩

/-- **The loop over elements**: each turn reads a byte, so it is over within its budget. -/
theorem elements_ends {n : Nat} {element : De α} (h : Seed n element) (endByte : UInt8) :
    ∀ {fuel : Nat} (vs : List α) (ended : Bool) {de : Deserializer}, de.left < fuel →
      de.left ≤ n → de.Calm →
      Ends (elements element fuel vs (.commaSeparated endByte ended) de) fun _ => Ran 0 de
  | 0, _, _, _, hfuel, _, _ => absurd hfuel (Nat.not_lt_zero _)
  | fuel + 1, vs, ended, de, hfuel, hde, hcalm => by
    refine (nextElement_ends h endByte ended hde hcalm).bind fun r de₁ h₁ => ?_
    obtain ⟨v, seq⟩ := r
    cases v with
    | none => exact .ok h₁.1
    | some v =>
      obtain ⟨hran, ended', hseq⟩ := h₁.2 rfl
      cases hseq
      have hless := hran.left
      have hloop := elements_ends h endByte (vs ++ [v]) ended' (show de₁.left < fuel by omega)
        (hran.le hde) (hran.calm hcalm)
      exact hloop.imp fun _ _ h₂ => (hran.trans h₂).mono (Nat.zero_le _)

/-! ## Keys -/

/-- A seed for keys does not use a budget up, whatever it makes of a key. -/
structure KeyEnds (n : Nat) (seed : KeySeed κ) : Prop where
  deserialize : Eats n 0 seed.deserialize
  visitStr : ∀ s, seed.visitor.visitStr s ≠ .error .outOfFuel
  visitBytes : ∀ s, seed.visitor.visitBytes s ≠ .error .outOfFuel

variable {n : Nat} {seed : KeySeed κ} (hseed : KeyEnds n seed)

include hseed

theorem nextKeyBody_ends : ∀ {fuel : Nat} {de : Deserializer}, de.left < fuel → de.left ≤ n →
    Ends (nextKeyBody seed fuel de) (KeyRead False de)
  | 0, _, h, _ => absurd h (Nat.not_lt_zero _)
  | fuel + 1, de, hfuel, hde => by
    refine (peekByte_ends de).bind fun b de₁ h₁ => .ite (fun _ => ?_) fun _ => ?_
    · refine (nextToken_ends de₁).bind fun _ de₂ h₂ => .ok ?_
      exact .none (h₁.ran.trans h₂.1) _
    refine .ite (fun _ => ?_) fun _ => ?_
    · refine (nextToken_ends de₁).bind fun _ de₂ h₂ => ?_
      have hran := h₁.ran.trans h₂.1
      have hless := hran.left
      have hloop := nextKeyBody_ends (show de₂.left < fuel by omega) (hran.le hde)
      exact hloop.imp fun _ _ h₃ => .after hran h₃
    · refine (hseed.deserialize de₁ (h₁.ran.le hde)).bind fun key de₂ h₂ => .ok ?_
      exact .some (h₁.ran.trans h₂) key rfl

omit [FloatText] in
theorem nextKeyValueOnly_ends (de : Deserializer) :
    Ends (nextKeyValueOnly seed de) fun r de' =>
      KeyRead True de r de' ∧ r.1.isSome = true ∧ r.2 = .flatStruct .done true := by
  have hstr := hseed.visitStr (ascii "$value")
  unfold nextKeyValueOnly
  cases h : seed.visitor.visitStr (ascii "$value") with
  | error e =>
    refine .error fun he => hstr ?_
    rw [h, he]
  | ok key => exact .ok ⟨⟨.refl de, fun _ => .inr ⟨rfl, .inl trivial⟩⟩, rfl, rfl⟩

theorem nextKeyBetween_ends {de : Deserializer} (hde : de.left ≤ n) :
    Ends (nextKeyBetween seed de) (KeyRead True de) := by
  refine (peekByte_ends de).bind fun b de₁ h₁ => .ite (fun _ => ?_) fun _ => ?_
  · refine (nextToken_ends de₁).bind fun _ de₂ h₂ => ?_
    have hran := h₁.ran.trans h₂.1
    have hbody := nextKeyBody_ends hseed (Nat.lt_succ_self de₂.left) (hran.le hde)
    exact hbody.imp fun _ _ h₃ => (KeyRead.after hran h₃).weaken
  refine .ite (fun _ => ?_) fun _ => ?_
  · refine (nextToken_ends de₁).bind fun _ de₂ h₂ => .ok ?_
    exact .none (h₁.ran.trans h₂.1) _
  · exact (nextKeyValueOnly_ends hseed de₁).imp fun _ _ h₂ => .before h₁.ran h₂.1

theorem nextKeyAttributes_ends : ∀ {fuel : Nat} {de : Deserializer}, de.left < fuel → de.left ≤ n →
    Ends (nextKeyAttributes seed fuel de) (KeyRead False de)
  | 0, _, h, _ => absurd h (Nat.not_lt_zero _)
  | fuel + 1, de, hfuel, hde => by
    refine (peekByte_ends de).bind fun b de₁ h₁ => .ite (fun _ => ?_) fun _ => ?_
    · refine (nextToken_ends de₁).bind fun _ de₂ h₂ => ?_
      have hran := h₁.ran.trans h₂.1
      exact (nextKeyBetween_ends hseed (hran.le hde)).imp fun _ _ h₃ => .after hran h₃
    refine .ite (fun _ => ?_) fun _ => ?_
    · refine (nextToken_ends de₁).bind fun _ de₂ h₂ => ?_
      have hran := h₁.ran.trans h₂.1
      have hless := hran.left
      have hloop := nextKeyAttributes_ends (show de₂.left < fuel by omega) (hran.le hde)
      exact hloop.imp fun _ _ h₃ => .after hran h₃
    · refine (nextToken_ends de₁).bind fun t de₂ h₂ => ?_
      have hran := h₁.ran.trans h₂.1
      cases t with
      | string s =>
        have hbytes := hseed.visitBytes (0x40 :: s)
        dsimp only
        cases h : seed.visitor.visitBytes (0x40 :: s) with
        | error e =>
          refine .error fun he => hbytes ?_
          rw [h, he]
        | ok key => exact .ok (.some hran key rfl)
      | _ => exact .error (nomatch ·)

theorem nextKey_ends {map : MapAccess} {de : Deserializer} (hde : de.left ≤ n) :
    Ends (nextKey seed map de) fun r de' =>
      KeyRead map.AtValue de r de' ∧ (r.1.isSome = true → map.Live) ∧
      ∀ b, map = .flatStruct .valueOnly b → r.1.isSome = true ∧ r.2 = .flatStruct .done true := by
  have hlast := Nat.lt_succ_self de.left
  cases map with
  | flatStruct state b =>
    cases state with
    | attributes =>
      exact (nextKeyAttributes_ends hseed hlast hde).imp fun _ _ h =>
        ⟨h, fun _ => trivial, fun _ hne => nomatch hne⟩
    | between =>
      exact (nextKeyBetween_ends hseed hde).imp fun _ _ h =>
        ⟨h, fun _ => trivial, fun _ hne => nomatch hne⟩
    | body =>
      exact (nextKeyBody_ends hseed hlast hde).imp fun _ _ h =>
        ⟨h, fun _ => trivial, fun _ hne => nomatch hne⟩
    | valueOnly =>
      exact (nextKeyValueOnly_ends hseed de).imp fun _ _ h =>
        ⟨h.1, fun _ => trivial, fun _ _ => h.2⟩
    | done => exact .ok ⟨.none (.refl de) _, (nomatch ·), fun _ hne => nomatch hne⟩
  | commaSeparated endByte ended =>
    refine (commaSeparatedAtEnd_eats endByte de hde).bind fun b de₁ h₁ => ?_
    refine .ite (fun _ => .ok ?_) fun _ => ?_
    · exact ⟨.none h₁ _, fun _ => trivial, fun _ hne => nomatch hne⟩
    · refine (hseed.deserialize de₁ (h₁.le hde)).bind fun key de₂ h₂ => .ok ?_
      exact ⟨.some (h₁.trans h₂) key rfl, fun _ => trivial, fun _ hne => nomatch hne⟩
  | empty => exact .ok ⟨.none (.refl de) _, (nomatch ·), fun _ hne => nomatch hne⟩

omit hseed

theorem nextValue_opens {seed : De α} (h : Eats n 0 seed) {map : MapAccess}
    (hopens : map.opens = true) : Eats n 1 (nextValue seed map) := by
  have hboth : Eats n 1 (expectKeyValueSeparator >>= fun _ => seed) := by
    intro de hde
    refine (expectKeyValueSeparator_eats n de hde).bind fun _ de₁ h₁ => ?_
    exact (h de₁ (h₁.le hde)).imp fun _ _ h₂ => h₁.trans h₂
  unfold MapAccess.opens at hopens
  split at hopens
  case h_4 => cases hopens
  all_goals exact hboth

/-! ## Loops over entries -/

/-- The four loops over entries: keys until there are none, and a turn for each. -/
def mapLoop {σ : Type} (seed : KeySeed κ) (turn : σ → κ → MapAccess → De σ) :
    Nat → σ → MapAccess → De (σ × MapAccess)
  | 0, _, _ => throw .outOfFuel
  | fuel + 1, acc, map => do
    match ← nextKey seed map with
    | (some key, map) =>
      let acc ← turn acc key map
      mapLoop seed turn fuel acc map
    | (none, map) => pure (acc, map)

/-- A turn reads the value of its key. -/
structure TurnEnds {σ : Type} (n : Nat) (turn : σ → κ → MapAccess → De σ) : Prop where
  opens : ∀ acc key {map : MapAccess}, map.opens = true → Eats n 1 (turn acc key map)
  body : ∀ acc key, Seed n (turn acc key (.flatStruct .done true))

/-- **A loop over entries** is over within its budget. Offered the body alone it reads it. -/
theorem mapLoop_ends {σ : Type} {turn : σ → κ → MapAccess → De σ} (hseed : KeyEnds n seed)
    (hturn : TurnEnds n turn) : ∀ {fuel : Nat} (acc : σ) {map : MapAccess} {de : Deserializer},
      map.Enough fuel de.left → de.left ≤ n →
      Ends (mapLoop seed turn fuel acc map de) fun _ de' =>
        Ran 0 de de' ∧ ∀ b, map = .flatStruct .valueOnly b → de.Calm → Ran 1 de de'
  | 0, _, _, _, henough, _ => absurd henough.pos (Nat.not_lt_zero 0)
  | fuel + 1, acc, map, de, henough, hde => by
    refine (nextKey_ends hseed hde).bind fun r de₁ h₁ => ?_
    obtain ⟨hkey, hlive, hvalue⟩ := h₁
    obtain ⟨key, map'⟩ := r
    cases key with
    | none => exact .ok ⟨hkey.ran, fun b hb _ => nomatch (hvalue b hb).1⟩
    | some key =>
      have hleft := hkey.ran.left
      have hfuel := henough.lt (hlive rfl)
      rcases hkey.key rfl with hopens | ⟨hdone, hread⟩
      · refine (hturn.opens acc key hopens de₁ (hkey.ran.le hde)).bind fun acc' de₂ h₂ => ?_
        have hran := hkey.ran.trans h₂
        have hless := hran.left
        have hnext := MapAccess.enough_of_opens hopens (show de₂.left < fuel by omega)
        refine (mapLoop_ends hseed hturn acc' hnext (hran.le hde)).imp fun _ _ h₃ => ?_
        refine ⟨(hran.trans h₃.1).mono (Nat.zero_le _), fun b hb => ?_⟩
        obtain rfl := (hvalue b hb).2
        cases hopens
      · -- the body: the turn behind it finds nothing more
        obtain rfl : map' = .flatStruct .done true := hdone
        refine ((hturn.body acc key).ends (hkey.ran.le hde)).bind fun acc' de₂ h₂ => ?_
        have hnext : (MapAccess.flatStruct .done true).Enough fuel de₂.left := by
          show 1 ≤ fuel
          rcases hread with hat | hran
          · have htwo := henough.two hat
            omega
          · have hless := hran.left
            omega
        have hran := hkey.ran.trans h₂.1
        refine (mapLoop_ends hseed hturn acc' hnext (hran.le hde)).imp fun _ _ h₃ => ?_
        refine ⟨hran.trans h₃.1, fun b hb hcalm => ?_⟩
        have hbody := hkey.ran.trans (h₂.2 (hkey.ran.calm hcalm))
        exact (hbody.trans h₃.1).mono (Nat.le_refl _)

/-! ## Visitors -/

/-- A visitor that has its answer to a scalar at once. -/
structure Answers (visitor : Visitor α) : Prop where
  unit : visitor.visitUnit ≠ .error .outOfFuel
  bool : ∀ v, visitor.visitBool v ≠ .error .outOfFuel
  i64 : ∀ v, visitor.visitI64 v ≠ .error .outOfFuel
  u64 : ∀ v, visitor.visitU64 v ≠ .error .outOfFuel
  f64 : ∀ v, visitor.visitF64 v ≠ .error .outOfFuel
  str : ∀ v, visitor.visitStr v ≠ .error .outOfFuel
  bytes : ∀ v, visitor.visitBytes v ≠ .error .outOfFuel

/-- A visitor that uses no budget up: with at most `n` bytes left it reads a container to some
end. -/
structure VisitorEnds (n : Nat) (visitor : Visitor α) : Prop extends Answers visitor where
  seq : ∀ endByte (de : Deserializer), de.left ≤ n → de.Calm →
    Ends (visitor.visitSeq (.commaSeparated endByte false) de) fun _ => Ran 0 de
  map : ∀ (access : MapAccess) (de : Deserializer), access.Enough (de.left + 1) de.left →
    de.left ≤ n → Ends (visitor.visitMap access de) fun _ de' =>
      Ran 0 de de' ∧ ∀ b, access = .flatStruct .valueOnly b → de.Calm → Ran 1 de de'
  empty : ∀ de, Ends (visitor.visitMap .empty de) fun _ => Ran 0 de

variable {visitor : Visitor α} {k : Nat} {de : Deserializer}

omit [FloatText] in
theorem nested_ends {visit : De α}
    (h : Ends (visit { de with depth := de.depth + 1 }) fun _ =>
      Ran k { de with depth := de.depth + 1 }) :
    Ends (nested visit de) fun _ => Ran k de := by
  have henter : Ends (enterRecursion de) fun _ de' => de' = { de with depth := de.depth + 1 } := by
    unfold enterRecursion
    split
    · exact .error (nomatch ·)
    · exact .ok rfl
  refine henter.bind fun _ de₁ h₁ => ?_
  subst h₁
  refine h.bind fun v de₂ h₂ => ?_
  exact .ok ⟨h₂.left, h₂.calm⟩

omit [FloatText] in
theorem visitCommaSeparated_ends {visit : De (α × β)} (ended : β → Bool)
    (h : Ends (visit { de with depth := de.depth + 1 }) fun _ =>
      Ran 0 { de with depth := de.depth + 1 }) :
    Ends (visitCommaSeparated visit ended de) fun _ => Ran 0 de := by
  refine nested_ends (h.bind fun r de₁ h₁ => ?_)
  exact .ok ⟨h₁.left, h₁.calm⟩

/-- What the start of a flat struct reads: something, unless the body stands there alone. -/
def Started (de : Deserializer) (state : FlatState) (de' : Deserializer) : Prop :=
  (Ran 1 de de' ∧ ¬ (MapAccess.flatStruct state false).AtValue) ∨
  (state = .valueOnly ∧ Ran 0 de de' ∧ 1 ≤ de'.left ∧ NotNext 0x3C de)

theorem flatStructStart_ends (de : Deserializer) : Ends (flatStructStart de) (Started de) := by
  refine (peekByte_ends de).bind fun b de₁ h₁ => ?_
  have htoken : ∀ state : FlatState, ¬ (MapAccess.flatStruct state false).AtValue →
      Ends ((De.nextToken >>= fun _ => pure state) de₁) (Started de) := by
    intro state hstate
    refine (nextToken_ends de₁).bind fun _ de₂ h₂ => .ok (.inl ⟨?_, hstate⟩)
    have hran := h₁.ran.trans h₂.1
    rwa [Nat.zero_add] at hran
  refine .ite (fun _ => htoken _ id) fun hne => ?_
  refine .ite (fun _ => htoken _ id) fun _ => .ite (fun _ => htoken _ id) fun _ => ?_
  exact .ok (.inr ⟨rfl, h₁.ran, h₁.left, h₁.notNext hne⟩)

omit [FloatText] in
theorem enough_start (state : FlatState) (left : Nat)
    (h : (MapAccess.flatStruct state false).AtValue → 1 ≤ left) :
    (MapAccess.flatStruct state false).Enough (left + 1) left := by
  cases state with
  | attributes => exact Nat.lt_succ_self left
  | body => exact Nat.lt_succ_self left
  | done => exact Nat.le_add_left 1 left
  | between => exact ⟨Nat.lt_succ_self left, Nat.succ_le_succ (h trivial)⟩
  | valueOnly => exact ⟨Nat.lt_succ_self left, Nat.succ_le_succ (h trivial)⟩

/-- A flat struct where nothing is known of what comes. -/
theorem visitFlatStruct_seed (h : VisitorEnds n visitor) : Seed n (visitFlatStruct visitor) := by
  have hboth : ∀ de : Deserializer, de.left ≤ n →
      Ends ((flatStructStart >>= fun state =>
        visitor.visitMap (.flatStruct state false) >>= fun r => pure r.1) de)
        fun _ de' => Ran 0 de de' ∧ (de.Calm → Ran 1 de de') := by
    intro de hde
    refine (flatStructStart_ends de).bind fun state de₁ h₁ => ?_
    rcases h₁ with ⟨hran, hstate⟩ | ⟨rfl, hran, hleft, _⟩
    · have henough := enough_start state de₁.left fun hat => absurd hat hstate
      refine (h.map _ _ henough (hran.le hde)).bind fun r de₂ h₂ => .ok ?_
      have hall := hran.trans h₂.1
      exact ⟨hall.mono (Nat.zero_le _), fun _ => hall⟩
    · have henough := enough_start .valueOnly de₁.left fun _ => hleft
      refine (h.map _ _ henough (hran.le hde)).bind fun r de₂ h₂ => .ok ?_
      refine ⟨hran.trans h₂.1, fun hcalm => ?_⟩
      have hall := hran.trans (h₂.2 false rfl (hran.calm hcalm))
      rwa [Nat.zero_add] at hall
  constructor
  · intro de hde
    exact nested_ends ((hboth { de with depth := de.depth + 1 } hde).imp fun _ _ h => h.1)
  · intro de hde hcalm
    exact nested_ends ((hboth { de with depth := de.depth + 1 } hde).imp fun _ _ h => h.2 hcalm)

/-- A flat struct behind a look at its `<`, which is a byte more than the visitor is given. -/
theorem visitFlatStruct_attributes (h : VisitorEnds n visitor) (hde : de.left ≤ n + 1)
    (hnext : ∃ it, Yson.peekByte de.lexer = .ok (0x3C, it)) :
    Ends (visitFlatStruct visitor de) fun _ => Ran 1 de := by
  refine nested_ends ?_
  refine (flatStructStart_ends { de with depth := de.depth + 1 }).bind fun state de₁ h₁ => ?_
  rcases h₁ with ⟨hran, hstate⟩ | ⟨_, _, _, hnot⟩
  · have hless : de₁.left + 1 ≤ de.left := hran.left
    have henough := enough_start state de₁.left fun hat => absurd hat hstate
    refine (h.map _ _ henough (show de₁.left ≤ n by omega)).bind fun r de₂ h₂ => .ok ?_
    exact hran.trans h₂.1
  · obtain ⟨it, hit⟩ := hnext
    exact absurd hit (hnot it)

omit [FloatText] in
theorem visitCommaSeparatedMap_ends (h : VisitorEnds n visitor) (endByte : UInt8)
    (hde : de.left ≤ n) : Ends (visitCommaSeparatedMap visitor endByte de) fun _ => Ran 0 de := by
  refine visitCommaSeparated_ends _ ?_
  have hmap := h.map (.commaSeparated endByte false) { de with depth := de.depth + 1 }
    (Nat.lt_succ_self _) hde
  exact hmap.imp fun _ _ hran => hran.1

omit [FloatText] in
theorem visitCommaSeparatedSeq_ends (h : VisitorEnds n visitor) (endByte : UInt8)
    (hde : de.left ≤ n) (hcalm : de.Calm) :
    Ends (visitCommaSeparatedSeq visitor endByte de) fun _ => Ran 0 de :=
  visitCommaSeparated_ends _ (h.seq endByte { de with depth := de.depth + 1 } hde hcalm)

theorem visitToken_ends (h : VisitorEnds n visitor) (t : Token) (hde : de.left ≤ n)
    (hcalm : de.Calm) : Ends (visitToken visitor t de) fun _ => Ran 0 de := by
  have hclose : ∀ {visit : De α} (endByte : UInt8), (Ends (visit de) fun _ => Ran 0 de) →
      Ends ((visit >>= fun value => endContainer endByte >>= fun _ => pure value) de)
        fun _ => Ran 0 de := by
    intro visit endByte hvisit
    refine hvisit.bind fun value de₁ h₁ => ?_
    refine (endContainer_eats endByte de₁ (h₁.le hde)).bind fun _ de₂ h₂ => ?_
    exact .ok (h₁.trans h₂)
  cases t with
  | entity => exact Eats.ofExcept h.unit de hde
  | boolean b => exact Eats.ofExcept (h.bool b) de hde
  | int64 i => exact Eats.ofExcept (h.i64 i) de hde
  | uint64 u => exact Eats.ofExcept (h.u64 u) de hde
  | double d => exact Eats.ofExcept (h.f64 d) de hde
  | string s =>
    refine Eats.ofExcept ?_ de hde
    unfold visitString
    split
    · exact h.str s
    · exact h.bytes s
  | beginList => exact hclose _ (visitCommaSeparatedSeq_ends h _ hde hcalm)
  | beginMap => exact hclose _ (visitCommaSeparatedMap_ends h _ hde)
  | beginAttributes => exact hclose _ (visitCommaSeparatedMap_ends h _ hde)
  | _ => exact .error (nomatch ·)

/-! ## `deserialize_*` -/

theorem deserializeAttributes_ends (h : VisitorEnds n visitor) (hde : de.left ≤ n + 1) :
    Ends (deserializeAttributes visitor de) fun _ => Ran 0 de := by
  refine (peekByte_ends de).bind fun b de₁ h₁ => .ite (fun _ => ?_) fun _ => ?_
  · refine (h.empty de₁).bind fun r de₂ h₂ => .ok ?_
    exact h₁.ran.trans h₂
  · refine (nextToken_ends de₁).bind fun t de₂ h₂ => ?_
    have hran := h₁.ran.trans h₂.1
    have hless := hran.left
    have hmap := visitCommaSeparatedMap_ends h 0x3E (show de₂.left ≤ n by omega)
    exact hmap.imp fun _ _ h₃ => (hran.trans h₃).mono (Nat.zero_le _)

/-- **`deserialize_any`**: a token is read before the visitor is asked, so the visitor need only
be good for one byte less. -/
theorem deserializeAny_seed (h : VisitorEnds n visitor) :
    Seed (n + 1) (deserializeAny visitor) := by
  refine .of_ends fun de hde => ?_
  refine (takeReadingAttributes_ends de).bind fun b de₁ h₁ => ?_
  obtain ⟨hran, hcalm, hb⟩ := h₁
  refine .ite (fun htrue => ?_) fun _ => ?_
  · refine (deserializeAttributes_ends h (hran.le hde)).imp fun _ _ h₂ => ?_
    refine ⟨hran.trans h₂, fun hbefore => ?_⟩
    rw [hb hbefore] at htrue
    cases htrue
  have hall : ∀ {m : De α}, (Ends (m de₁) fun _ => Ran 1 de₁) →
      Ends (m de₁) fun _ de' => Ran 0 de de' ∧ (de.Calm → Ran 1 de de') := by
    intro m hm
    refine hm.imp fun _ _ h₂ => ?_
    have htrans := hran.trans h₂
    rw [Nat.zero_add] at htrans
    exact ⟨htrans.mono (Nat.zero_le 1), fun _ => htrans⟩
  refine hall ((peekByte_ends de₁).bind fun c de₂ h₂ => ?_)
  have hle := h₂.ran.le (hran.le hde)
  have hcalm₂ := h₂.ran.calm hcalm
  refine .ite (fun hc => ?_) fun _ => ?_
  · refine (visitFlatStruct_attributes h hle (hc ▸ h₂.again)).imp fun _ _ h₃ => ?_
    have htrans := h₂.ran.trans h₃
    rwa [Nat.zero_add] at htrans
  · refine (nextToken_ends de₂).bind fun t de₃ h₃ => ?_
    have htrans := h₂.ran.trans h₃.1
    have hless := h₃.1.left
    have htoken := visitToken_ends h t (show de₃.left ≤ n by omega) (h₃.1.calm hcalm₂)
    exact htoken.imp fun _ _ h₄ => (htrans.trans h₄).mono (Nat.le_refl 1)

/-- With no bytes left there is nothing to ask the visitor about. -/
theorem deserializeAny_zero (visitor : Visitor α) : Seed 0 (deserializeAny visitor) := by
  refine .of_ends fun de hde => ?_
  refine (takeReadingAttributes_ends de).bind fun b de₁ h₁ => ?_
  have hnone : ∀ {f : UInt8 → De α} {Q : α → Deserializer → Prop},
      Ends ((De.peekByte >>= f) de₁) Q := by
    intro f Q
    refine (peekByte_ends de₁).bind fun c de₂ h₂ => ?_
    have hle := h₂.ran.le (h₁.1.le hde)
    exact absurd h₂.left (Nat.not_le_of_lt (Nat.lt_succ_of_le hle))
  exact .ite (fun _ => hnone) fun _ => hnone

/-- Attributes are passed over where none are awaited. -/
theorem skipping_seed (h : Seed n (deserializeAny visitor)) :
    Seed n (deserializeSkipping visitor) :=
  .get fun _ => .ite (.before skipAttributes_eats fun _ => h) h

theorem deserializeSkipping_seed (h : VisitorEnds n visitor) :
    Seed (n + 1) (deserializeSkipping visitor) := skipping_seed (deserializeAny_seed h)

end De

end Ytsaurus.Yson
