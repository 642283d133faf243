import Ytsaurus.Proof.Built
import Ytsaurus.Proof.Ends

/-!
# `Proof/TypedEnds.lean` — every type is read within its budgets

The visitors of the types, each as good for a number of bytes as the deserializers of its parts
are, and the types themselves, which are good for any number. Values nest as deep as the input
is long, so their deserializer is good for as many bytes as its budget has levels.

Types are finite and known in advance, so the induction for them is on the type, and only the
dynamic value, which any type may contain, recurses on the input. A struct is read in three
ways, from a list, from a map and from an attribute block with its body, and each is a loop
of its own; what they share is that the seed of a field is chosen by name or by place and is
among those the hypothesis is about.

Together with `Proof/Scan.lean` and `Proof/ScanStable.lean` for the scanner this closes the
question of budgets: whatever bytes are read as whatever type, the model gives the outcome of the
code.
-/

set_option autoImplicit false

namespace Ytsaurus.Yson

variable {α β κ : Type} {n : Nat}

/-- A token in front, behind which nothing need be read. -/
theorem Seed.token [FloatText] {f : Token → De α} (hf : ∀ t, Eats n 0 (f t)) :
    Seed n (De.nextToken >>= f) := by
  refine .of_ends fun de hde => ?_
  refine (De.nextToken_ends de).bind fun t de₁ h₁ => ?_
  refine (hf t de₁ (h₁.1.le hde)).imp fun _ _ h₂ => ?_
  have htrans := h₁.1.trans h₂
  exact ⟨htrans.mono (Nat.zero_le _), fun _ => htrans⟩

namespace De

/-! ## Answers to scalars -/

theorem answers_scalar {visitor : Visitor α} (h : Answers visitor)
    (hseq : visitor.visitSeq = fun _ => throw (.custom (.invalidType .seq)))
    (hmap : visitor.visitMap = fun _ => throw (.custom (.invalidType .map))) :
    VisitorEnds n visitor where
  toAnswers := h
  seq endByte de _ _ := by
    rw [hseq]
    exact .error (nomatch ·)
  map access de _ _ := by
    rw [hmap]
    exact .error (nomatch ·)
  empty de := by
    rw [hmap]
    exact .error (nomatch ·)

theorem unitVisitor_answers : Answers unitVisitor := by
  constructor <;> intros <;> exact (nomatch ·)

theorem boolVisitor_answers : Answers boolVisitor := by
  constructor <;> intros <;> exact (nomatch ·)

theorem intType_visit (k : IntType) (found : Unexpected) (v : Int) :
    k.visit found v ≠ .error .outOfFuel := by
  unfold IntType.visit
  split <;> exact (nomatch ·)

theorem intVisitor_answers (k : IntType) : Answers (intVisitor k) where
  unit := (nomatch ·)
  bool _ := (nomatch ·)
  i64 _ := intType_visit k _ _
  u64 _ := intType_visit k _ _
  f64 _ := (nomatch ·)
  str _ := (nomatch ·)
  bytes _ := (nomatch ·)

theorem f64Visitor_answers [FloatCasts] : Answers f64Visitor := by
  constructor <;> intros <;> exact (nomatch ·)

theorem f32Visitor_answers [FloatCasts] : Answers f32Visitor := by
  constructor <;> intros <;> exact (nomatch ·)

theorem charVisitor_answers : Answers charVisitor where
  unit := (nomatch ·)
  bool _ := (nomatch ·)
  i64 _ := (nomatch ·)
  u64 _ := (nomatch ·)
  f64 _ := (nomatch ·)
  str s := by
    unfold charVisitor
    dsimp only
    split <;> exact (nomatch ·)
  bytes _ := (nomatch ·)

theorem stringVisitor_answers : Answers stringVisitor where
  unit := (nomatch ·)
  bool _ := (nomatch ·)
  i64 _ := (nomatch ·)
  u64 _ := (nomatch ·)
  f64 _ := (nomatch ·)
  str _ := (nomatch ·)
  bytes s := by
    unfold stringVisitor
    dsimp only
    split <;> exact (nomatch ·)

theorem fieldVisitor_answers (names : List (List UInt8)) : Answers (fieldVisitor names) := by
  constructor <;> intros <;> exact (nomatch ·)

theorem variantVisitor_answers (names : List (List UInt8)) : Answers (variantVisitor names) where
  unit := (nomatch ·)
  bool _ := (nomatch ·)
  i64 _ := (nomatch ·)
  u64 v := by
    unfold variantVisitor
    dsimp only
    split <;> exact (nomatch ·)
  f64 _ := (nomatch ·)
  str s := by
    unfold variantVisitor
    dsimp only
    cases names.findIdx? (· == s) <;> exact (nomatch ·)
  bytes s := by
    unfold variantVisitor
    dsimp only
    cases names.findIdx? (· == s) <;> exact (nomatch ·)

theorem ignoredScalar_answers : Answers ignoredScalar := by
  constructor <;> intros <;> exact (nomatch ·)

theorem mapKeyVisitor_answers : Answers mapKeyVisitor := by
  constructor <;> intros <;> exact (nomatch ·)

variable [FloatText]

/-- A visitor of scalars, behind its attributes. -/
theorem scalar_seed {visitor : Visitor α} (h : Answers visitor)
    (hseq : visitor.visitSeq = fun _ => throw (.custom (.invalidType .seq)))
    (hmap : visitor.visitMap = fun _ => throw (.custom (.invalidType .map))) :
    Seed n (deserializeSkipping visitor) :=
  (deserializeSkipping_seed (answers_scalar h hseq hmap)).mono

/-! ## Sequences -/

/-- A loop over elements with the budget it takes for itself. -/
theorem elements_budget {element : De α} (h : Seed n element) {f : List α × SeqAccess → De β}
    (hf : ∀ r, Eats n 0 (f r)) (endByte : UInt8) {de : Deserializer} (hde : de.left ≤ n)
    (hcalm : de.Calm) :
    Ends ((budget >>= fun fuel =>
      elements element fuel [] (.commaSeparated endByte false) >>= f) de) fun _ => Ran 0 de := by
  show Ends ((elements element (de.left + 1) [] (.commaSeparated endByte false) >>= f) de) _
  have hloop := elements_ends h endByte [] false (Nat.lt_succ_self de.left) hde hcalm
  refine hloop.bind fun r de₁ h₁ => ?_
  exact (hf r de₁ (h₁.le hde)).imp fun _ _ h₂ => h₁.trans h₂

theorem vecVisitor_ends {element : De Datum} (h : Seed n element) :
    VisitorEnds n (vecVisitor element) where
  toAnswers := by constructor <;> intros <;> exact (nomatch ·)
  seq endByte de hde hcalm := elements_budget h (fun _ => .pure _) endByte hde hcalm
  map _ _ _ _ := .error (nomatch ·)
  empty _ := .error (nomatch ·)

theorem u8_seed : Seed n u8 := by
  refine (scalar_seed (intVisitor_answers .u8) rfl rfl).map fun v => ?_
  cases v with
  | int v => exact .pure _
  | _ => exact .custom _

theorem byteBufVisitor_ends : VisitorEnds n byteBufVisitor where
  toAnswers := by constructor <;> intros <;> exact (nomatch ·)
  seq endByte de hde hcalm := elements_budget u8_seed (fun _ => .pure _) endByte hde hcalm
  map _ _ _ _ := .error (nomatch ·)
  empty _ := .error (nomatch ·)

omit [FloatText] in
theorem orDefault_eats (part : Part) (i : Nat) (v : Option Datum) :
    Eats n 0 (part.orDefault i v) := by
  unfold Part.orDefault
  split
  · exact .pure _
  · exact .pure _
  · exact .custom _

/-- Parts one after the other: as many turns as parts, whatever they read. -/
theorem positional_eats : ∀ {parts : List Part}, (∀ part ∈ parts, Eats n 0 part.1) →
    ∀ (i : Nat) (endByte : UInt8) (ended : Bool),
      Eats n 0 (positional parts i (.commaSeparated endByte ended))
  | [], _, _, _, _ => .pure _
  | part :: parts, h, i, endByte, ended => by
    intro de hde
    refine (nextElement_same (h part List.mem_cons_self) endByte ended hde).bind fun r de₁ h₁ => ?_
    obtain ⟨v, seq⟩ := r
    obtain ⟨hran, ended', hseq⟩ := h₁
    cases hseq
    have hrest := positional_eats (fun p hp => h p (List.mem_cons_of_mem _ hp)) (i + 1) endByte
      ended'
    have hall : Eats n 0 (part.orDefault i v >>= fun v =>
        positional parts (i + 1) (.commaSeparated endByte ended') >>= fun r =>
          pure (v :: r.1, r.2)) :=
      .bind (orDefault_eats part i v) fun _ => .bind hrest fun _ => .pure _
    exact (hall de₁ (hran.le hde)).imp fun _ _ h₂ => hran.trans h₂

theorem tupleVisitor_ends {parts : List (De Datum)} (h : ∀ part ∈ parts, Eats n 0 part) :
    VisitorEnds n (tupleVisitor parts) where
  toAnswers := by constructor <;> intros <;> exact (nomatch ·)
  seq endByte de hde _ := by
    refine Eats.bind (positional_eats ?_ 0 endByte false) (fun _ => .pure _) de hde
    intro part hpart
    obtain ⟨m, hm, rfl⟩ := List.mem_map.mp hpart
    exact h m hm
  map _ _ _ _ := .error (nomatch ·)
  empty _ := .error (nomatch ·)

theorem newtypeVisitor_ends {inner : De Datum} (h : Eats n 0 inner) :
    VisitorEnds n (newtypeVisitor inner) where
  toAnswers := by constructor <;> intros <;> exact (nomatch ·)
  seq endByte de hde _ := by
    refine (nextElement_same h endByte false hde).bind fun r de₁ h₁ => ?_
    have hlast : Eats n 0 ((required inner).orDefault 0 r.1 >>= fun v => pure (v, r.2)) :=
      .bind (orDefault_eats _ _ _) fun _ => .pure _
    exact (hlast de₁ (h₁.1.le hde)).imp fun _ _ h₂ => h₁.1.trans h₂
  map _ _ _ _ := .error (nomatch ·)
  empty _ := .error (nomatch ·)

/-! ## Maps -/

theorem stringKey_ends : KeyEnds n stringKey where
  deserialize := (scalar_seed stringVisitor_answers rfl rfl).any
  visitStr := stringVisitor_answers.str
  visitBytes := stringVisitor_answers.bytes

/-- A loop over entries with the budget it takes for itself. -/
theorem mapLoop_budget {σ : Type} {seed : KeySeed κ} {turn : σ → κ → MapAccess → De σ}
    (hseed : KeyEnds n seed) (hturn : TurnEnds n turn) {f : σ × MapAccess → De β}
    (hf : ∀ r, Eats n 0 (f r)) (acc : σ) {access : MapAccess} {de : Deserializer}
    (henough : access.Enough (de.left + 1) de.left) (hde : de.left ≤ n) :
    Ends ((budget >>= fun fuel => mapLoop seed turn fuel acc access >>= f) de) fun _ de' =>
      Ran 0 de de' ∧ ∀ b, access = .flatStruct .valueOnly b → de.Calm → Ran 1 de de' := by
  show Ends ((mapLoop seed turn (de.left + 1) acc access >>= f) de) _
  refine (mapLoop_ends hseed hturn acc henough hde).bind fun r de₁ h₁ => ?_
  refine (hf r de₁ (h₁.1.le hde)).imp fun _ _ h₂ => ?_
  exact ⟨h₁.1.trans h₂, fun b hb hcalm => (h₁.2 b hb hcalm).trans h₂⟩

/-- There is nothing to read in no block. -/
theorem mapLoop_empty {σ : Type} {seed : KeySeed κ} {turn : σ → κ → MapAccess → De σ}
    {f : σ × MapAccess → De β} (hf : ∀ n r, Eats n 0 (f r)) (acc : σ) (de : Deserializer) :
    Ends ((budget >>= fun fuel => mapLoop seed turn fuel acc .empty >>= f) de) fun _ => Ran 0 de :=
  hf de.left (acc, .empty) de (Nat.le_refl _)

/-- A turn that reads the value and goes on. -/
theorem turn_ends {σ : Type} {seed : De α} (h : Seed n seed) (f : σ → κ → α → De σ)
    (hf : ∀ acc key v, Eats n 0 (f acc key v)) :
    TurnEnds n fun acc key map => nextValue seed map >>= f acc key where
  opens acc key map hopens := by
    intro de hde
    refine (nextValue_opens h.any hopens de hde).bind fun v de₁ h₁ => ?_
    exact (hf acc key v de₁ (h₁.le hde)).imp fun _ _ h₂ => h₁.trans h₂
  body acc key := h.map (hf acc key)

/-- Two programs that go on the same way behind the same key. -/
theorem nextKey_congr {seed : KeySeed κ} {map : MapAccess} {f g : Option κ × MapAccess → De β}
    (hnone : ∀ map, f (none, map) = g (none, map))
    (hsome : ∀ key map, f (some key, map) = g (some key, map)) :
    nextKey seed map >>= f = nextKey seed map >>= g := by
  refine congrArg _ (funext fun r => ?_)
  obtain ⟨key, map'⟩ := r
  cases key with
  | none => exact hnone map'
  | some key => exact hsome key map'

/-- The turn of `BTreeMap`: the value is inserted under its key. -/
def insertTurn (value : De Datum) (es : List (List UInt8 × Datum)) (key : List UInt8)
    (map : MapAccess) : De (List (List UInt8 × Datum)) :=
  nextValue value map >>= fun v => pure (SortedMap.insert key v es)

theorem entries_eq (value : De Datum) : ∀ (fuel : Nat) (es : List (List UInt8 × Datum))
    (map : MapAccess), entries value fuel es map = mapLoop stringKey (insertTurn value) fuel es map
  | 0, _, _ => rfl
  | fuel + 1, es, map => by
    rw [entries, mapLoop]
    refine nextKey_congr (fun _ => rfl) fun key map' => ?_
    show nextValue value map' >>= (fun v => entries value fuel (SortedMap.insert key v es) map') =
      insertTurn value es key map' >>= fun es => mapLoop stringKey (insertTurn value) fuel es map'
    unfold insertTurn
    rw [bind_assoc]
    refine congrArg _ (funext fun v => ?_)
    rw [pure_bind]
    exact entries_eq value fuel _ map'

theorem mapVisitor_ends {value : De Datum} (h : Seed n value) :
    VisitorEnds n (mapVisitor value) where
  toAnswers := by constructor <;> intros <;> exact (nomatch ·)
  seq _ _ _ _ := .error (nomatch ·)
  map access de henough hde := by
    have hturn : TurnEnds n (insertTurn value) := turn_ends h _ fun _ _ _ => .pure _
    unfold mapVisitor
    simp only [entries_eq]
    exact mapLoop_budget stringKey_ends hturn (fun _ => .pure _) [] henough hde
  empty de := by
    unfold mapVisitor
    simp only [entries_eq]
    exact mapLoop_empty (fun _ _ => .pure _) [] de

/-! ## `IgnoredAny` -/

/-- The turn of `IgnoredAny`. -/
def ignoreTurn (element : De Unit) (acc : Unit) (_ : Unit) (map : MapAccess) : De Unit :=
  nextValue element map >>= fun _ => pure acc

theorem ignoredEntries_eq (element : De Unit) (key : KeySeed Unit) :
    ∀ (fuel : Nat) (map : MapAccess), ignoredEntries element key fuel map =
      mapLoop key (ignoreTurn element) fuel () map >>= fun r => pure r.2
  | 0, _ => rfl
  | fuel + 1, map => by
    rw [ignoredEntries, mapLoop, bind_assoc]
    refine nextKey_congr (fun _ => rfl) fun _ map' => ?_
    show nextValue element map' >>= (fun _ => ignoredEntries element key fuel map') =
      (ignoreTurn element () () map' >>= fun acc =>
        mapLoop key (ignoreTurn element) fuel acc map') >>= fun r => pure r.2
    unfold ignoreTurn
    rw [bind_assoc, bind_assoc]
    refine congrArg _ (funext fun v => ?_)
    rw [pure_bind]
    exact ignoredEntries_eq element key fuel map'

theorem ignoredVisitor_ends {element : De Unit} (h : Seed n element) :
    VisitorEnds n (ignoredVisitor element) where
  toAnswers := by constructor <;> intros <;> exact (nomatch ·)
  seq endByte de hde hcalm := elements_budget h (fun _ => .pure _) endByte hde hcalm
  map access de henough hde := by
    have hkey : KeyEnds n (ignoredKey element ignoredScalar) :=
      ⟨h.any, ignoredScalar_answers.str, ignoredScalar_answers.bytes⟩
    have hturn : TurnEnds n (ignoreTurn element) := turn_ends h _ fun _ _ _ => .pure _
    unfold ignoredVisitor
    simp only [ignoredEntries_eq, bind_assoc, pure_bind]
    exact mapLoop_budget hkey hturn (fun _ => .pure _) () henough hde
  empty de := by
    unfold ignoredVisitor
    simp only [ignoredEntries_eq, bind_assoc, pure_bind]
    exact mapLoop_empty (fun _ _ => .pure _) () de

/-- What is skipped nests no deeper than there are bytes. -/
theorem ignoredAny_seed : ∀ {fuel n : Nat}, n < fuel → Seed n (ignoredAny fuel)
  | 0, _, h => absurd h (Nat.not_lt_zero _)
  | _ + 1, 0, _ => skipping_seed (deserializeAny_zero _)
  | _ + 1, _ + 1, h =>
    deserializeSkipping_seed (ignoredVisitor_ends (ignoredAny_seed (Nat.lt_of_succ_lt_succ h)))

theorem ignored_seed : Seed n ignored :=
  .of_ends fun de _ => (ignoredAny_seed (Nat.lt_succ_self de.left)).ends (Nat.le_refl _)

/-! ## Structs -/

theorem fieldKey_ends (names : List (List UInt8)) : KeyEnds n (fieldKey names) where
  deserialize := (scalar_seed (fieldVisitor_answers names) rfl rfl).any
  visitStr := (fieldVisitor_answers names).str
  visitBytes := (fieldVisitor_answers names).bytes

theorem fieldEntries_eq (fields : List FieldDe) : ∀ (fuel : Nat) (slots : List (Option Datum))
    (map : MapAccess), fieldEntries fields fuel slots map =
      mapLoop (fieldKey (fields.map FieldDe.name))
        (fun slots key map => fieldEntry fields slots map key) fuel slots map
  | 0, _, _ => rfl
  | fuel + 1, slots, map => by
    rw [fieldEntries, mapLoop]
    refine nextKey_congr (fun _ => rfl) fun key map' => ?_
    show fieldEntry fields slots map' key >>= (fun slots => fieldEntries fields fuel slots map') =
      fieldEntry fields slots map' key >>= fun slots => mapLoop _ _ fuel slots map'
    refine congrArg _ (funext fun slots' => ?_)
    exact fieldEntries_eq fields fuel slots' map'

/-- The turn of a field that is there: the value is put in its slot. -/
theorem fieldEntry_some {fields : List FieldDe} {i : Nat} {field : FieldDe}
    (hi : fields[i]? = some field) (slots : List (Option Datum)) (map : MapAccess) :
    fieldEntry fields slots map (some i) =
      if (slots.getD i none).isSome then throw (.custom (.duplicateField field.name))
      else nextValue field.value map >>= fun v => pure (slots.set i (some v)) := by
  unfold fieldEntry
  dsimp only
  rw [hi]
  dsimp only
  split
  · rfl
  · rfl

theorem fieldEntry_ends {fields : List FieldDe} (h : ∀ field ∈ fields, Seed n field.value) :
    TurnEnds n fun slots key map => fieldEntry fields slots map key := by
  have hignored : TurnEnds n fun (slots : List (Option Datum)) (_ : Unit) map =>
      nextValue ignored map >>= fun _ => pure slots := turn_ends ignored_seed _ fun _ _ _ => .pure _
  have hfield : ∀ field ∈ fields, TurnEnds n fun (slots : List (Option Datum)) (i : Nat) map =>
      nextValue field.value map >>= fun v => pure (slots.set i (some v)) :=
    fun field hmem => turn_ends (h field hmem) _ fun _ _ _ => .pure _
  constructor
  · intro slots key map hopens
    cases key with
    | none => exact hignored.opens slots () hopens
    | some i =>
      cases hi : fields[i]? with
      | none =>
        unfold fieldEntry
        dsimp only
        rw [hi]
        exact .custom _
      | some field =>
        rw [fieldEntry_some hi]
        exact .ite (.custom _) ((hfield field (List.mem_of_getElem? hi)).opens slots i hopens)
  · intro slots key
    cases key with
    | none => exact hignored.body slots ()
    | some i =>
      cases hi : fields[i]? with
      | none =>
        unfold fieldEntry
        dsimp only
        rw [hi]
        exact .custom _
      | some field =>
        rw [fieldEntry_some hi]
        exact .ite (.custom _) ((hfield field (List.mem_of_getElem? hi)).body slots i)

omit [FloatText] in
theorem finishFields_answers : ∀ (fields : List FieldDe) (slots : List (Option Datum)),
    finishFields fields slots ≠ .error .outOfFuel
  | [], _ => (nomatch ·)
  | _ :: _, [] => (nomatch ·)
  | field :: fields, slot :: slots => by
    intro h
    rw [finishFields] at h
    cases hfield : field.finish slot with
    | error e =>
      rw [hfield] at h
      cases h
      unfold FieldDe.finish at hfield
      split at hfield <;> cases hfield
    | ok v =>
      rw [hfield] at h
      cases hrest : finishFields fields slots with
      | error e =>
        rw [hrest] at h
        cases h
        exact finishFields_answers fields slots hrest
      | ok vs =>
        rw [hrest] at h
        cases h

theorem structVisitor_ends {fields : List FieldDe} (h : ∀ field ∈ fields, Seed n field.value) :
    VisitorEnds n (structVisitor fields) where
  toAnswers := by constructor <;> intros <;> exact (nomatch ·)
  seq endByte de hde _ := by
    refine Eats.bind (positional_eats ?_ 0 endByte false) (fun _ => .pure _) de hde
    intro part hpart
    obtain ⟨field, hfield, rfl⟩ := List.mem_map.mp hpart
    exact (h field hfield).any
  map access de henough hde := by
    unfold structVisitor
    simp only [fieldEntries_eq]
    refine mapLoop_budget (fieldKey_ends _) (fieldEntry_ends h) (fun r => ?_) _ henough hde
    exact .bind (.ofExcept (finishFields_answers fields r.1)) fun _ => .pure _
  empty de := by
    unfold structVisitor
    simp only [fieldEntries_eq]
    refine mapLoop_empty (fun _ r => ?_) _ de
    exact .bind (.ofExcept (finishFields_answers fields r.1)) fun _ => .pure _

theorem deserializeStruct_seed {name : List UInt8} {names : List (List UInt8)}
    {visitor : Visitor α} (hname : name ≠ attributesStruct)
    (h : ∀ n, VisitorEnds n visitor) : Seed n (deserializeStruct name names visitor) := by
  unfold deserializeStruct
  rw [if_neg hname]
  exact .ite (visitFlatStruct_seed (h n)) (deserializeSkipping_seed (h n)).mono

/-! ## Options and attributes -/

omit [FloatText] in
theorem modify_ends {f : Deserializer → Deserializer} {g : Unit → De α} {de : Deserializer}
    {Q : α → Deserializer → Prop} (h : Ends (g () (f de)) Q) : Ends ((modify f >>= g) de) Q := h

theorem deserializeOption_seed {visitSome : De α} (h : Seed n visitSome) :
    Seed n (deserializeOption visitSome) := by
  refine .of_ends fun de hde => ?_
  refine (takeReadingAttributes_ends de).bind fun b de₁ h₁ => ?_
  obtain ⟨hran, hcalm, hb⟩ := h₁
  refine .ite (fun htrue => ?_) fun _ => ?_
  · -- attributes are awaited, also by the payload
    have hnot : ¬ de.Calm := by
      intro hbefore
      rw [hb hbefore] at htrue
      cases htrue
    refine (peekByte_ends de₁).bind fun c de₂ h₂ => .ite (fun _ => ?_) fun _ => ?_
    · have hpay := h.any { de₂ with isReadingAttributes := true } (h₂.ran.le (hran.le hde))
      refine modify_ends (hpay.bind fun v de₃ h₃ => modify_ends (.ok ?_))
      have hleft : de₃.left + 0 ≤ de₂.left := h₃.left
      have htrans := (hran.trans h₂.ran).left
      refine ⟨⟨?_, fun _ => rfl⟩, fun hbefore => absurd hbefore hnot⟩
      show de₃.left + 0 ≤ de.left
      omega
    · exact .ok ⟨hran.trans h₂.ran, fun hbefore => absurd hbefore hnot⟩
  · refine (skipAttributes_eats de₁ (hran.le hde)).bind fun _ de₂ h₂ => ?_
    refine (peekByte_ends de₂).bind fun c de₃ h₃ => ?_
    have hall := (hran.trans h₂).trans h₃.ran
    refine .ite (fun _ => ?_) fun _ => ?_
    · refine (nextToken_ends de₃).bind fun t de₄ h₄ => .ok ?_
      have htrans := hall.trans h₄.1
      exact ⟨htrans.mono (Nat.zero_le _), fun _ => htrans⟩
    · have hcalm₃ := h₃.ran.calm (h₂.calm hcalm)
      refine (h.calm de₃ (hall.le hde) hcalm₃).bind fun v de₄ h₄ => .ok ?_
      have htrans := hall.trans h₄
      exact ⟨htrans.mono (Nat.zero_le _), fun _ => htrans⟩

/-- `WithAttributes`: the attributes may be missing, and the value is read behind them with none
awaited. -/
theorem withAttributes_seed {attributes value : De Datum} (ha : Seed n attributes)
    (hv : Seed n value) (names : List (List UInt8)) :
    Seed n (deserializeStruct attributesStruct names (withAttributesVisitor attributes value)) := by
  have hread : ∀ de : Deserializer, de.left ≤ n →
      Ends (deserializeStruct attributesStruct names (withAttributesVisitor attributes value) de)
        fun _ => Ran 1 de := by
    intro de hde
    unfold deserializeStruct
    rw [if_pos rfl]
    refine nested_ends ?_
    have hattributes := ha.any { de with depth := de.depth + 1, isReadingAttributes := true } hde
    have hvisit : Ends ((withAttributesVisitor attributes value).visitSeq (.attributesWrapper 0)
        { de with depth := de.depth + 1 }) fun _ => Ran 1 { de with depth := de.depth + 1 } := by
      show Ends ((nextElement attributes (.attributesWrapper 0) >>= _) _) _
      have hfirst : Ends (nextElement attributes (.attributesWrapper 0)
          { de with depth := de.depth + 1 }) fun r de' =>
            (∃ v, r = (some v, .attributesWrapper 1)) ∧ de'.left ≤ de.left ∧ de'.Calm :=
        modify_ends (hattributes.bind fun v de₁ h₁ => modify_ends (.ok ⟨⟨v, rfl⟩, h₁.left, rfl⟩))
      refine hfirst.bind fun r de₁ h₁ => ?_
      obtain ⟨⟨a, rfl⟩, hleft, hcalm⟩ := h₁
      have hsecond : Ends (nextElement value (.attributesWrapper 1) de₁) fun r de' =>
          (∃ v, r = (some v, .attributesWrapper 2)) ∧ Ran 1 de₁ de' :=
        (hv.calm de₁ (Nat.le_trans hleft hde) hcalm).bind fun v de₂ h₂ => .ok ⟨⟨v, rfl⟩, h₂⟩
      dsimp only [orMissing]
      rw [pure_bind]
      refine hsecond.bind fun r de₂ h₂ => ?_
      obtain ⟨⟨v, rfl⟩, hran⟩ := h₂
      refine .ok ⟨?_, fun _ => hran.calm hcalm⟩
      have hless := hran.left
      show de₂.left + 1 ≤ de.left
      omega
    exact hvisit.bind fun r de₁ h₁ => .ok h₁
  exact .of_ends fun de hde => (hread de hde).imp fun _ _ h => ⟨h.mono (Nat.zero_le 1), fun _ => h⟩

/-! ## Enums -/

omit [FloatText] in
theorem peekAny_ends (de : Deserializer) : Ends (peekAny de) fun _ => Ran 0 de := by
  unfold peekAny Yson.peekByte
  cases de.lexer.skipIgnored.rest with
  | nil => exact .ok ⟨skipIgnored_length de.lexer, id⟩
  | cons b x => exact .ok ⟨skipIgnored_length de.lexer, id⟩

theorem skipToVariantEnd_ends : ∀ {fuel : Nat} {de : Deserializer}, de.left < fuel →
    Ends (skipToVariantEnd fuel de) fun _ => Ran 0 de
  | 0, _, h => absurd h (Nat.not_lt_zero _)
  | fuel + 1, de, h => by
    rw [skipToVariantEnd_succ]
    refine (peekAny_ends de).bind fun b de₁ h₁ => ?_
    cases b with
    | none => exact .ok h₁
    | some b =>
      refine .ite (fun _ => .ok h₁) fun _ => ?_
      refine (nextToken_ends de₁).bind fun t de₂ h₂ => ?_
      have hran := h₁.trans h₂.1
      have hless := hran.left
      have hloop := skipToVariantEnd_ends (show de₂.left < fuel by omega)
      exact hloop.imp fun _ _ h₃ => (hran.trans h₃).mono (Nat.zero_le _)

/-- The walk to the end of the map, with the budget it takes for itself. -/
theorem skipToVariantEnd_budget {f : Unit → De β} (hf : Eats n 0 (f ())) :
    Eats n 0 (budget >>= fun fuel => skipToVariantEnd fuel >>= f) := by
  intro de hde
  show Ends ((skipToVariantEnd (de.left + 1) >>= f) de) _
  refine (skipToVariantEnd_ends (Nat.lt_succ_self de.left)).bind fun _ de₁ h₁ => ?_
  exact (hf de₁ (h₁.le hde)).imp fun _ _ h₂ => h₁.trans h₂

theorem deserializeEnum_seed {visitEnum : Bool → De α} (hwrapped : Eats n 0 (visitEnum true))
    (hplain : Seed n (visitEnum false)) : Seed n (deserializeEnum visitEnum) := by
  have htoken := (nextToken_eats n).less
  refine .get fun de => .ite (.before skipAttributes_eats fun _ => ?_) ?_
  all_goals
    refine .before peekByte_eats fun b => .ite (.token fun _ => ?_) hplain
    -- behind the map's bracket nothing need be read
    refine .bind hwrapped fun value => skipToVariantEnd_budget ?_
    refine .bind (fun de _ => peekAny_ends de) fun peeked => ?_
    refine .ite (.bind htoken fun _ => .bind htoken fun t => ?_) (.bind htoken fun t => ?_)
    all_goals
      cases t with
      | endMap => exact .pure value
      | _ => exact .custom _

theorem expectVariantSeparator_eats : Eats n 0 expectVariantSeparator :=
  .bind (nextToken_eats n).less fun _ => .ite (.custom _) (.pure _)

theorem unitVariant_eats (isMapWrapped : Bool) : Eats n 0 (unitVariant isMapWrapped) := by
  refine .ite (.bind expectVariantSeparator_eats fun _ => ?_) (.pure _)
  exact .bind (nextToken_eats n).less fun _ => .ite (.custom _) (.pure _)

/-- The parts of a variant are read within their budgets. -/
def VariantEnds (n : Nat) : VariantDe → Prop
  | .unit => True
  | .newtype de => Eats n 0 de
  | .tuple parts => ∀ part ∈ parts, Eats n 0 part
  | .struct fields => ∀ field ∈ fields, Seed n field.value

theorem VariantDe.read_eats {variant : VariantDe} (h : VariantEnds n variant)
    (isMapWrapped : Bool) : Eats n 0 (variant.read isMapWrapped) := by
  have hcontainer : ∀ {visitor : Visitor Datum}, VisitorEnds n visitor →
      Eats n 0 (containerVariant visitor) := fun hvisitor =>
    .bind expectVariantSeparator_eats fun _ => (deserializeSkipping_seed hvisitor).mono.any
  cases variant with
  | unit => exact .bind (unitVariant_eats _) fun _ => .pure _
  | newtype de => exact .bind expectVariantSeparator_eats fun _ => h
  | tuple parts => exact hcontainer (tupleVisitor_ends h)
  | struct fields => exact hcontainer (structVisitor_ends h)

theorem visitEnum_seed {variants : List (List UInt8 × VariantDe)}
    (h : ∀ variant ∈ variants, VariantEnds n variant.2) (isMapWrapped : Bool) :
    Seed n (visitEnum variants isMapWrapped) := by
  refine (scalar_seed (variantVisitor_answers _) rfl rfl).map fun i => ?_
  cases hi : variants[i]? with
  | none => exact .custom _
  | some variant =>
    have hread := VariantDe.read_eats (h variant (List.mem_of_getElem? hi)) isMapWrapped
    exact .bind hread fun _ => .pure _

end De

/-! ## Values -/

namespace YsonValue

open De

variable [FloatText]

theorem visitSeqLoop_eq (element : De YsonValue) : ∀ (fuel : Nat) (vec : List YsonValue)
    (seq : SeqAccess), visitSeqLoop element fuel vec seq = elements element fuel vec seq
  | 0, _, _ => rfl
  | fuel + 1, vec, seq => by
    rw [visitSeqLoop, elements]
    refine congrArg _ (funext fun r => ?_)
    obtain ⟨elem, seq'⟩ := r
    cases elem with
    | none => rfl
    | some elem => exact visitSeqLoop_eq element fuel _ seq'

/-- The turn of `visit_map`: the value goes where its key says. -/
def addTurn (value : De YsonValue) (parts : MapParts) (key : List UInt8) (map : MapAccess) :
    De MapParts :=
  nextValue value map >>= fun v => pure (parts.add key v)

theorem visitMapLoop_eq (value : De YsonValue) : ∀ (fuel : Nat) (parts : MapParts)
    (map : MapAccess), visitMapLoop value fuel parts map =
      mapLoop mapKey (addTurn value) fuel parts map
  | 0, _, _ => rfl
  | fuel + 1, parts, map => by
    rw [visitMapLoop, mapLoop]
    refine nextKey_congr (fun _ => rfl) fun key map' => ?_
    show nextValue value map' >>= (fun v => visitMapLoop value fuel (parts.add key v) map') =
      addTurn value parts key map' >>= fun parts => mapLoop mapKey (addTurn value) fuel parts map'
    unfold addTurn
    rw [bind_assoc]
    refine congrArg _ (funext fun v => ?_)
    rw [pure_bind]
    exact visitMapLoop_eq value fuel _ map'

theorem mapKey_ends : KeyEnds n mapKey where
  deserialize := (deserializeAny_seed (answers_scalar mapKeyVisitor_answers rfl rfl)).mono.any
  visitStr := mapKeyVisitor_answers.str
  visitBytes := mapKeyVisitor_answers.bytes

omit [FloatText] in
theorem finish_answers (parts : MapParts) : parts.finish ≠ .error .outOfFuel := by
  unfold MapParts.finish
  dsimp only
  split
  · split <;> exact (nomatch ·)
  · exact (nomatch ·)

theorem visitor_ends {element : De YsonValue} (h : Seed n element) :
    VisitorEnds n (visitor element) where
  toAnswers := by constructor <;> intros <;> exact (nomatch ·)
  seq endByte de hde hcalm := by
    unfold visitor
    simp only [visitSeqLoop_eq]
    exact elements_budget h (fun _ => .pure _) endByte hde hcalm
  map access de henough hde := by
    have hturn : TurnEnds n (addTurn element) := turn_ends h _ fun _ _ _ => .pure _
    unfold visitor
    simp only [visitMapLoop_eq]
    refine mapLoop_budget mapKey_ends hturn (fun r => ?_) _ henough hde
    exact .bind (.ofExcept (finish_answers r.1)) fun _ => .pure _
  empty de := by
    unfold visitor
    simp only [visitMapLoop_eq]
    refine mapLoop_empty (fun _ r => ?_) _ de
    exact .bind (.ofExcept (finish_answers r.1)) fun _ => .pure _

/-- **A value is read within its budgets** if there are no more bytes than levels. -/
theorem deserialize_seed : ∀ {fuel n : Nat}, n < fuel → Seed n (deserialize fuel)
  | 0, _, h => absurd h (Nat.not_lt_zero _)
  | _ + 1, 0, _ => deserializeAny_zero _
  | _ + 1, _ + 1, h =>
    deserializeAny_seed (visitor_ends (deserialize_seed (Nat.lt_of_succ_lt_succ h)))

end YsonValue

/-! ## Types -/

variable [FloatText] [FloatCasts]

open De

mutual

/-- **Every type is read within its budgets**, however many bytes there are. -/
theorem Ty.decode_seed : ∀ (t : Ty) (n : Nat), Seed n t.decode
  | .unit, _ => scalar_seed unitVisitor_answers rfl rfl
  | .bool, _ => scalar_seed boolVisitor_answers rfl rfl
  | .int k, _ => scalar_seed (intVisitor_answers k) rfl rfl
  | .f32, _ => scalar_seed f32Visitor_answers rfl rfl
  | .f64, _ => scalar_seed f64Visitor_answers rfl rfl
  | .char, _ => scalar_seed charVisitor_answers rfl rfl
  | .str, _ => (scalar_seed stringVisitor_answers rfl rfl).map fun _ => .pure _
  | .bytes, _ => (deserializeSkipping_seed byteBufVisitor_ends).mono
  | .option t, n => (deserializeOption_seed (t.decode_seed n)).map fun _ => .pure _
  | .seq t, n => (deserializeSkipping_seed (vecVisitor_ends (t.decode_seed n))).mono
  | .tuple ts, n =>
    (deserializeSkipping_seed
      (tupleVisitor_ends fun m hm => (decodeParts_seed ts n m hm).any)).mono
  | .newtypeStruct t, n =>
    (deserializeSkipping_seed (newtypeVisitor_ends (t.decode_seed n).any)).mono
  | .map t, n => (deserializeSkipping_seed (mapVisitor_ends (t.decode_seed n))).mono
  | .struct fields, _ =>
    deserializeStruct_seed (by decide) fun n => structVisitor_ends (decodeFields_seed fields n)
  | .enum variants, n => by
    have h := decodeVariants_seed variants n
    exact deserializeEnum_seed (visitEnum_seed h true).any (visitEnum_seed h false)
  | .withAttributes attributes value, n =>
    withAttributes_seed (attributes.decode_seed n) (value.decode_seed n) _

theorem decodeParts_seed : ∀ (ts : List Ty) (n : Nat), ∀ part ∈ decodeParts ts, Seed n part
  | [], _ => List.forall_mem_nil _
  | t :: ts, n => List.forall_mem_cons.mpr ⟨t.decode_seed n, decodeParts_seed ts n⟩

theorem decodeFields_seed : ∀ (fields : List (List UInt8 × Ty × Option Datum)) (n : Nat),
    ∀ field ∈ decodeFields fields, Seed n field.value
  | [], _ => List.forall_mem_nil _
  | (_, t, _) :: fields, n =>
    List.forall_mem_cons.mpr ⟨t.decode_seed n, decodeFields_seed fields n⟩

theorem decodeVariants_seed : ∀ (variants : List (List UInt8 × Variant)) (n : Nat),
    ∀ variant ∈ decodeVariants variants, VariantEnds n variant.2
  | [], _ => List.forall_mem_nil _
  | (_, variant) :: variants, n =>
    List.forall_mem_cons.mpr ⟨variant.decode_ends n, decodeVariants_seed variants n⟩

theorem Variant.decode_ends : ∀ (variant : Variant) (n : Nat), VariantEnds n variant.decode
  | .unit, _ => trivial
  | .newtype t, n => (t.decode_seed n).any
  | .tuple ts, n => fun m hm => (decodeParts_seed ts n m hm).any
  | .struct fields, n => decodeFields_seed fields n

end

end Ytsaurus.Yson
