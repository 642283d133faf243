import Ytsaurus.Proof.Access
import Ytsaurus.Yson.Typed

/-!
# `Proof/Built.lean` — the deserializer is built of peeks and tokens

Whatever type is read, the deserializer looks at its input by peeking at a byte and by taking a
token, fails with the offset in an error, and otherwise looks only at its own fields. `Built`
says so: a program is built of these few steps, one behind the other. It is shown once of each
part and of every type, so that what holds of the steps and is kept by sequencing holds of all
of it.

Two such properties are used. The deserializer does not look at its offset (`Proof/Shift.lean`),
and it is a plan over its lexer (`Proof/Plan.lean`), so that its tokens can be counted. Each would
need a walk over the whole deserializer with all its visitors; this way there is one walk, and two
short inductions on `Built`.

The relation is generous where it can be: it does not say what a program does, or that it ends,
and the fields of the deserializer may be read and set at any time. What it rules out is looking
at the bytes in any other way.
-/

set_option autoImplicit false

namespace Ytsaurus.Yson

variable {α β κ : Type}

namespace De

/-- A look at the next byte that does not fail at the end. -/
def peekAny : De (Option UInt8) := fun de =>
  match Yson.peekByte de.lexer with
  | .ok (byte, it) => .ok (some byte, { de with lexer := it })
  | .error _ => .ok (none, { de with lexer := de.lexer.skipIgnored })

end De

/-- A program of the deserializer's own steps. What is looked up in the state, and what is
changed there, has nothing to do with the cursor; only a budget may ask how much is left. -/
inductive Built [FloatText] : {α : Type} → De α → Prop where
  | pure {α : Type} (a : α) : Built (Pure.pure a)
  | throw {α : Type} (e : YsonError) : Built (MonadExcept.throw e : De α)
  | failAt {α : Type} (e : Nat → YsonError) : Built (fun de => .error (e de.lexer.pos) : De α)
  | bind {α β : Type} {m : De α} {f : α → De β} :
      Built m → (∀ a, Built (f a)) → Built (m >>= f)
  | peek : Built De.peekAny
  | token : Built De.nextToken
  | budget : Built De.budget
  | get {α : Type} {f : Deserializer → De α} :
      (∀ de it, f (de.withLexer it) = f de) → (∀ de, Built (f de)) → Built (MonadState.get >>= f)
  | update {f : Deserializer → Deserializer} :
      (∀ de it, f (de.withLexer it) = (f de).withLexer it) → Built (modify f : De Unit)

variable [FloatText]

namespace Built

theorem ite {c : Prop} [Decidable c] {m n : De α} (hm : Built m) (hn : Built n) :
    Built (if c then m else n) := by
  split
  · exact hm
  · exact hn

theorem ofExcept (x : Except YsonError α) : Built (De.ofExcept x) := by
  cases x with
  | error e => exact .throw e
  | ok a => exact .pure a

end Built

namespace De

/-! ## Tokens and depth -/

omit [FloatText] in
theorem peekByte_eq : De.peekByte = peekAny >>= fun byte => byte.elim (throw .eof) Pure.pure := by
  funext de
  rw [StateExcept.bind_apply]
  unfold De.peekByte lex peekAny Yson.peekByte
  cases de.lexer.skipIgnored.rest <;> rfl

theorem peekByte_built : Built De.peekByte := by
  rw [peekByte_eq]
  refine .bind .peek fun byte => ?_
  cases byte with
  | some byte => exact .pure byte
  | none => exact .throw _

omit [FloatText] in
theorem enterRecursion_eq : enterRecursion = get >>= fun de =>
    if de.depth + 1 > de.maxDepth then throw (.custom .recursionLimit)
    else modify fun de => { de with depth := de.depth + 1 } := by
  funext de
  rw [StateExcept.get_bind, StateExcept.ite_apply]
  rfl

theorem enterRecursion_built : Built enterRecursion := by
  rw [enterRecursion_eq]
  exact .get (fun _ _ => rfl) fun _ => .ite (.throw _) (.update fun _ _ => rfl)

theorem leaveRecursion_built : Built leaveRecursion := .update fun _ _ => rfl

theorem takeReadingAttributes_built : Built takeReadingAttributes := by
  show Built (get >>= fun de =>
    (modify fun de => { de with isReadingAttributes := false }) >>= fun _ =>
      Pure.pure de.isReadingAttributes)
  exact .get (fun _ _ => rfl) fun _ => .bind (.update fun _ _ => rfl) fun _ => .pure _

theorem end_built : Built De.end := by
  have heq : De.end = peekAny >>= fun byte => byte.elim (Pure.pure ()) fun byte de =>
      .error (.custom (.trailingData byte de.lexer.pos)) := by
    funext de
    rw [StateExcept.bind_apply]
    unfold De.end peekAny Yson.peekByte
    cases de.lexer.skipIgnored.rest <;> rfl
  rw [heq]
  refine .bind .peek fun byte => ?_
  cases byte with
  | some byte => exact .failAt fun pos => .custom (.trailingData byte pos)
  | none => exact .pure ()

/-! ## Attributes and terminators -/

theorem skipAttributesLoop_built : ∀ fuel attrDepth : Nat,
    Built (skipAttributesLoop fuel attrDepth)
  | 0, _ => .throw _
  | fuel + 1, attrDepth => by
    have hloop := skipAttributesLoop_built fuel
    refine .ite (.pure _) (.bind .token fun t => ?_)
    refine .get (fun _ _ => rfl) fun de => .ite (.bind (.throw _) fun _ => ?_) ?_
    · exact hloop _
    · exact hloop _

theorem skipAttributes_built : Built skipAttributes := by
  refine .bind peekByte_built fun b => .ite ?_ (.pure _)
  refine .bind enterRecursion_built fun _ => .bind .token fun _ => ?_
  refine .bind .budget fun n => .bind (skipAttributesLoop_built n 1) fun _ => ?_
  exact leaveRecursion_built

theorem skipSeparator_built : Built skipSeparator :=
  .bind peekByte_built fun _ => .ite (.bind .token fun _ => .pure _) (.pure _)

theorem takeTerminator_built (endByte : UInt8) : Built (takeTerminator endByte) := by
  refine .bind peekByte_built fun b => .ite (.bind .token fun _ => .pure _) ?_
  -- the offset is in the message of the error
  exact .failAt fun pos => .custom (.notClosed endByte b pos)

theorem endContainer_built (endByte : UInt8) : Built (endContainer endByte) := by
  refine .get (fun _ _ => rfl) fun de => .ite (.pure _) ?_
  exact .bind skipSeparator_built fun _ => takeTerminator_built endByte

/-! ## Access objects -/

theorem commaSeparatedAtEnd_built (endByte : UInt8) : Built (commaSeparatedAtEnd endByte) := by
  refine .bind peekByte_built fun b => .ite (.bind .token fun _ => .pure _) (.ite ?_ (.pure _))
  refine .bind .token fun _ => .bind peekByte_built fun c => .ite ?_ (.pure _)
  exact .bind .token fun _ => .pure _

theorem nextElement_built {seed : De α} (hseed : Built seed) :
    ∀ seq : SeqAccess, Built (nextElement seed seq)
  | .commaSeparated endByte ended => by
    refine .bind (commaSeparatedAtEnd_built endByte) fun b => .ite (.pure _) ?_
    exact .bind hseed fun _ => .pure _
  | .attributesWrapper 0 => by
    refine .bind (.update fun _ _ => rfl) fun _ => .bind hseed fun v => ?_
    exact .bind (.update fun _ _ => rfl) fun _ => .pure _
  | .attributesWrapper 1 => .bind hseed fun _ => .pure _
  | .attributesWrapper (_ + 2) => .pure _

theorem expectKeyValueSeparator_built : Built expectKeyValueSeparator :=
  .bind .token fun _ => .ite (.throw _) (.pure _)

theorem nextKeyBody_built {seed : KeySeed κ} (hseed : Built seed.deserialize) :
    ∀ fuel : Nat, Built (nextKeyBody seed fuel)
  | 0 => .throw _
  | fuel + 1 => by
    refine .bind peekByte_built fun b => .ite (.bind .token fun _ => .pure _) (.ite ?_ ?_)
    · exact .bind .token fun _ => nextKeyBody_built hseed fuel
    · exact .bind hseed fun _ => .pure _

theorem nextKeyValueOnly_built (seed : KeySeed κ) : Built (nextKeyValueOnly seed) :=
  .bind (.ofExcept _) fun _ => .pure _

theorem nextKeyBetween_built {seed : KeySeed κ} (hseed : Built seed.deserialize) :
    Built (nextKeyBetween seed) := by
  refine .bind peekByte_built fun b => .ite ?_ (.ite ?_ (nextKeyValueOnly_built seed))
  · exact .bind .token fun _ => .bind .budget fun n => nextKeyBody_built hseed n
  · exact .bind .token fun _ => .pure _

theorem nextKeyAttributes_built {seed : KeySeed κ} (hseed : Built seed.deserialize) :
    ∀ fuel : Nat, Built (nextKeyAttributes seed fuel)
  | 0 => .throw _
  | fuel + 1 => by
    refine .bind peekByte_built fun b => .ite ?_ (.ite ?_ ?_)
    · exact .bind .token fun _ => nextKeyBetween_built hseed
    · exact .bind .token fun _ => nextKeyAttributes_built hseed fuel
    · refine .bind .token fun t => ?_
      cases t with
      | string s => exact .bind (.ofExcept _) fun _ => .pure _
      | _ => exact .throw _

theorem nextKey_built {seed : KeySeed κ} (hseed : Built seed.deserialize) :
    ∀ map : MapAccess, Built (nextKey seed map)
  | .flatStruct .attributes _ => .bind .budget fun n => nextKeyAttributes_built hseed n
  | .flatStruct .between _ => nextKeyBetween_built hseed
  | .flatStruct .body _ => .bind .budget fun n => nextKeyBody_built hseed n
  | .flatStruct .valueOnly _ => nextKeyValueOnly_built seed
  | .flatStruct .done _ => .pure _
  | .commaSeparated endByte _ => by
    refine .bind (commaSeparatedAtEnd_built endByte) fun b => .ite (.pure _) ?_
    exact .bind hseed fun _ => .pure _
  | .empty => .pure _

theorem nextValue_built {seed : De α} (hseed : Built seed) :
    ∀ map : MapAccess, Built (nextValue seed map)
  | .flatStruct _ true => hseed
  | .flatStruct _ false => .bind expectKeyValueSeparator_built fun _ => hseed
  | .commaSeparated _ _ => .bind expectKeyValueSeparator_built fun _ => hseed
  | .empty => .throw _

/-! ## Containers -/

theorem nested_built {visit : De α} (h : Built visit) : Built (nested visit) :=
  .bind enterRecursion_built fun _ => .bind h fun _ => .bind leaveRecursion_built fun _ => .pure _

theorem visitCommaSeparated_built {visit : De (α × β)} (ended : β → Bool) (h : Built visit) :
    Built (visitCommaSeparated visit ended) :=
  nested_built (.bind h fun _ => .bind (.update fun _ _ => rfl) fun _ => .pure _)

theorem flatStructStart_built : Built flatStructStart := by
  refine .bind peekByte_built fun b => .ite ?_ (.ite ?_ (.ite ?_ (.pure _)))
  · exact .bind .token fun _ => .pure _
  · exact .bind .token fun _ => .pure _
  · exact .bind .token fun _ => .pure _

/-- A visitor that drives its access objects by these steps. -/
structure VisitorBuilt (visitor : Visitor α) : Prop where
  seq : ∀ access, Built (visitor.visitSeq access)
  map : ∀ access, Built (visitor.visitMap access)

/-- A visitor of scalars. -/
theorem visitorBuilt_scalar {visitor : Visitor α}
    (hseq : visitor.visitSeq = fun _ => throw (.custom (.invalidType .seq)))
    (hmap : visitor.visitMap = fun _ => throw (.custom (.invalidType .map))) :
    VisitorBuilt visitor where
  seq := by
    intro access
    rw [hseq]
    exact .throw _
  map := by
    intro access
    rw [hmap]
    exact .throw _

theorem visitFlatStruct_built {visitor : Visitor α} (h : VisitorBuilt visitor) :
    Built (visitFlatStruct visitor) :=
  nested_built (.bind flatStructStart_built fun _ => .bind (h.map _) fun _ => .pure _)

theorem visitAttributesWrapper_built {visitor : Visitor α} (h : VisitorBuilt visitor) :
    Built (visitAttributesWrapper visitor) :=
  nested_built (.bind (h.seq _) fun _ => .pure _)

theorem visitToken_built {visitor : Visitor α} (h : VisitorBuilt visitor) (t : Token) :
    Built (visitToken visitor t) := by
  cases t with
  | entity | boolean | int64 | uint64 | double | string => exact .ofExcept _
  | beginList =>
    refine .bind (visitCommaSeparated_built _ (h.seq _)) fun v => ?_
    exact .bind (endContainer_built _) fun _ => .pure v
  | beginMap =>
    refine .bind (visitCommaSeparated_built _ (h.map _)) fun v => ?_
    exact .bind (endContainer_built _) fun _ => .pure v
  | beginAttributes =>
    refine .bind (visitCommaSeparated_built _ (h.map _)) fun v => ?_
    exact .bind (endContainer_built _) fun _ => .pure v
  | endAttributes | endList | endMap | keyValueSeparator | itemSeparator => exact .throw _

/-! ## Entry points -/

theorem deserializeAttributes_built {visitor : Visitor α} (h : VisitorBuilt visitor) :
    Built (deserializeAttributes visitor) := by
  refine .bind peekByte_built fun b => .ite (.bind (h.map _) fun _ => .pure _) ?_
  exact .bind .token fun _ => visitCommaSeparated_built _ (h.map _)

theorem deserializeAny_built {visitor : Visitor α} (h : VisitorBuilt visitor) :
    Built (deserializeAny visitor) := by
  refine .bind takeReadingAttributes_built fun b => .ite (deserializeAttributes_built h) ?_
  refine .bind peekByte_built fun c => .ite (visitFlatStruct_built h) ?_
  exact .bind .token fun t => visitToken_built h t

theorem deserializeSkipping_built {visitor : Visitor α} (h : VisitorBuilt visitor) :
    Built (deserializeSkipping visitor) := by
  refine .get (fun _ _ => rfl) fun de => .ite (.bind skipAttributes_built fun _ => ?_) ?_
  · exact deserializeAny_built h
  · exact deserializeAny_built h

theorem deserializeOption_built {visitSome : De α} (h : Built visitSome) :
    Built (deserializeOption visitSome) := by
  refine .bind takeReadingAttributes_built fun b => .ite ?_ ?_
  · refine .bind peekByte_built fun c => .ite ?_ (.pure _)
    refine .bind (.update fun _ _ => rfl) fun _ => .bind h fun v => ?_
    exact .bind (.update fun _ _ => rfl) fun _ => .pure _
  · refine .bind skipAttributes_built fun _ => .bind peekByte_built fun c => .ite ?_ ?_
    · exact .bind .token fun _ => .pure _
    · exact .bind h fun _ => .pure _

theorem deserializeStruct_built (name : List UInt8) (fields : List (List UInt8))
    {visitor : Visitor α} (h : VisitorBuilt visitor) :
    Built (deserializeStruct name fields visitor) :=
  .ite (visitAttributesWrapper_built h)
    (.ite (visitFlatStruct_built h) (deserializeSkipping_built h))

/-! ## Enums -/

theorem skipToVariantEnd_succ (fuel : Nat) : skipToVariantEnd (fuel + 1) =
    peekAny >>= fun byte => byte.elim (Pure.pure ()) fun byte =>
      if byte = 0x3B ∨ byte = 0x7D then Pure.pure ()
      else nextToken >>= fun _ => skipToVariantEnd fuel := by
  funext de
  rw [skipToVariantEnd, StateExcept.bind_apply]
  unfold peekAny
  dsimp only
  cases Yson.peekByte de.lexer with
  | error e => rfl
  | ok r =>
    show _ = (if r.1 = 0x3B ∨ r.1 = 0x7D then Pure.pure ()
      else nextToken >>= fun _ => skipToVariantEnd fuel) { de with lexer := r.2 }
    rw [StateExcept.ite_apply]
    rfl

theorem skipToVariantEnd_built : ∀ fuel : Nat, Built (skipToVariantEnd fuel)
  | 0 => .throw _
  | fuel + 1 => by
    rw [skipToVariantEnd_succ]
    refine .bind .peek fun byte => ?_
    cases byte with
    | some byte => exact .ite (.pure _) (.bind .token fun _ => skipToVariantEnd_built fuel)
    | none => exact .pure _

theorem deserializeEnum_built {visitEnum : Bool → De α} (h : ∀ b, Built (visitEnum b)) :
    Built (deserializeEnum visitEnum) := by
  refine .get (fun _ _ => rfl) fun de => .ite (.bind skipAttributes_built fun _ => ?_) ?_
  all_goals
    refine .bind peekByte_built fun b => .ite ?_ (h false)
    refine .bind .token fun _ => .bind (h true) fun v => ?_
    refine .bind .budget fun n => .bind (skipToVariantEnd_built n) fun _ => .bind ?_ fun o => ?_
    · exact .peek
    · refine .ite (.bind .token fun _ => .bind .token fun t => ?_)
        (.bind .token fun t => ?_)
      all_goals
        cases t with
        | endMap => exact .pure v
        | _ => exact .throw _

theorem expectVariantSeparator_built : Built expectVariantSeparator :=
  .bind .token fun _ => .ite (.throw _) (.pure _)

theorem unitVariant_built (isMapWrapped : Bool) : Built (unitVariant isMapWrapped) := by
  refine .ite (.bind expectVariantSeparator_built fun _ => ?_) (.pure _)
  exact .bind .token fun _ => .ite (.throw _) (.pure _)

theorem newtypeVariant_built {seed : De α} (h : Built seed) : Built (newtypeVariant seed) :=
  .bind expectVariantSeparator_built fun _ => h

theorem containerVariant_built {visitor : Visitor α} (h : VisitorBuilt visitor) :
    Built (containerVariant visitor) :=
  .bind expectVariantSeparator_built fun _ => deserializeSkipping_built h

/-! ## Visitors -/

theorem elements_built {element : De α} (h : Built element) :
    ∀ (fuel : Nat) (vs : List α) (seq : SeqAccess), Built (elements element fuel vs seq)
  | 0, _, _ => .throw _
  | fuel + 1, vs, seq => by
    refine .bind (nextElement_built h seq) fun r => ?_
    obtain ⟨v, seq'⟩ := r
    cases v with
    | some v => exact elements_built h fuel _ seq'
    | none => exact .pure _

theorem visitMap_refuses_built {visitor : Visitor α}
    (hmap : visitor.visitMap = fun _ => throw (.custom (.invalidType .map)))
    (access : MapAccess) : Built (visitor.visitMap access) := by
  rw [hmap]
  exact .throw _

theorem vecVisitor_built {element : De Datum} (h : Built element) :
    VisitorBuilt (vecVisitor element) where
  seq := fun _ => .bind .budget fun _ => .bind (elements_built h _ _ _) fun _ => .pure _
  map := visitMap_refuses_built rfl

theorem u8_built : Built u8 := by
  refine .bind (deserializeSkipping_built (visitorBuilt_scalar rfl rfl)) fun v => ?_
  cases v with
  | int v => exact .pure _
  | _ => exact .throw _

theorem byteBufVisitor_built : VisitorBuilt byteBufVisitor where
  seq := fun _ =>
    .bind .budget fun _ => .bind (elements_built u8_built _ _ _) fun _ => .pure _
  map := visitMap_refuses_built rfl

theorem orDefault_built (part : Part) (i : Nat) (v : Option Datum) :
    Built (part.orDefault i v) := by
  unfold Part.orDefault
  split
  · exact .pure _
  · exact .pure _
  · exact .throw _

theorem positional_built : ∀ {parts : List Part}, (∀ part ∈ parts, Built part.1) →
    ∀ (i : Nat) (seq : SeqAccess), Built (positional parts i seq)
  | [], _, _, _ => .pure _
  | part :: parts, h, i, seq => by
    refine .bind (nextElement_built (h part List.mem_cons_self) seq) fun r => ?_
    refine .bind (orDefault_built part i r.1) fun v => .bind ?_ fun _ => .pure _
    exact positional_built (fun p hp => h p (List.mem_cons_of_mem _ hp)) (i + 1) r.2

theorem tupleVisitor_built {parts : List (De Datum)} (h : ∀ part ∈ parts, Built part) :
    VisitorBuilt (tupleVisitor parts) where
  seq := by
    intro access
    refine .bind (positional_built ?_ _ _) fun _ => .pure _
    intro part hpart
    obtain ⟨de, hde, rfl⟩ := List.mem_map.mp hpart
    exact h de hde
  map := visitMap_refuses_built rfl

theorem newtypeVisitor_built {inner : De Datum} (h : Built inner) :
    VisitorBuilt (newtypeVisitor inner) where
  seq := fun _ => .bind (nextElement_built h _) fun _ =>
    .bind (orDefault_built _ _ _) fun _ => .pure _
  map := visitMap_refuses_built rfl

theorem stringKey_built : Built stringKey.deserialize :=
  deserializeSkipping_built (visitorBuilt_scalar rfl rfl)

theorem visitSeq_refuses_built {visitor : Visitor α}
    (hseq : visitor.visitSeq = fun _ => throw (.custom (.invalidType .seq)))
    (access : SeqAccess) : Built (visitor.visitSeq access) := by
  rw [hseq]
  exact .throw _

theorem entries_built {value : De Datum} (h : Built value) :
    ∀ (fuel : Nat) (es : List (List UInt8 × Datum)) (map : MapAccess),
      Built (entries value fuel es map)
  | 0, _, _ => .throw _
  | fuel + 1, es, map => by
    refine .bind (nextKey_built stringKey_built map) fun r => ?_
    obtain ⟨key, map'⟩ := r
    cases key with
    | some key => exact .bind (nextValue_built h map') fun v => entries_built h fuel _ map'
    | none => exact .pure _

theorem mapVisitor_built {value : De Datum} (h : Built value) :
    VisitorBuilt (mapVisitor value) where
  seq := visitSeq_refuses_built rfl
  map := fun _ => .bind .budget fun _ => .bind (entries_built h _ _ _) fun _ => .pure _

theorem ignoredEntries_built {element : De Unit} (h : Built element) (visitor : Visitor Unit) :
    ∀ (fuel : Nat) (map : MapAccess),
      Built (ignoredEntries element (ignoredKey element visitor) fuel map)
  | 0, _ => .throw _
  | fuel + 1, map => by
    have hkey : Built (ignoredKey element visitor).deserialize := h
    refine .bind (nextKey_built hkey map) fun r => ?_
    obtain ⟨key, map'⟩ := r
    cases key with
    | some key =>
      exact .bind (nextValue_built h map') fun _ => ignoredEntries_built h visitor fuel map'
    | none => exact .pure _

theorem ignoredAny_built : ∀ fuel : Nat, Built (ignoredAny fuel)
  | 0 => .throw _
  | fuel + 1 => by
    have h := ignoredAny_built fuel
    refine deserializeSkipping_built ⟨fun access => ?_, fun access => ?_⟩
    · exact .bind .budget fun _ => .bind (elements_built h _ _ _) fun _ => .pure _
    · exact .bind .budget fun _ => .bind (ignoredEntries_built h _ _ _) fun _ => .pure _

theorem ignored_built : Built ignored := .bind .budget fun n => ignoredAny_built n

theorem fieldKey_built (names : List (List UInt8)) : Built (fieldKey names).deserialize :=
  deserializeSkipping_built (visitorBuilt_scalar rfl rfl)

theorem fieldEntry_built {fields : List FieldDe} (h : ∀ field ∈ fields, Built field.value)
    (slots : List (Option Datum)) (map : MapAccess) (key : Option Nat) :
    Built (fieldEntry fields slots map key) := by
  cases key with
  | none => exact .bind (nextValue_built ignored_built map) fun _ => .pure _
  | some i =>
    unfold fieldEntry
    dsimp only
    split
    · exact .throw _
    · rename_i field hfield
      have hvalue := nextValue_built (h field (List.mem_of_getElem? hfield)) map
      exact .ite (.bind (.throw _) fun _ => .bind hvalue fun _ => .pure _)
        (.bind hvalue fun _ => .pure _)

theorem fieldEntries_built {fields : List FieldDe} (h : ∀ field ∈ fields, Built field.value) :
    ∀ (fuel : Nat) (slots : List (Option Datum)) (map : MapAccess),
      Built (fieldEntries fields fuel slots map)
  | 0, _, _ => .throw _
  | fuel + 1, slots, map => by
    refine .bind (nextKey_built (fieldKey_built _) map) fun r => ?_
    obtain ⟨key, map'⟩ := r
    cases key with
    | some key =>
      exact .bind (fieldEntry_built h slots map' key) fun slots' =>
        fieldEntries_built h fuel slots' map'
    | none => exact .pure _

theorem structVisitor_built {fields : List FieldDe} (h : ∀ field ∈ fields, Built field.value) :
    VisitorBuilt (structVisitor fields) where
  seq := by
    intro access
    refine .bind (positional_built ?_ _ _) fun _ => .pure _
    intro part hpart
    obtain ⟨field, hfield, rfl⟩ := List.mem_map.mp hpart
    exact h field hfield
  map := fun _ => .bind .budget fun _ => .bind (fieldEntries_built h _ _ _) fun _ =>
    .bind (.ofExcept _) fun _ => .pure _

/-- The parts of a variant are read by these steps. -/
def VariantBuilt : VariantDe → Prop
  | .unit => True
  | .newtype de => Built de
  | .tuple parts => ∀ part ∈ parts, Built part
  | .struct fields => ∀ field ∈ fields, Built field.value

theorem VariantDe.read_built {variant : VariantDe} (h : VariantBuilt variant)
    (isMapWrapped : Bool) : Built (variant.read isMapWrapped) := by
  cases variant with
  | unit => exact .bind (unitVariant_built _) fun _ => .pure _
  | newtype de => exact newtypeVariant_built h
  | tuple parts => exact containerVariant_built (tupleVisitor_built h)
  | struct fields => exact containerVariant_built (structVisitor_built h)

theorem visitEnum_built {variants : List (List UInt8 × VariantDe)}
    (h : ∀ variant ∈ variants, VariantBuilt variant.2) (isMapWrapped : Bool) :
    Built (visitEnum variants isMapWrapped) := by
  refine .bind (deserializeSkipping_built (visitorBuilt_scalar rfl rfl)) fun i => ?_
  cases hi : variants[i]? with
  | none => exact .throw _
  | some variant =>
    exact .bind (VariantDe.read_built (h variant (List.mem_of_getElem? hi)) _) fun _ => .pure _

theorem withAttributesVisitor_built {attributes value : De Datum} (ha : Built attributes)
    (hv : Built value) : VisitorBuilt (withAttributesVisitor attributes value) where
  seq := by
    have hmissing : ∀ v : Option Datum, Built (orMissing v) := by
      intro v
      cases v with
      | some v => exact .pure _
      | none => exact .throw _
    intro access
    refine .bind (nextElement_built ha access) fun r => .bind (hmissing r.1) fun _ => ?_
    exact .bind (nextElement_built hv _) fun s => .bind (hmissing s.1) fun _ => .pure _
  map := visitMap_refuses_built rfl

end De

/-! ## Values -/

namespace YsonValue

theorem mapKey_built : Built mapKey.deserialize :=
  De.deserializeAny_built (De.visitorBuilt_scalar rfl rfl)

theorem visitSeqLoop_built {element : De YsonValue} (h : Built element) :
    ∀ (fuel : Nat) (vec : List YsonValue) (seq : SeqAccess),
      Built (visitSeqLoop element fuel vec seq)
  | 0, _, _ => .throw _
  | fuel + 1, vec, seq => by
    refine .bind (De.nextElement_built h seq) fun r => ?_
    obtain ⟨elem, seq'⟩ := r
    cases elem with
    | some elem => exact visitSeqLoop_built h fuel _ seq'
    | none => exact .pure _

theorem visitMapLoop_built {value : De YsonValue} (h : Built value) :
    ∀ (fuel : Nat) (parts : MapParts) (map : MapAccess),
      Built (visitMapLoop value fuel parts map)
  | 0, _, _ => .throw _
  | fuel + 1, parts, map => by
    refine .bind (De.nextKey_built mapKey_built map) fun r => ?_
    obtain ⟨key, map'⟩ := r
    cases key with
    | some key =>
      exact .bind (De.nextValue_built h map') fun v => visitMapLoop_built h fuel _ map'
    | none => exact .pure _

theorem deserialize_built : ∀ fuel : Nat, Built (deserialize fuel)
  | 0 => .throw _
  | fuel + 1 => by
    have h := deserialize_built fuel
    refine De.deserializeAny_built ⟨fun access => ?_, fun access => ?_⟩
    · exact .bind .budget fun _ => .bind (visitSeqLoop_built h _ _ _) fun _ => .pure _
    · exact .bind .budget fun _ => .bind (visitMapLoop_built h _ _ _) fun _ =>
        .bind (.ofExcept _) fun _ => .pure _

end YsonValue

/-! ## Types -/

variable [FloatCasts]

open De

mutual

/-- **Every type is read by peeks and tokens.** -/
theorem Ty.decode_built : ∀ t : Ty, Built t.decode
  | .unit | .bool | .int _ | .f32 | .f64 | .char =>
    deserializeSkipping_built (visitorBuilt_scalar rfl rfl)
  | .str => .bind (deserializeSkipping_built (visitorBuilt_scalar rfl rfl)) fun _ => .pure _
  | .bytes => deserializeSkipping_built byteBufVisitor_built
  | .option t => .bind (deserializeOption_built t.decode_built) fun _ => .pure _
  | .seq t => deserializeSkipping_built (vecVisitor_built t.decode_built)
  | .tuple ts => deserializeSkipping_built (tupleVisitor_built (decodeParts_built ts))
  | .newtypeStruct t => deserializeSkipping_built (newtypeVisitor_built t.decode_built)
  | .map t => deserializeSkipping_built (mapVisitor_built t.decode_built)
  | .struct fields =>
    deserializeStruct_built _ _ (structVisitor_built (decodeFields_built fields))
  | .enum variants =>
    deserializeEnum_built (visitEnum_built (decodeVariants_built variants))
  | .withAttributes attributes value =>
    deserializeStruct_built _ _
      (withAttributesVisitor_built attributes.decode_built value.decode_built)

theorem decodeParts_built : ∀ ts : List Ty, ∀ part ∈ decodeParts ts, Built part
  | [] => List.forall_mem_nil _
  | t :: ts => List.forall_mem_cons.mpr ⟨t.decode_built, decodeParts_built ts⟩

theorem decodeFields_built : ∀ fields : List (List UInt8 × Ty × Option Datum),
    ∀ field ∈ decodeFields fields, Built field.value
  | [] => List.forall_mem_nil _
  | (_, t, _) :: fields => List.forall_mem_cons.mpr ⟨t.decode_built, decodeFields_built fields⟩

theorem decodeVariants_built : ∀ variants : List (List UInt8 × Variant),
    ∀ variant ∈ decodeVariants variants, VariantBuilt variant.2
  | [] => List.forall_mem_nil _
  | (_, variant) :: variants =>
    List.forall_mem_cons.mpr ⟨variant.decode_built, decodeVariants_built variants⟩

theorem Variant.decode_built : ∀ variant : Variant, VariantBuilt variant.decode
  | .unit => trivial
  | .newtype t => t.decode_built
  | .tuple ts => decodeParts_built ts
  | .struct fields => decodeFields_built fields

end

end Ytsaurus.Yson
