import Ytsaurus.Proof.Separators

/-!
# `Proof/Consumed.lean` — a typed decode consumes one value

A struct read from a list asks for every field that has a default, also after it was told
that the list is over; what it is then given is whatever follows the list. That is the one way
in which the decode of a document leaves the document. A second one needs a `;` missing behind the
variant in the map of an enum: the loop that looks for the end of the variant does not count
brackets, and stops at the first one inside what follows.

`Ty.aligned` says of a type and a document that neither happens anywhere in it. It follows the
type and the document together, through the parts that the type's visitor reads: a struct's
fields by their places where it is read from a list, and by their names where it is read from a
map. Where it holds, a decode that succeeds stands exactly behind the document
(`Ty.decode_covers`).

Nothing else is asked of the document. It may lack a `;` or have one too many, and the values in it
may have one attribute block behind another. A reader that steps over one `;` refuses a second
(`Ty.decode_refuses`), and a value with a second block is offered to a visitor of maps, which reads
it whole or not at all.

A type of this module is what a derived `Deserialize` can be made of: scalars, strings, options,
sequences, tuples, maps, structs with defaults, enums, and attributes beside a value. The induction
is on the type, and each case is one lemma of `Proof/Covers.lean`, `Proof/Entries.lean` or
`Proof/Separators.lean` with the hypotheses of the parts put in. A type in attribute position is a
case of its own: it is given the entries of the block, and reads the block and nothing more.
-/

set_option autoImplicit false

namespace Ytsaurus.Yson

/-! ## Types and documents that go together -/

/-- A struct that asks for its attributes. -/
def hasAttributeField (fields : List (List UInt8 × Ty × Option Datum)) : Bool :=
  fields.any fun f => f.1.head? == some 0x40

mutual

/-- No struct with defaults is read from a list that lacks more than its last field, no enum from
a map that seems closed by a bracket inside of it, and the attributes of `WithAttributes` are a
type that reads the block only. -/
def Ty.aligned : Ty → Doc → Bool
  | .option t, d => d.bare.isEntity || t.aligned d.bare
  | .seq t, d => d.bare.elements.all t.aligned
  | .tuple ts, d => partsAligned ts d.bare.elements
  | .newtypeStruct t, d => (d.bare.elements.take 1).all t.aligned
  | .map t, d => d.bare.offered.all fun e => t.aligned e.2
  | .struct fields, d =>
    if hasAttributeField fields then d.flatEntries.all fun e => fieldAligned fields e.1 e.2
    else (!d.bare.isList || fieldsAligned fields d.bare.elements) &&
      d.bare.offered.all fun e => fieldAligned fields e.1 e.2
  | .enum variants, d => d.bare.variantEnds &&
      (d.bare.entries.take 1).all fun e => variantAligned variants e.1 e.2
  | .withAttributes attributes value, d => attributes.alignedBlock d && value.aligned d.bare
  | _, _ => true

/-- As attributes of this document. -/
def Ty.alignedBlock : Ty → Doc → Bool
  | .option t, d => t.alignedBlock d
  | .map t, d => d.blockEntries.all fun e => t.aligned e.2
  | .struct fields, d =>
    !hasAttributeField fields && d.blockEntries.all fun e => fieldAligned fields e.1 e.2
  | .withAttributes _ _, _ => false
  | _, _ => true

def partsAligned : List Ty → List Doc → Bool
  | t :: ts, d :: ds => t.aligned d && partsAligned ts ds
  | _, _ => true

/-- The fields read one after another. -/
def fieldsAligned : List (List UInt8 × Ty × Option Datum) → List Doc → Bool
  | (_, t, _) :: fields, d :: ds => t.aligned d && fieldsAligned fields ds
  | (_, _, default) :: fields, [] => fields.isEmpty || default.isNone
  | [], _ => true

/-- The field with this name. -/
def fieldAligned : List (List UInt8 × Ty × Option Datum) → List UInt8 → Doc → Bool
  | (name, t, _) :: fields, k, d => if name == k then t.aligned d else fieldAligned fields k d
  | [], _, _ => true

def variantAligned : List (List UInt8 × Variant) → List UInt8 → Doc → Bool
  | (name, variant) :: variants, k, d =>
    if name == k then variant.aligned d else variantAligned variants k d
  | [], _, _ => true

def Variant.aligned : Variant → Doc → Bool
  | .unit, _ => true
  | .newtype t, d => t.aligned d
  | .tuple ts, d => partsAligned ts d.bare.elements
  | .struct fields, d => (!d.bare.isList || fieldsAligned fields d.bare.elements) &&
      d.bare.offered.all fun e => fieldAligned fields e.1 e.2

end

namespace De

variable {α : Type} [FloatText]

/-! ## What a visitor covers, by what it implements -/

theorem visitorCovers_scalar {visitor : Visitor α} {e e' : YsonError} (d : Doc)
    (hseq : visitor.visitSeq = fun _ => throw e) (hmap : visitor.visitMap = fun _ => throw e') :
    VisitorCovers visitor d := by
  cases d with
  | list items trail => exact seqCovers_refuses hseq
  | map pairs trail => exact mapCovers_refuses hmap
  | attributed pairs trail body => exact mapCovers_refuses hmap
  | scalar | entity => trivial

theorem visitorCovers_seq {visitor : Visitor α} {e : YsonError} {d : Doc}
    (hseq : ∀ items : List (Nat × Doc), items.map Prod.snd = d.elements → SeqCovers visitor items)
    (hmap : visitor.visitMap = fun _ => throw e) : VisitorCovers visitor d := by
  cases d with
  | list items trail => exact hseq items rfl
  | map pairs trail => exact mapCovers_refuses hmap
  | attributed pairs trail body => exact mapCovers_refuses hmap
  | scalar | entity => trivial

theorem visitorCovers_map {visitor : Visitor α} {e : YsonError} {d : Doc}
    (hseq : visitor.visitSeq = fun _ => throw e) (hmap : MapCovers visitor d.offered) :
    VisitorCovers visitor d := by
  cases d with
  | list items trail => exact seqCovers_refuses hseq
  | map pairs trail => exact hmap
  | attributed pairs trail body => exact hmap
  | scalar | entity => trivial

theorem structVisitor_covers {fields : List FieldDe} {d : Doc}
    (hrefuse : ∀ field ∈ fields, Refuses field.value)
    (hfits : d.isList = true → Fits (fields.map FieldDe.part) d.elements)
    (hentries : FieldsCover fields d.offered) : VisitorCovers (structVisitor fields) d := by
  cases d with
  | list items trail => exact structVisitor_seq hrefuse (hfits rfl)
  | map pairs trail => exact structVisitor_map hentries
  | attributed pairs trail body => exact structVisitor_map hentries
  | scalar | entity => trivial

theorem elements_of_items {element : De α} {items : List (Nat × Doc)} {ds : List Doc}
    (hitems : items.map Prod.snd = ds) (h : ∀ d ∈ ds, Covers element d) :
    ∀ p ∈ items, Covers element p.2 := by
  intro p hp
  refine h p.2 ?_
  rw [← hitems]
  exact List.mem_map_of_mem hp

theorem u8_covers (d : Doc) : Covers u8 d := by
  intro limit depth de it' hready hlex hstop
  have hvisit : VisitorCovers (intVisitor .u8) d.bare := visitorCovers_scalar d.bare rfl rfl
  refine (deserializeSkipping_covers hvisit hready hlex hstop).bind ?_
  intro v de' hstands
  cases v with
  | int n => exact .ok hstands
  | _ => exact .error _

theorem u8_refuses : Refuses u8 := Refuses.bind (Refuses.skipping _) _

theorem vecVisitor_covers {element : De Datum} {d : Doc} (hrefuse : Refuses element)
    (h : ∀ e ∈ d.elements, Covers element e) : VisitorCovers (vecVisitor element) d :=
  visitorCovers_seq (fun _ hitems => elements_covers (f := Datum.seq) rfl hrefuse
    (elements_of_items hitems h)) rfl

theorem byteBufVisitor_covers (d : Doc) : VisitorCovers byteBufVisitor d :=
  visitorCovers_seq (fun _ hitems => elements_covers (f := Datum.bytes) rfl u8_refuses
    (elements_of_items hitems fun e _ => u8_covers e)) rfl

end De

/-! ## Every type -/

variable [FloatText] [FloatCasts]

open De

omit [FloatCasts] in
theorem deserializeStruct_plain {fields : List (List UInt8 × Ty × Option Datum)}
    (h : hasAttributeField fields = false) (visitor : Visitor Datum) :
    deserializeStruct [] (fields.map fun f => f.1) visitor = deserializeSkipping visitor := by
  have hname : ([] : List UInt8) ≠ attributesStruct := by decide +kernel
  have hany : ((fields.map fun f => f.1).any fun f => f.head? == some 0x40) = false := by
    rw [List.any_map]
    exact h
  rw [deserializeStruct, if_neg hname, hany]
  rfl

omit [FloatCasts] in
theorem deserializeStruct_flat {fields : List (List UInt8 × Ty × Option Datum)}
    (h : hasAttributeField fields = true) (visitor : Visitor Datum) :
    deserializeStruct [] (fields.map fun f => f.1) visitor = visitFlatStruct visitor := by
  have hname : ([] : List UInt8) ≠ attributesStruct := by decide +kernel
  have hany : ((fields.map fun f => f.1).any fun f => f.head? == some 0x40) = true := by
    rw [List.any_map]
    exact h
  rw [deserializeStruct, if_neg hname, hany]
  rfl

mutual

/-- **Every type refuses a `;`.** -/
theorem Ty.decode_refuses : ∀ t : Ty, Refuses t.decode
  | .unit => Refuses.skipping _
  | .bool => Refuses.skipping _
  | .int _ => Refuses.skipping _
  | .f32 => Refuses.skipping _
  | .f64 => Refuses.skipping _
  | .char => Refuses.skipping _
  | .str => Refuses.bind (Refuses.skipping _) _
  | .bytes => Refuses.skipping _
  | .option t => Refuses.bind (Refuses.option t.decode_refuses) _
  | .seq _ => Refuses.skipping _
  | .tuple _ => Refuses.skipping _
  | .newtypeStruct _ => Refuses.skipping _
  | .map _ => Refuses.skipping _
  | .struct fields => by
    rw [Ty.decode]
    cases hattr : hasAttributeField fields with
    | true =>
      rw [deserializeStruct_flat hattr]
      exact Refuses.flatStruct (decodeFields_refuses fields)
    | false =>
      rw [deserializeStruct_plain hattr]
      exact Refuses.skipping _
  | .enum _ => Refuses.enum _
  | .withAttributes attributes value => by
    rw [Ty.decode, deserializeStruct, if_pos rfl]
    exact fun hready => withAttributes_stops attributes.decode_stays value.decode_refuses
      hready.depth hready.limit

/-- **In attribute position no type moves past a `;`.** -/
theorem Ty.decode_stays : ∀ t : Ty, Stays t.decode
  | .unit => Stays.skipping (mapCovers_refuses rfl)
  | .bool => Stays.skipping (mapCovers_refuses rfl)
  | .int _ => Stays.skipping (mapCovers_refuses rfl)
  | .f32 => Stays.skipping (mapCovers_refuses rfl)
  | .f64 => Stays.skipping (mapCovers_refuses rfl)
  | .char => Stays.skipping (mapCovers_refuses rfl)
  | .str => by
    have hvisit : MapCovers stringVisitor [] := mapCovers_refuses rfl
    exact Stays.map (Stays.skipping hvisit) Datum.str
  | .bytes => Stays.skipping (mapCovers_refuses rfl)
  | .option t => Stays.map (Stays.option t.decode) optionDatum
  | .seq _ => Stays.skipping (mapCovers_refuses rfl)
  | .tuple _ => Stays.skipping (mapCovers_refuses rfl)
  | .newtypeStruct _ => Stays.skipping (mapCovers_refuses rfl)
  | .map _ => Stays.skipping (mapVisitor_covers fun _ he => absurd he List.not_mem_nil)
  | .struct fields => by
    rw [Ty.decode]
    cases hattr : hasAttributeField fields with
    | true =>
      rw [deserializeStruct_flat hattr]
      exact Stays.flatStruct (decodeFields_stays fields)
    | false =>
      rw [deserializeStruct_plain hattr]
      exact Stays.skipping (structVisitor_map fun _ he => absurd he List.not_mem_nil)
  | .enum _ => fun hflag hlex =>
    (deserializeEnum_flagged hflag hlex).imp fun _ _ hfalse => hfalse.elim
  | .withAttributes attributes value => by
    rw [Ty.decode, deserializeStruct, if_pos rfl]
    exact fun hflag hlex => (withAttributes_stops attributes.decode_stays value.decode_refuses
      hflag.depth hflag.limit hlex).imp fun _ _ hfalse => hfalse.elim

theorem decodeFields_refuses : ∀ fields : List (List UInt8 × Ty × Option Datum),
    ∀ field ∈ decodeFields fields, Refuses field.value
  | [], _, h => absurd h List.not_mem_nil
  | (_, t, _) :: fields, field, h => by
    rw [decodeFields] at h
    rcases List.mem_cons.mp h with rfl | h
    · exact t.decode_refuses
    · exact decodeFields_refuses fields field h

theorem decodeFields_stays : ∀ fields : List (List UInt8 × Ty × Option Datum),
    ∀ field ∈ decodeFields fields, Stays field.value
  | [], _, h => absurd h List.not_mem_nil
  | (_, t, _) :: fields, field, h => by
    rw [decodeFields] at h
    rcases List.mem_cons.mp h with rfl | h
    · exact t.decode_stays
    · exact decodeFields_stays fields field h

end

theorem decodeParts_refuses (ts : List Ty) : ∀ part ∈ decodeParts ts, Refuses part := by
  induction ts with
  | nil => exact fun _ h => absurd h List.not_mem_nil
  | cons t ts ih =>
    intro part h
    rw [decodeParts] at h
    rcases List.mem_cons.mp h with rfl | h
    · exact t.decode_refuses
    · exact ih part h

mutual

/-- **A type reads the documents that go with it.** -/
theorem Ty.decode_covers : ∀ (t : Ty) (d : Doc), t.aligned d = true → Covers t.decode d
  | .unit, d, _ => deserializeSkipping_covers (visitorCovers_scalar d.bare rfl rfl)
  | .bool, d, _ => deserializeSkipping_covers (visitorCovers_scalar d.bare rfl rfl)
  | .int k, d, _ => deserializeSkipping_covers (visitorCovers_scalar d.bare rfl rfl)
  | .f32, d, _ => deserializeSkipping_covers (visitorCovers_scalar d.bare rfl rfl)
  | .f64, d, _ => deserializeSkipping_covers (visitorCovers_scalar d.bare rfl rfl)
  | .char, d, _ => deserializeSkipping_covers (visitorCovers_scalar d.bare rfl rfl)
  | .str, d, _ => by
    have hvisit : VisitorCovers stringVisitor d.bare := visitorCovers_scalar d.bare rfl rfl
    exact Covers.map (deserializeSkipping_covers hvisit) Datum.str
  | .bytes, d, _ => deserializeSkipping_covers (byteBufVisitor_covers d.bare)
  | .option t, d, h => by
    rw [Ty.aligned, Bool.or_eq_true] at h
    refine Covers.map (deserializeOption_covers fun hsome => ?_) optionDatum
    rcases h with h | h
    · cases hbare : d.bare with
      | entity => exact absurd hbare hsome
      | scalar | list | map | attributed =>
        rw [hbare] at h
        cases h
    · exact t.decode_covers d.bare h
  | .seq t, d, h => by
    rw [Ty.aligned, List.all_eq_true] at h
    refine deserializeSkipping_covers (vecVisitor_covers t.decode_refuses fun e he => ?_)
    exact t.decode_covers e (h e he)
  | .tuple ts, d, h => by
    refine deserializeSkipping_covers (visitorCovers_seq (fun items hitems => ?_) rfl)
    refine tupleVisitor_seq (decodeParts_refuses ts) ?_
    rw [hitems]
    exact decodeParts_fits ts d.bare.elements h
  | .newtypeStruct t, d, h => by
    rw [Ty.aligned, List.all_eq_true] at h
    refine deserializeSkipping_covers (visitorCovers_seq (fun items hitems => ?_) rfl)
    refine newtypeVisitor_seq t.decode_refuses ?_
    rw [hitems]
    cases hds : d.bare.elements with
    | nil => exact Or.inl rfl
    | cons e ds =>
      rw [hds] at h
      have he : Covers t.decode e := t.decode_covers e (h e (by simp))
      exact ⟨he, trivial⟩
  | .map t, d, h => by
    rw [Ty.aligned, List.all_eq_true] at h
    refine deserializeSkipping_covers (visitorCovers_map rfl (mapVisitor_covers fun e he => ?_))
    exact t.decode_covers e.2 (h e he)
  | .struct fields, d, h => by
    rw [Ty.decode]
    cases hattr : hasAttributeField fields with
    | true =>
      rw [Ty.aligned, hattr, if_pos rfl, List.all_eq_true] at h
      rw [deserializeStruct_flat hattr]
      refine visitFlatStruct_covers (structVisitor_map fun e he => ?_)
      exact decodeFields_field fields e.1 e.2 (h e he)
    | false =>
      rw [Ty.aligned, hattr, if_neg Bool.false_ne_true, Bool.and_eq_true, List.all_eq_true] at h
      rw [deserializeStruct_plain hattr]
      refine deserializeSkipping_covers (structVisitor_covers (decodeFields_refuses fields)
        (fun hlist => ?_) fun e he => decodeFields_field fields e.1 e.2 (h.2 e he))
      apply decodeFields_fits fields d.bare.elements
      rcases Bool.or_eq_true_iff.mp h.1 with hnot | hfields
      · rw [hlist] at hnot
        cases hnot
      · exact hfields
  | .enum variants, d, h => by
    rw [Ty.aligned, Bool.and_eq_true, List.all_eq_true] at h
    obtain ⟨hends, h⟩ := h
    refine deserializeEnum_covers hends fun n k v pairs trail hbare => ?_
    have hentries : d.bare.entries = (k, v) :: mapEntries pairs := by
      rw [hbare]
      rfl
    rw [hentries] at h
    exact decodeVariants_variant variants k v (h (k, v) (by simp))
  | .withAttributes attributes value, d, h => by
    rw [Ty.aligned, Bool.and_eq_true] at h
    rw [Ty.decode, deserializeStruct, if_pos rfl]
    exact withAttributes_covers (attributes.decode_block d h.1) (value.decode_covers d.bare h.2)

/-- **A type in attribute position reads the block and nothing more.** -/
theorem Ty.decode_block : ∀ (t : Ty) (d : Doc), t.alignedBlock d = true →
    ReadsBlock t.decode d
  | .unit, _, _ => deserializeSkipping_block (mapCovers_refuses rfl)
  | .bool, _, _ => deserializeSkipping_block (mapCovers_refuses rfl)
  | .int k, _, _ => deserializeSkipping_block (mapCovers_refuses rfl)
  | .f32, _, _ => deserializeSkipping_block (mapCovers_refuses rfl)
  | .f64, _, _ => deserializeSkipping_block (mapCovers_refuses rfl)
  | .char, _, _ => deserializeSkipping_block (mapCovers_refuses rfl)
  | .str, d, _ => by
    have hvisit : MapCovers stringVisitor d.blockEntries := mapCovers_refuses rfl
    exact ReadsBlock.map (deserializeSkipping_block hvisit) Datum.str
  | .bytes, _, _ => deserializeSkipping_block (mapCovers_refuses rfl)
  | .option t, d, h => ReadsBlock.map (deserializeOption_block (t.decode_block d h)) optionDatum
  | .seq t, _, _ => deserializeSkipping_block (mapCovers_refuses rfl)
  | .tuple ts, _, _ => deserializeSkipping_block (mapCovers_refuses rfl)
  | .newtypeStruct t, _, _ => deserializeSkipping_block (mapCovers_refuses rfl)
  | .map t, d, h => by
    rw [Ty.alignedBlock, List.all_eq_true] at h
    refine deserializeSkipping_block (mapVisitor_covers fun e he => ?_)
    exact t.decode_covers e.2 (h e he)
  | .struct fields, d, h => by
    rw [Ty.alignedBlock, Bool.and_eq_true, List.all_eq_true] at h
    rw [Ty.decode, deserializeStruct_plain (by simpa using h.1)]
    refine deserializeSkipping_block (structVisitor_map fun e he => ?_)
    exact decodeFields_field fields e.1 e.2 (h.2 e he)
  | .enum variants, _, _ => deserializeEnum_block
  | .withAttributes _ _, _, h => by
    rw [Ty.alignedBlock] at h
    cases h

theorem decodeParts_fits : ∀ (ts : List Ty) (ds : List Doc), partsAligned ts ds = true →
    Fits ((decodeParts ts).map required) ds
  | [], _, _ => trivial
  | _ :: _, [], _ => Or.inr rfl
  | t :: ts, d :: ds, h => by
    rw [partsAligned, Bool.and_eq_true] at h
    exact ⟨t.decode_covers d h.1, decodeParts_fits ts ds h.2⟩

theorem decodeFields_fits : ∀ (fields : List (List UInt8 × Ty × Option Datum)) (ds : List Doc),
    fieldsAligned fields ds = true → Fits ((decodeFields fields).map FieldDe.part) ds
  | [], _, _ => trivial
  | (_, _, default) :: fields, [], h => by
    rw [fieldsAligned, Bool.or_eq_true] at h
    rcases h with h | h
    · rw [List.isEmpty_iff.mp h]
      exact Or.inl rfl
    · exact Or.inr (Option.isNone_iff_eq_none.mp h)
  | (_, t, _) :: fields, d :: ds, h => by
    rw [fieldsAligned, Bool.and_eq_true] at h
    exact ⟨t.decode_covers d h.1, decodeFields_fits fields ds h.2⟩

theorem decodeFields_field : ∀ (fields : List (List UInt8 × Ty × Option Datum)) (k : List UInt8)
    (d : Doc), fieldAligned fields k d = true →
    ∀ i field, ((decodeFields fields).map FieldDe.name).findIdx? (· == k) = some i →
      (decodeFields fields)[i]? = some field → Covers field.value d
  | [], _, _, _ => fun _ _ hfind _ => by cases hfind
  | (name, t, default) :: fields, k, d, h => by
    intro i field hfind hi
    rw [fieldAligned] at h
    rw [decodeFields, List.map_cons, List.findIdx?_cons] at hfind
    rw [decodeFields] at hi
    split at h
    · rename_i hname
      rw [if_pos hname] at hfind
      cases hfind
      cases hi
      exact t.decode_covers d h
    · rename_i hname
      rw [if_neg hname] at hfind
      obtain ⟨j, hj, rfl⟩ := Option.map_eq_some_iff.mp hfind
      exact decodeFields_field fields k d h j field hj hi

theorem decodeVariants_variant : ∀ (variants : List (List UInt8 × Variant)) (k : List UInt8)
    (d : Doc), variantAligned variants k d = true → VariantsCover (decodeVariants variants) k d
  | [], _, _, _ => fun _ _ hfind _ => by cases hfind
  | (name, variant) :: variants, k, d, h => by
    intro i x hfind hi
    rw [variantAligned] at h
    rw [decodeVariants, List.map_cons, List.findIdx?_cons] at hfind
    rw [decodeVariants] at hi
    split at h
    · rename_i hname
      rw [if_pos hname] at hfind
      cases hfind
      cases hi
      exact variant.decode_covers d h
    · rename_i hname
      rw [if_neg hname] at hfind
      obtain ⟨j, hj, rfl⟩ := Option.map_eq_some_iff.mp hfind
      exact decodeVariants_variant variants k d h j x hj hi

theorem Variant.decode_covers : ∀ (variant : Variant) (d : Doc), variant.aligned d = true →
    VariantCovers variant.decode d
  | .unit, _, _ => trivial
  | .newtype t, d, h => t.decode_covers d h
  | .tuple ts, d, h => by
    refine deserializeSkipping_covers (visitorCovers_seq (fun items hitems => ?_) rfl)
    refine tupleVisitor_seq (decodeParts_refuses ts) ?_
    rw [hitems]
    exact decodeParts_fits ts d.bare.elements h
  | .struct fields, d, h => by
    rw [Variant.aligned, Bool.and_eq_true, List.all_eq_true] at h
    refine deserializeSkipping_covers (structVisitor_covers (decodeFields_refuses fields)
      (fun hlist => ?_) fun e he => decodeFields_field fields e.1 e.2 (h.2 e he))
    apply decodeFields_fits fields d.bare.elements
    rcases Bool.or_eq_true_iff.mp h.1 with hnot | hfields
    · rw [hlist] at hnot
      cases hnot
    · exact hfields

end

end Ytsaurus.Yson
