import Ytsaurus.Proof.RoundTrip
import Ytsaurus.Proof.Strings

/-!
# `Proof/Reencode.lean` — what the decoder returns can be written back

The converse question to the round trip: here the bytes come first. A decoded value has its maps
in order, its attributes absent rather than empty, no key with a meaning of its own left in a map,
no string longer than the input, and it nests no deeper when written out than the document it was
read from. `YsonValue.Settled` has these in three fields, and `Doc.value_settled` says that every
value of a document is settled at the depth it was read at.

The work is in `visit_map`. Its four locals (`MapParts`) take entries in any order and with any
repetition: attributes, the body under `$value`, plain entries, each possibly again under the same
name. `MapParts.Settled` is what holds between two entries, and `MapParts.Settled.add` is the
step; what is finished from settled parts is a settled value (`Settled.mk'`). The depth has to be
carried along because the body behind a block is read one level down and written where the block
stands.

So writing a decoded value and reading it again is the round trip of `Proof/RoundTrip.lean`, with
all of its assumptions discharged but those about doubles. What is left is the same exception: an
empty map with attributes. Its own document is read as the entity, so it takes an input that spells
`$value` out as a key to decode one (`reencode_literal_keys`).
-/

set_option autoImplicit false

namespace Ytsaurus.Yson

/-! ## Fitting -/

theorem Doc.Fits.mono {limit depth depth' : Nat} {d : Doc} (h : d.Fits limit depth')
    (hle : depth ≤ depth') : d.Fits limit depth := by
  simp only [Fits] at h ⊢
  omega

theorem Doc.Fits.depth_le {limit depth : Nat} {d : Doc} (h : d.Fits limit depth) :
    depth ≤ limit := by
  simp only [Fits] at h
  omega

/-- A body whose entries fit one level down fits where it stands. -/
theorem body_fits {limit depth : Nat} {body : Doc} (hlimit : depth + 1 ≤ limit)
    (h : ∀ e ∈ bodyEntries body, e.2.Fits limit (depth + 1)) : body.Fits limit depth := by
  cases body with
  | map pairs trail => exact Doc.fits_map.mpr ⟨hlimit, h⟩
  | entity => exact Nat.le_of_succ_le hlimit
  | _ => exact (h _ (List.mem_singleton.mpr rfl)).mono (Nat.le_succ depth)

theorem bodyEntries_fit {limit depth : Nat} {body : Doc} (h : body.Fits limit depth) :
    ∀ e ∈ bodyEntries body, e.2.Fits limit depth := by
  cases body with
  | map pairs trail => exact fun e he => ((Doc.fits_map.mp h).2 e he).mono (Nat.le_succ depth)
  | entity => simp [bodyEntries]
  | _ =>
    intro e he
    rw [List.mem_singleton.mp he]
    exact h

/-! ## Keys -/

/-- The name an attribute key carries, or the plain key, fits in memory. -/
def KeyFits (key : List UInt8) : Prop :=
  (∀ name, key = 0x40 :: name → name.length ≤ isizeMax) ∧
    (isPlainKey key → key.length ≤ isizeMax)

theorem keyFits_of_length {key : List UInt8} (h : key.length ≤ isizeMax) : KeyFits key :=
  ⟨fun name hname => by rw [hname, List.length_cons] at h; omega, fun _ => h⟩

theorem keyFits_attribute {name : List UInt8} (h : name.length ≤ isizeMax) :
    KeyFits (0x40 :: name) :=
  ⟨fun _ heq => (List.cons.inj heq).2 ▸ h, fun hplain => by cases hplain⟩

theorem IsBTreeMap.nil : IsBTreeMap [] := ⟨.nil, by simp⟩

theorem IsBTreeMap.insert {es : List (List UInt8 × YsonValue)} (h : IsBTreeMap es)
    {k : List UInt8} (hk : k.length ≤ isizeMax) (v : YsonValue) :
    IsBTreeMap (SortedMap.insert k v es) := by
  refine ⟨h.sorted.insert, fun e he => ?_⟩
  rcases SortedMap.mem_insert he with rfl | he
  · exact hk
  · exact h.keys e he

theorem IsBTreeMap.extend {es es' : List (List UInt8 × YsonValue)} (h : IsBTreeMap es)
    (h' : ∀ e ∈ es', e.1.length ≤ isizeMax) : IsBTreeMap (SortedMap.extend es es') := by
  refine ⟨h.sorted.extend es', fun e he => ?_⟩
  rcases SortedMap.mem_extend he with he | he
  · exact h.keys e he
  · exact h' e he

/-! ## Settled values -/

/-- At nesting depth `depth` the value can be written out and read back. -/
structure YsonValue.Settled (limit depth : Nat) (v : YsonValue) : Prop where
  valid : v.All Valid
  unambiguous : v.All Unambiguous
  fits : v.doc.Fits limit depth

namespace YsonValue

variable {limit depth : Nat}

/-- A value put together from attributes and a node. -/
theorem Settled.mk' {es : List (List UInt8 × YsonValue)} {node : YsonNode}
    (hlimit : depth + 1 ≤ limit) (hmap : IsBTreeMap es)
    (hes : ∀ e ∈ es, e.2.Settled limit (depth + 1)) (hvalid : (YsonValue.bare node).All Valid)
    (hkeys : (YsonValue.bare node).All Unambiguous)
    (hfits : ∀ e ∈ bodyEntries node.doc, e.2.Fits limit (depth + 1)) :
    Settled limit depth ⟨if es.isEmpty then none else some es, node⟩ := by
  have hinside : ∀ {P : YsonValue → Prop}, (∀ e ∈ es, e.2.All P) → (YsonValue.bare node).All P →
      P ⟨some es, node⟩ → (⟨some es, node⟩ : YsonValue).All P := by
    intro P hattr hnode h
    refine .intro h fun w hw => ?_
    rcases List.mem_append.mp hw with hw | hw
    · obtain ⟨e, he, rfl⟩ := List.mem_map.mp hw
      exact hattr e he
    · exact hnode.inside w (mem_node_children hw)
  cases es with
  | nil => exact ⟨hvalid, hkeys, body_fits hlimit hfits⟩
  | cons e es =>
    refine ⟨hinside (fun e he => (hes e he).valid) hvalid
        ⟨hmap, hvalid.here.map, hvalid.here.string⟩,
      hinside (fun e he => (hes e he).unambiguous) hkeys ⟨by simp, hkeys.here.keys⟩, ?_⟩
    refine Doc.fits_attributed.mpr ⟨hlimit, fun e' he' => ?_⟩
    rcases List.mem_append.mp he' with he' | he'
    · rw [attributeEntries_spaced] at he'
      obtain ⟨e'', he'', rfl⟩ := List.mem_map.mp he'
      exact forall_entriesDoc (P := fun d => d.Fits limit (depth + 1)) (fun w hw => by
        obtain ⟨e, he, rfl⟩ := List.mem_map.mp hw
        exact (hes e he).fits) e'' he''
    · exact hfits e' he'

/-- Without its attributes the value is settled too. -/
theorem Settled.bare {v : YsonValue} (h : v.Settled limit depth) :
    (YsonValue.bare v.node).Settled limit depth := by
  have hchildren : ∀ w ∈ (YsonValue.bare v.node).children, w ∈ v.children :=
    fun w hw => List.mem_append_right _ (by
      simpa [children, YsonValue.bare, attributeList] using hw)
  refine ⟨.intro h.valid.here.bare fun w hw => h.valid.inside w (hchildren w hw),
    .intro h.unambiguous.here.bare fun w hw => h.unambiguous.inside w (hchildren w hw), ?_⟩
  obtain ⟨attributes, node⟩ := v
  have hfits := h.fits
  cases attributes with
  | none => exact hfits
  | some es =>
    cases es with
    | nil => exact hfits
    | cons e es =>
      obtain ⟨hlimit, hentries⟩ := Doc.fits_attributed.mp hfits
      exact body_fits hlimit fun e' he' => hentries e' (List.mem_append_right _ he')

theorem Settled.attribute {v : YsonValue} (h : v.Settled limit depth) :
    ∀ e ∈ v.attributeList, e.2.Settled limit depth := by
  intro e he
  have hmem := mem_attributes_children he
  refine ⟨h.valid.inside _ hmem, h.unambiguous.inside _ hmem, ?_⟩
  obtain ⟨attributes, node⟩ := v
  have hfits := h.fits
  cases attributes with
  | none => cases he
  | some es =>
    cases es with
    | nil => cases he
    | cons e' es =>
      have hentries := (Doc.fits_attributed.mp hfits).2 (0x40 :: e.1, e.2.doc)
        (List.mem_append_left _ (by
          rw [attributeEntries_spaced, entriesDoc_eq, List.map_map]
          exact List.mem_map.mpr ⟨e, he, rfl⟩))
      exact hentries.mono (Nat.le_succ depth)

/-! ## Adding entries -/

/-- The four locals of `visit_map`, between two entries. -/
structure MapParts.Settled (limit depth : Nat) (parts : MapParts) : Prop where
  attributeMap : IsBTreeMap parts.attributes
  attributes : ∀ e ∈ parts.attributes, e.2.Settled limit depth
  plainMap : IsBTreeMap parts.plainMap
  plainKeys : ∀ e ∈ parts.plainMap, isPlainKey e.1
  plain : ∀ e ∈ parts.plainMap, e.2.Settled limit depth
  body : ∀ node, parts.bodyNode = some node → (YsonValue.bare node).Settled limit depth

theorem MapParts.Settled.new : MapParts.new.Settled limit depth :=
  ⟨.nil, by simp [MapParts.new], .nil, by simp [MapParts.new], by simp [MapParts.new],
    by simp [MapParts.new]⟩

theorem MapParts.Settled.add {parts : MapParts} (h : parts.Settled limit depth)
    {key : List UInt8} (hkey : KeyFits key) {v : YsonValue} (hv : v.Settled limit depth) :
    (parts.add key v).Settled limit depth := by
  rcases key_cases key with ⟨name, rfl⟩ | rfl | hplain
  · rw [MapParts.add_attribute]
    refine ⟨h.attributeMap.insert (hkey.1 name rfl) v, fun e he => ?_, h.plainMap, h.plainKeys,
      h.plain, h.body⟩
    rcases SortedMap.mem_insert he with rfl | he
    · exact hv
    · exact h.attributes e he
  · rw [MapParts.add_value]
    refine ⟨h.attributeMap.extend hv.valid.here.attributes.keys, fun e he => ?_, h.plainMap,
      h.plainKeys, h.plain, fun node hnode => ?_⟩
    · rcases SortedMap.mem_extend he with he | he
      · exact h.attributes e he
      · exact hv.attribute e he
    · cases hnode
      exact hv.bare
  · rw [MapParts.add_plain _ hplain]
    refine ⟨h.attributeMap, h.attributes, h.plainMap.insert (hkey.2 hplain) v, fun e he => ?_,
      fun e he => ?_, h.body⟩
    · rcases SortedMap.mem_insert he with rfl | he
      · exact hplain
      · exact h.plainKeys e he
    · rcases SortedMap.mem_insert he with rfl | he
      · exact hv
      · exact h.plain e he

theorem MapParts.Settled.addAll {es : List (List UInt8 × YsonValue)}
    (hes : ∀ e ∈ es, KeyFits e.1 ∧ e.2.Settled limit depth) : ∀ {parts : MapParts},
      parts.Settled limit depth → (parts.addAll es).Settled limit depth := by
  induction es with
  | nil => exact fun h => h
  | cons e es ih =>
    intro parts h
    obtain ⟨hkey, hv⟩ := hes e List.mem_cons_self
    exact ih (fun e' he' => hes e' (List.mem_cons_of_mem _ he')) (h.add hkey hv)

/-- The plain entries, as the node of a value. -/
theorem MapParts.Settled.map {parts : MapParts} (h : parts.Settled limit depth) :
    (YsonValue.bare (.map parts.plainMap)).All Valid ∧
      (YsonValue.bare (.map parts.plainMap)).All Unambiguous ∧
      ∀ e ∈ bodyEntries (YsonNode.map parts.plainMap).doc, e.2.Fits limit depth := by
  have hchildren : ∀ w ∈ (YsonValue.bare (.map parts.plainMap)).children,
      ∃ e ∈ parts.plainMap, e.2 = w := fun w hw => by
    simpa [children, YsonValue.bare, attributeList, YsonNode.children] using hw
  refine ⟨.intro ⟨.nil, ?_, by simp [YsonValue.bare]⟩ ?_, .intro ⟨by simp [YsonValue.bare], ?_⟩ ?_,
    ?_⟩
  · rintro es ⟨⟩
    exact h.plainMap
  · intro w hw
    obtain ⟨e, he, rfl⟩ := hchildren w hw
    exact (h.plain e he).valid
  · rintro es ⟨⟩
    exact h.plainKeys
  · intro w hw
    obtain ⟨e, he, rfl⟩ := hchildren w hw
    exact (h.plain e he).unambiguous
  · rw [YsonNode.doc, bodyEntries, mapEntries_spaced]
    exact forall_entriesDoc (P := fun d => d.Fits limit depth) fun w hw => by
      obtain ⟨e, he, rfl⟩ := List.mem_map.mp hw
      exact (h.plain e he).fits

theorem entity_settled (h : depth ≤ limit) : (YsonValue.bare .entity).Settled limit depth := by
  refine ⟨.intro ⟨.nil, ?_, ?_⟩ ?_, .intro ⟨?_, ?_⟩ ?_, h⟩ <;>
    simp [YsonValue.bare, children, attributeList, YsonNode.children]

theorem MapParts.Settled.finish {parts : MapParts} (h : parts.Settled limit (depth + 1))
    (hlimit : depth + 1 ≤ limit) {v : YsonValue} (hv : parts.finish = .ok v) :
    v.Settled limit depth := by
  obtain ⟨hmapValid, hmapKeys, hmapFits⟩ := h.map
  have hbody : ∀ node, (YsonValue.bare node).Settled limit (depth + 1) →
      YsonValue.Settled limit depth
        ⟨if parts.attributes.isEmpty then none else some parts.attributes, node⟩ :=
    fun node hnode => .mk' hlimit h.attributeMap h.attributes hnode.valid hnode.unambiguous
      (bodyEntries_fit hnode.fits)
  have hplain : ∀ es, IsBTreeMap es → (∀ e ∈ es, e.2.Settled limit (depth + 1)) →
      YsonValue.Settled limit depth
        ⟨if es.isEmpty then none else some es, .map parts.plainMap⟩ :=
    fun es hes hsettled => .mk' hlimit hes hsettled hmapValid hmapKeys hmapFits
  rw [MapParts.finish] at hv
  split at hv
  · simp only at hv
    split at hv
    · cases hv
      cases hnode : parts.bodyNode with
      | none => exact hbody _ (entity_settled hlimit)
      | some node => exact hbody node (h.body node hnode)
    · cases hv
    · cases hv
      exact hplain _ h.attributeMap h.attributes
  · cases hv
    exact hplain [] .nil (by simp)

end YsonValue

/-! ## The strings of an input -/

/-- Every string of the document fits in memory. -/
def Doc.StringsFit (d : Doc) : Prop := ∀ s, Token.string s ∈ d.toks → s.length ≤ isizeMax

theorem mem_itemsToks {items : List (Nat × Doc)} {p : Nat × Doc} (hp : p ∈ items) {t : Token}
    (ht : t ∈ p.2.toks) : t ∈ itemsToks items := by
  induction items with
  | nil => cases hp
  | cons q items ih =>
    rw [itemsToks, List.mem_append, List.mem_append]
    rcases List.mem_cons.mp hp with rfl | hp
    · exact .inr (.inl ht)
    · exact .inr (.inr (ih hp))

theorem mem_pairsToks {pairs : List (Nat × List UInt8 × Doc)} {p : Nat × List UInt8 × Doc}
    (hp : p ∈ pairs) : Token.string p.2.1 ∈ pairsToks pairs ∧ ∀ t ∈ p.2.2.toks, t ∈ pairsToks pairs := by
  induction pairs with
  | nil => cases hp
  | cons q pairs ih =>
    simp only [pairsToks, List.mem_append, List.mem_cons]
    rcases List.mem_cons.mp hp with rfl | hp
    · exact ⟨.inr (.inl rfl), fun t ht => .inr (.inr (.inr (.inl ht)))⟩
    · exact ⟨.inr (.inr (.inr (.inr (ih hp).1))),
        fun t ht => .inr (.inr (.inr (.inr ((ih hp).2 t ht))))⟩

theorem Doc.StringsFit.items {items : List (Nat × Doc)} {trail : Nat}
    (h : (Doc.list items trail).StringsFit) : ∀ p ∈ items, p.2.StringsFit :=
  fun p hp s hs => h s (by
    rw [toks]
    exact List.mem_cons_of_mem _ (List.mem_append_left _ (mem_itemsToks hp hs)))

theorem Doc.StringsFit.map_entries {pairs : List (Nat × List UInt8 × Doc)} {trail : Nat}
    (h : (Doc.map pairs trail).StringsFit) :
    ∀ e ∈ mapEntries pairs, KeyFits e.1 ∧ e.2.StringsFit := by
  intro e he
  obtain ⟨p, hp, rfl⟩ := List.mem_map.mp he
  obtain ⟨hkey, hvalue⟩ := mem_pairsToks hp
  have hmem : ∀ t ∈ pairsToks pairs, t ∈ (Doc.map pairs trail).toks := fun t ht => by
    rw [toks]
    exact List.mem_cons_of_mem _ (List.mem_append_left _ ht)
  exact ⟨keyFits_of_length (h _ (hmem _ hkey)), fun s hs => h s (hmem _ (hvalue _ hs))⟩

theorem keyFits_value : KeyFits valueKey := keyFits_of_length (by decide +kernel)

theorem Doc.StringsFit.body_entries {body : Doc} (h : body.StringsFit) :
    ∀ e ∈ bodyEntries body, KeyFits e.1 ∧ e.2.StringsFit := by
  cases body with
  | map pairs trail => exact h.map_entries
  | entity => simp [bodyEntries]
  | _ =>
    intro e he
    rw [List.mem_singleton.mp he]
    exact ⟨keyFits_value, h⟩

theorem Doc.StringsFit.attributed_entries {pairs : List (Nat × List UInt8 × Doc)} {trail : Nat}
    {body : Doc} (h : (Doc.attributed pairs trail body).StringsFit) :
    ∀ e ∈ attributeEntries pairs ++ bodyEntries body, KeyFits e.1 ∧ e.2.StringsFit := by
  intro e he
  rcases List.mem_append.mp he with he | he
  · obtain ⟨p, hp, rfl⟩ := List.mem_map.mp he
    obtain ⟨hkey, hvalue⟩ := mem_pairsToks hp
    have hmem : ∀ t ∈ pairsToks pairs, t ∈ (Doc.attributed pairs trail body).toks := fun t ht => by
      rw [toks]
      exact List.mem_cons_of_mem _ (List.mem_append_left _ ht)
    exact ⟨keyFits_attribute (h _ (hmem _ hkey)), fun s hs => h s (hmem _ (hvalue _ hs))⟩
  · refine Doc.StringsFit.body_entries (fun s hs => h s ?_) e he
    simp only [toks, List.mem_cons, List.mem_append]
    exact .inr (.inr (.inr (.inr hs)))

namespace YsonValue

theorem entriesDoc_stringsFit {es : List (List UInt8 × YsonValue)} (first : Bool)
    (h : ∀ e ∈ es, e.1.length ≤ isizeMax ∧ e.2.doc.StringsFit) :
    ∀ s, Token.string s ∈ pairsToks (spaced first (entriesDoc es)) → s.length ≤ isizeMax := by
  induction es generalizing first with
  | nil =>
    intro s hs
    cases hs
  | cons e es ih =>
    intro s hs
    obtain ⟨hkey, hvalue⟩ := h e List.mem_cons_self
    simp only [entriesDoc, spaced, pairsToks, seps, List.mem_append, List.mem_replicate,
      List.mem_cons, reduceCtorEq, and_false, false_or] at hs
    rcases hs with hs | hs | hs
    · cases hs
      exact hkey
    · exact hvalue s hs
    · exact ih false (fun e' he' => h e' (List.mem_cons_of_mem _ he')) s hs

theorem itemsDoc_stringsFit {vs : List YsonValue} (first : Bool)
    (h : ∀ v ∈ vs, v.doc.StringsFit) :
    ∀ s, Token.string s ∈ itemsToks (spaced first (itemsDoc vs)) → s.length ≤ isizeMax := by
  induction vs generalizing first with
  | nil =>
    intro s hs
    cases hs
  | cons v vs ih =>
    intro s hs
    simp only [itemsDoc, spaced, itemsToks, seps, List.mem_append, List.mem_replicate,
      reduceCtorEq, and_false, false_or] at hs
    rcases hs with hs | hs
    · exact h v List.mem_cons_self s hs
    · exact ih false (fun w hw => h w (List.mem_cons_of_mem _ hw)) s hs

theorem node_stringsFit {node : YsonNode} (hvalid : (YsonValue.bare node).Valid)
    (h : ∀ w ∈ node.children, w.doc.StringsFit) : node.doc.StringsFit := by
  intro s hs
  cases node with
  | list items =>
    simp only [YsonNode.doc, Doc.toks, seps, List.replicate_zero, List.nil_append, List.mem_cons,
      List.mem_append, reduceCtorEq, List.not_mem_nil, or_false, false_or] at hs
    exact itemsDoc_stringsFit true h s hs
  | map es =>
    simp only [YsonNode.doc, Doc.toks, seps, List.replicate_zero, List.nil_append, List.mem_cons,
      List.mem_append, reduceCtorEq, List.not_mem_nil, or_false, false_or] at hs
    refine entriesDoc_stringsFit true (fun e he => ?_) s hs
    exact ⟨(hvalid.map es rfl).keys e he, h e.2 (List.mem_map_of_mem he)⟩
  | string b =>
    cases List.mem_singleton.mp hs
    exact hvalid.string s rfl
  | entity | boolean _ | int64 _ | uint64 _ | double _ => cases List.mem_singleton.mp hs

/-- The strings of a value are those of its document. -/
theorem doc_stringsFit (v : YsonValue) (hvalid : v.All Valid) : v.doc.StringsFit := by
  induction v using children_induction with
  | h v ih =>
    have hinside : ∀ w ∈ v.children, w.doc.StringsFit := by
      intro w hw
      exact ih w hw (hvalid.inside w hw)
    have hnode : v.node.doc.StringsFit :=
      node_stringsFit hvalid.here.bare fun w hw => hinside w (mem_node_children hw)
    obtain ⟨attributes, node⟩ := v
    cases attributes with
    | none => exact hnode
    | some es =>
      cases es with
      | nil => exact hnode
      | cons e es =>
        intro s hs
        simp only [doc, Doc.toks, seps, List.replicate_zero, List.nil_append, List.mem_cons,
          List.mem_append, reduceCtorEq, false_or] at hs
        rcases hs with hs | hs
        · refine entriesDoc_stringsFit true (fun e' he' => ?_) s hs
          exact ⟨hvalid.here.attributes.keys e' he', hinside e'.2 (mem_attributes_children he')⟩
        · exact hnode s hs

end YsonValue

/-! ## Decoded values -/

theorem entriesValue_settled {limit depth : Nat} {E : List (List UInt8 × Doc)} {v : YsonValue}
    (hlimit : depth + 1 ≤ limit) (hkeys : ∀ e ∈ E, KeyFits e.1)
    (ih : ∀ e ∈ E, ∀ u, e.2.value limit (depth + 1) = .ok u → u.Settled limit (depth + 1))
    (h : ((entriesM (Doc.value limit (depth + 1)) E).bind fun es =>
      (YsonValue.MapParts.addAll .new es).finish) = .ok v) : v.Settled limit depth := by
  cases hes : entriesM (Doc.value limit (depth + 1)) E with
  | error err =>
    rw [hes] at h
    cases h
  | ok es =>
    rw [hes] at h
    have hsettled : ∀ r ∈ es, KeyFits r.1 ∧ r.2.Settled limit (depth + 1) := by
      intro r hr
      obtain ⟨e, he, hvalue, hkey⟩ := ExceptList.forall₂_right (entriesM_ok_iff.mp hes) r hr
      exact ⟨hkey ▸ hkeys e he, ih e he r.2 hvalue⟩
    exact (YsonValue.MapParts.Settled.addAll hsettled .new).finish hlimit h

theorem scalar_settled {limit depth : Nat} (hlimit : depth ≤ limit) {s : Scalar}
    (hs : (Doc.scalar s).StringsFit) : (YsonValue.bare s.node).Settled limit depth := by
  have hstring : ∀ b, s.node = .string b → b.length ≤ isizeMax := fun b hb => hs b (by
    cases s <;> cases hb
    exact List.mem_singleton.mpr rfl)
  refine ⟨.intro ⟨.nil, ?_, hstring⟩ ?_, .intro ⟨by simp [YsonValue.bare], ?_⟩ ?_, ?_⟩
  · intro es hes
    cases s <;> cases hes
  · intro w hw
    cases s <;> cases hw
  · intro es hes
    cases s <;> cases hes
  · intro w hw
    cases s <;> cases hw
  · cases s <;> exact hlimit

/-- **A decoded value is settled**: it can be written out and read back where it was read. -/
theorem Doc.value_settled {limit : Nat} (d : Doc) : ∀ {depth : Nat} {v : YsonValue},
    depth ≤ limit → d.StringsFit → d.value limit depth = .ok v → v.Settled limit depth := by
  induction d using Doc.entries_induction with
  | scalar s =>
    intro depth v hlimit hs h
    rw [value] at h
    cases h
    exact scalar_settled hlimit hs
  | entity =>
    intro depth v hlimit hs h
    rw [value] at h
    cases h
    exact YsonValue.entity_settled hlimit
  | list items trail ih =>
    intro depth v _ hs h
    have hlimit := YsonValue.level_fits (by simp) h
    rw [value_list hlimit] at h
    obtain ⟨vs, hvs, rfl⟩ := ExceptList.map_eq_ok.mp h
    have hsettled : ∀ w ∈ vs, w.Settled limit (depth + 1) := by
      intro w hw
      obtain ⟨p, hp, hvalue⟩ := ExceptList.forall₂_right (itemsM_ok_iff.mp hvs) w hw
      exact ih p hp hlimit (hs.items p hp) hvalue
    have hchildren : ∀ w ∈ (YsonValue.bare (.list vs)).children, w ∈ vs := fun w hw => by
      simpa [YsonValue.children, YsonValue.bare, YsonValue.attributeList,
        YsonNode.children] using hw
    refine ⟨.intro ⟨.nil, by simp [YsonValue.bare], by simp [YsonValue.bare]⟩
        fun w hw => (hsettled w (hchildren w hw)).valid,
      .intro ⟨by simp [YsonValue.bare], by simp [YsonValue.bare]⟩
        fun w hw => (hsettled w (hchildren w hw)).unambiguous, ?_⟩
    exact fits_list.mpr ⟨hlimit, YsonValue.forall_itemsDoc true fun w hw => (hsettled w hw).fits⟩
  | map pairs trail ih =>
    intro depth v _ hs h
    have hlimit := YsonValue.level_fits (by simp) h
    rw [value_map hlimit] at h
    exact entriesValue_settled hlimit (fun e he => (hs.map_entries e he).1)
      (fun e he u hu => ih e he hlimit (hs.map_entries e he).2 hu) h
  | attributed pairs trail body ih =>
    intro depth v _ hs h
    have hlimit := YsonValue.level_fits (by simp) h
    rw [value_attributed hlimit] at h
    exact entriesValue_settled hlimit (fun e he => (hs.attributed_entries e he).1)
      (fun e he u hu => ih e he hlimit (hs.attributed_entries e he).2 hu) h

/-- The document of a settled value reads as the value collapsed, which is settled too. -/
theorem YsonValue.Settled.reads {limit depth : Nat} {v : YsonValue} (hdepth : depth ≤ limit)
    (h : v.Settled limit depth) :
    v.doc.value limit depth = .ok v.collapse ∧ v.collapse.Settled limit depth := by
  obtain ⟨u, hu⟩ := (v.doc.value_ok_iff hdepth).mpr ⟨h.fits, v.doc_oneBody h.unambiguous⟩
  obtain rfl := v.value_doc h.valid h.unambiguous hu
  exact ⟨hu, v.doc.value_settled hdepth (v.doc_stringsFit h.valid) hu⟩

variable [FloatText]

/-- What an input of possible length decodes to is settled at the top. -/
theorem fromSlice_settled {bytes : List UInt8} {f : YsonFormat} {v : YsonValue}
    (hlen : bytes.length ≤ isizeMax) (h : YsonValue.fromSlice bytes f = .ok v) :
    v.Settled depthLimit 0 := by
  obtain ⟨d, hspells, _, hvalue⟩ := YsonValue.fromSlice_ok_iff.mp h
  exact d.value_settled (Nat.zero_le _)
    (fun s hs => Nat.le_trans (hspells.stringLen_le (.string s) hs) hlen) hvalue

/-- **A decoded value written in either format reads back as itself exactly when no empty map
in it has attributes.** -/
theorem YsonValue.reencode_iff (hfloat : FloatText.Inverse) {bytes : List UInt8}
    {f g : YsonFormat} {v : YsonValue} (hlen : bytes.length ≤ isizeMax)
    (h : YsonValue.fromSlice bytes f = .ok v) (hnan : g = .text → v.All NotNan) :
    ∃ bytes', v.toVec g = .ok bytes' ∧
      (YsonValue.fromSlice bytes' g = .ok v ↔ v.All NotHollow) := by
  have hsettled := fromSlice_settled hlen h
  obtain ⟨bytes', hbytes, hread⟩ :=
    fromSlice_toVec hfloat hsettled.valid hsettled.unambiguous hnan
  have hlevels : v.doc.levels ≤ depthLimit := by
    have := hsettled.fits
    rwa [Doc.Fits, Nat.zero_add] at this
  refine ⟨bytes', hbytes, ?_⟩
  rw [hread, if_pos hlevels, ← v.collapse_eq_self_iff, Except.ok.injEq]

omit [FloatText] in
theorem reencode_attributed_list :
    ∃ v, @YsonValue.fromSlice plainFloatText (ascii "<b=2;a=#><a=1>[x;]") .text = .ok v ∧
      ∃ bytes', @YsonValue.toVec plainFloatText v .binary = .ok bytes' ∧
        (@YsonValue.fromSlice plainFloatText bytes' .binary = .ok v ↔
          v.All YsonValue.NotHollow) := by
  obtain ⟨v, hv⟩ := ExceptList.exists_ok (x := @YsonValue.fromSlice plainFloatText
    (ascii "<b=2;a=#><a=1>[x;]") .text) (by decide +kernel)
  exact ⟨v, hv, @YsonValue.reencode_iff plainFloatText plainFloatText_inverse _ _ .binary _
    (by decide +kernel) hv (by simp)⟩

omit [FloatText] in
/-- A literal `@a` and `$value` in a map give an empty map attributes. -/
theorem reencode_literal_keys :
    ∃ v, @YsonValue.fromSlice plainFloatText (ascii "\x7b\"@a\"=1;\"$value\"=\x7b\x7d\x7d") .text
        = .ok v ∧
      ∃ bytes', @YsonValue.toVec plainFloatText v .text = .ok bytes' ∧
        @YsonValue.fromSlice plainFloatText bytes' .text ≠ .ok v := by
  let _ : FloatText := plainFloatText
  have hspells : Spells (ascii "\x7b\"@a\"=1;\"$value\"=\x7b\x7d\x7d") .text
      (Doc.map [(0, ascii "@a", .scalar (.int64 1)), (1, valueKey, .map [] 0)] 0).toks := by
    decide +kernel
  have hvalue : (Doc.map [(0, ascii "@a", .scalar (.int64 1)), (1, valueKey, .map [] 0)] 0).value
      depthLimit 0 = .ok (YsonValue.tagged (.map [])) := by
    have hone : Doc.value depthLimit 1 (.scalar (.int64 1)) = .ok (.bare (.int64 1)) := by
      rw [Doc.value, Scalar.node]
    have hmap : Doc.value depthLimit 1 (.map [] 0) = .ok (.bare (.map [])) := by
      rw [Doc.value_map (by decide)]
      rfl
    have hkey : ascii "@a" = 0x40 :: ascii "a" := by decide +kernel
    rw [Doc.value_map (by decide)]
    simp only [mapEntries, List.map_cons, List.map_nil, entriesM, hone, hmap, bind, Except.bind,
      hkey]
    simp [YsonValue.MapParts.addAll, YsonValue.MapParts.add_attribute,
      YsonValue.MapParts.add_value, YsonValue.MapParts.new, YsonValue.MapParts.finish,
      YsonValue.tagged, YsonValue.bare, SortedMap.insert, SortedMap.extend]
  have hbytes : (YsonValue.tagged (.map [])).toVec .text = .ok (ascii "<a=1>\x7b\x7d") := by
    decide +kernel
  refine ⟨_, YsonValue.fromSlice_ok_iff.mpr ⟨_, hspells, ?_, hvalue⟩, _, hbytes,
    (YsonValue.tagged_empty_map_reads hbytes).1⟩
  simp [Doc.Separated, pairsSeparated]

end Ytsaurus.Yson
