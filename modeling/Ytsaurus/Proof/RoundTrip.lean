import Ytsaurus.Proof.Encode
import Ytsaurus.Proof.Value

/-!
# `Proof/RoundTrip.lean` — dynamic values written and read back

A value is written as its document (`YsonValue.encodes`) and its document reads as the value
collapsed (`YsonValue.value_doc`), so the round trip is decided by `collapse`:
`YsonValue.round_trip_iff`.

What `collapse` does is the one thing the round trip loses. A map with attributes is written as
the block and the map behind it, and the deserializer reads both as one map whose entries are the
attributes and those of the body. When the body is an empty map nothing tells it from no body at
all, and it is read as the entity: the value `<a=1>{}` comes back as `<a=1>#`. `NotHollow` says
that no such map is in the value, and the theorem is an equivalence, in either format.

What is assumed of the value is what the type of the code guarantees or the code cannot write.
`Valid` holds of every `YsonValue` there can be: maps are ordered, and no string is longer than a
`Vec`. `Unambiguous` says that attributes are absent rather than empty, and that no plain map has a
key with a meaning of its own; either can be built, and neither can be written as what it is. In
text a double has to survive its decimal form (`FloatText.Inverse`), and a NaN need not. The
nesting limit is the deserializer's, and a value beyond it is refused with the error that says so.
-/

set_option autoImplicit false

namespace Ytsaurus.Yson

/-! ## The value of the document of a value -/

theorem entriesM_doc {f : Doc → Except YsonError YsonValue} {es : List (List UInt8 × YsonValue)}
    {rs : List (List UInt8 × YsonValue)} (key : List UInt8 → List UInt8)
    (hf : ∀ e ∈ es, ∀ u, f e.2.doc = .ok u → u = e.2.collapse)
    (h : entriesM f (es.map fun e => (key e.1, e.2.doc)) = .ok rs) :
    rs = es.map fun e => (key e.1, e.2.collapse) := by
  have hpairs := entriesM_ok_iff.mp h
  clear h
  induction es generalizing rs with
  | nil => cases hpairs; rfl
  | cons e es ih =>
    rw [List.map_cons, List.forall₂_cons_left_iff] at hpairs
    obtain ⟨⟨k, u⟩, rs', ⟨hu, rfl⟩, hrest, rfl⟩ := hpairs
    rw [List.map_cons, hf e List.mem_cons_self u hu,
      ih (fun e' he' => hf e' (List.mem_cons_of_mem _ he')) hrest]

theorem itemsM_doc {f : Doc → Except YsonError YsonValue} {vs us : List YsonValue}
    (hf : ∀ v ∈ vs, ∀ u, f v.doc = .ok u → u = v.collapse) (first : Bool)
    (h : itemsM f (spaced first (itemsDoc vs)) = .ok us) : us = collapseItems vs := by
  induction vs generalizing us first with
  | nil =>
    cases h
    rfl
  | cons v vs ih =>
    rw [itemsDoc, spaced, itemsM_ok_iff, List.forall₂_cons_left_iff] at h
    obtain ⟨u, us', hu, hrest, rfl⟩ := h
    rw [collapseItems, hf v List.mem_cons_self u hu,
      ih (fun w hw => hf w (List.mem_cons_of_mem _ hw)) false (itemsM_ok_iff.mpr hrest)]

namespace YsonValue

theorem MapParts.addAll_plain (es : List (List UInt8 × YsonValue)) (parts : MapParts)
    (h : ∀ e ∈ es, isPlainKey e.1) :
    parts.addAll es = { parts with plainMap := SortedMap.extend parts.plainMap es } := by
  induction es generalizing parts with
  | nil => rfl
  | cons e es ih =>
    rw [addAll_cons, add_plain _ (h e List.mem_cons_self),
      ih _ fun e' he' => h e' (List.mem_cons_of_mem _ he')]
    rfl

theorem MapParts.addAll_attributes (es : List (List UInt8 × YsonValue)) (parts : MapParts)
    (hne : es ≠ []) :
    parts.addAll (es.map fun e => (0x40 :: e.1, e.2)) = { parts with
      isAttributed := true, attributes := SortedMap.extend parts.attributes es } := by
  induction es generalizing parts with
  | nil => exact absurd rfl hne
  | cons e es ih =>
    rw [List.map_cons, addAll_cons, add_attribute]
    cases es with
    | nil => rfl
    | cons e' es => rw [ih _ (by simp)]; rfl

/-- Mapping the values of a map keeps its order. -/
theorem sorted_collapse {es : List (List UInt8 × YsonValue)} (h : SortedMap.Sorted es) :
    SortedMap.Sorted (collapseEntries es) := by
  rw [collapseEntries_eq]
  exact List.pairwise_map.mpr h

theorem extend_collapse {es : List (List UInt8 × YsonValue)} (h : SortedMap.Sorted es) :
    SortedMap.extend [] (collapseEntries es) = collapseEntries es := by
  have := SortedMap.extend_sorted (m := []) (by simpa using sorted_collapse h)
  simpa using this

variable {limit : Nat}

/-- What is known of a value is known of it without its attributes. -/
theorem Valid.bare {v : YsonValue} (h : v.Valid) : (YsonValue.bare v.node).Valid :=
  ⟨⟨.nil, by simp [attributeList, YsonValue.bare]⟩, h.map, h.string⟩

theorem Unambiguous.bare {v : YsonValue} (h : v.Unambiguous) :
    (YsonValue.bare v.node).Unambiguous :=
  ⟨by simp [YsonValue.bare], h.keys⟩

/-- A document with a level of its own has a value only where that level fits. -/
theorem level_fits {depth : Nat} {d : Doc} {u : YsonValue} (hd : (∀ s, d ≠ .scalar s) ∧ d ≠ .entity)
    (h : d.value limit depth = .ok u) : depth + 1 ≤ limit := by
  by_contra hlimit
  rw [Doc.value_deep (by omega) hd] at h
  cases h

/-- The keys of a map stay plain. -/
theorem Unambiguous.collapse_keys {es : List (List UInt8 × YsonValue)}
    (h : (YsonValue.bare (.map es)).Unambiguous) : ∀ e ∈ collapseEntries es, isPlainKey e.1 := by
  rw [collapseEntries_eq]
  intro e he
  obtain ⟨e', he', rfl⟩ := List.mem_map.mp he
  exact h.keys es rfl e' he'

/-- The entries of the document of a map. -/
theorem entriesM_map {es rs : List (List UInt8 × YsonValue)} {depth : Nat}
    (ih : ∀ w ∈ (YsonNode.map es).children, ∀ {depth : Nat} {u : YsonValue},
      w.doc.value limit depth = .ok u → u = w.collapse)
    (h : entriesM (Doc.value limit depth) (entriesDoc es) = .ok rs) : rs = collapseEntries es := by
  rw [entriesDoc_eq] at h
  rw [collapseEntries_eq]
  exact entriesM_doc id (fun e he u => ih e.2 (List.mem_map.mpr ⟨e, he, rfl⟩)) h

theorem node_value_doc {node : YsonNode} {depth : Nat} {u : YsonValue}
    (ih : ∀ w ∈ node.children, ∀ {depth : Nat} {u : YsonValue},
      w.doc.value limit depth = .ok u → u = w.collapse)
    (hvalid : (YsonValue.bare node).Valid) (hkeys : (YsonValue.bare node).Unambiguous)
    (h : node.doc.value limit depth = .ok u) : u = .bare (node.collapse false) := by
  cases node with
  | list items =>
    have hlimit := level_fits (by simp [YsonNode.doc]) h
    rw [YsonNode.doc, Doc.value_list hlimit] at h
    obtain ⟨vs, hvs, rfl⟩ := ExceptList.map_eq_ok.mp h
    have heq := itemsM_doc (fun v hv u => ih v hv) true hvs
    rw [YsonNode.children] at heq
    rw [heq, YsonNode.collapse]
  | map es =>
    have hlimit := level_fits (by simp [YsonNode.doc]) h
    rw [YsonNode.doc, Doc.value_map hlimit, mapEntries_spaced] at h
    cases hes : entriesM (Doc.value limit (depth + 1)) (entriesDoc es) with
    | error e =>
      rw [hes] at h
      cases h
    | ok rs =>
      rw [hes, entriesM_map ih hes, Except.bind,
        MapParts.addAll_plain _ _ hkeys.collapse_keys] at h
      simp only [MapParts.finish, MapParts.new, extend_collapse (hvalid.map es rfl).sorted,
        Bool.false_eq_true, if_false, Except.ok.injEq] at h
      rw [← h]
      simp [YsonNode.collapse]
  | _ =>
    simp only [YsonNode.doc, Doc.value, Except.ok.injEq] at h
    rw [← h]
    rfl

/-- The body behind an attribute block, read beside the attributes. -/
theorem body_value_doc {node : YsonNode} {depth : Nat} {rs : List (List UInt8 × YsonValue)}
    (ih : ∀ w ∈ node.children, ∀ {depth : Nat} {u : YsonValue},
      w.doc.value limit depth = .ok u → u = w.collapse)
    (hvalid : (YsonValue.bare node).Valid) (hkeys : (YsonValue.bare node).Unambiguous)
    (h : entriesM (Doc.value limit depth) (bodyEntries node.doc) = .ok rs)
    {attributes : List (List UInt8 × YsonValue)} (hne : attributes ≠ []) :
    (MapParts.addAll ⟨attributes, [], none, true⟩ rs).finish
      = .ok ⟨some attributes, node.collapse true⟩ := by
  have hbody : bodyEntries node.doc = [(valueKey, node.doc)] →
      (MapParts.addAll ⟨attributes, [], none, true⟩ rs).finish
        = .ok ⟨some attributes, node.collapse false⟩ := by
    intro hone
    rw [hone, entriesM_ok_iff, List.forall₂_cons_left_iff] at h
    obtain ⟨⟨k, u⟩, rs', ⟨hu, rfl⟩, hnil, rfl⟩ := h
    cases hnil
    obtain rfl : u = .bare (node.collapse false) := node_value_doc ih hvalid hkeys hu
    rw [MapParts.addAll_cons, MapParts.add_value]
    simp [MapParts.addAll, MapParts.finish, YsonValue.bare, SortedMap.extend, hne]
  cases node with
  | map es =>
    rw [YsonNode.doc, bodyEntries, mapEntries_spaced] at h
    rw [entriesM_map ih h, MapParts.addAll_plain _ _ hkeys.collapse_keys,
      extend_collapse (hvalid.map es rfl).sorted]
    cases es <;> simp [MapParts.finish, collapseEntries, YsonNode.collapse, hne]
  | entity =>
    cases h
    simp [MapParts.addAll, MapParts.finish, YsonNode.collapse, hne]
  | _ => exact hbody rfl

/-- **The document of a value reads as the value collapsed.** -/
theorem value_doc (v : YsonValue) : ∀ {depth : Nat} {u : YsonValue}, v.All Valid →
    v.All Unambiguous → v.doc.value limit depth = .ok u → u = v.collapse := by
  induction v using children_induction with
  | h v ih =>
    intro depth u hvalid hkeys h
    have ih' : ∀ w ∈ v.children, ∀ {depth : Nat} {u : YsonValue},
        w.doc.value limit depth = .ok u → u = w.collapse :=
      fun w hw _ _ => ih w hw (hvalid.inside w hw) (hkeys.inside w hw)
    have ihnode : ∀ w ∈ v.node.children, ∀ {depth : Nat} {u : YsonValue},
        w.doc.value limit depth = .ok u → u = w.collapse :=
      fun w hw _ _ => ih' w (mem_node_children hw)
    obtain ⟨attributes, node⟩ := v
    cases attributes with
    | none => exact node_value_doc ihnode hvalid.here.bare hkeys.here.bare h
    | some es =>
      cases es with
      | nil => exact absurd rfl hkeys.here.attributes
      | cons e es =>
        have hlimit := level_fits (by simp [doc]) h
        rw [doc, Doc.value_attributed hlimit, entriesM_append, attributeEntries_spaced,
          entriesDoc_eq, List.map_map] at h
        cases hattr : entriesM (Doc.value limit (depth + 1))
            ((e :: es).map ((fun e => (0x40 :: e.1, e.2)) ∘ fun e => (e.1, e.2.doc))) with
        | error err =>
          rw [hattr] at h
          cases h
        | ok as =>
          cases hbody : entriesM (Doc.value limit (depth + 1)) (bodyEntries node.doc) with
          | error err =>
            rw [hattr, hbody] at h
            cases h
          | ok rs =>
            have has : as = (collapseEntries (e :: es)).map fun e => (0x40 :: e.1, e.2) := by
              rw [collapseEntries_eq, List.map_map]
              exact entriesM_doc (0x40 :: ·)
                (fun e' he' u => ih' e'.2 (mem_attributes_children he')) hattr
            have hne : collapseEntries (e :: es) ≠ [] := by simp [collapseEntries]
            rw [hattr, hbody] at h
            simp only [Except.bind, Except.map, MapParts.addAll_append, has] at h
            rw [MapParts.addAll_attributes _ _ hne] at h
            have hsorted : SortedMap.extend [] (collapseEntries (e :: es)) = collapseEntries (e :: es) :=
              extend_collapse hvalid.here.attributes.sorted
            simp only [MapParts.new] at h
            rw [hsorted, body_value_doc ihnode hvalid.here.bare hkeys.here.bare hbody hne] at h
            cases h
            rw [collapse]

/-! ## The document of a value, as a document -/

theorem forall_entriesDoc {P : Doc → Prop} {es : List (List UInt8 × YsonValue)}
    (h : ∀ w ∈ es.map Prod.snd, P w.doc) : ∀ e ∈ entriesDoc es, P e.2 := by
  rw [entriesDoc_eq]
  intro e he
  obtain ⟨e', he', rfl⟩ := List.mem_map.mp he
  exact h e'.2 (List.mem_map.mpr ⟨e', he', rfl⟩)

theorem forall_itemsDoc {P : Doc → Prop} {vs : List YsonValue} (first : Bool)
    (h : ∀ w ∈ vs, P w.doc) : ∀ p ∈ spaced first (itemsDoc vs), P p.2 := by
  intro p hp
  have hmem : p.2 ∈ (spaced first (itemsDoc vs)).map Prod.snd := List.mem_map.mpr ⟨p, hp, rfl⟩
  rw [spaced_map_snd, itemsDoc_eq] at hmem
  obtain ⟨w, hw, heq⟩ := List.mem_map.mp hmem
  exact heq ▸ h w hw

theorem node_oneBody {node : YsonNode} (ih : ∀ w ∈ node.children, w.doc.OneBody)
    (h : (YsonValue.bare node).Unambiguous) : node.doc.OneBody := by
  cases node with
  | list items => exact itemsOneBody_iff.mpr (forall_itemsDoc true ih)
  | map es =>
    rw [YsonNode.doc, Doc.oneBody_map, mapEntries_spaced]
    refine ⟨?_, forall_entriesDoc ih⟩
    rintro ⟨⟨e, he, hvalue⟩, _⟩
    rw [entriesDoc_eq] at he
    obtain ⟨e', he', rfl⟩ := List.mem_map.mp he
    exact (isPlainKey_iff.mp (h.keys es rfl e' he')).2 hvalue
  | _ => trivial

theorem doc_oneBody (v : YsonValue) (h : v.All Unambiguous) : v.doc.OneBody := by
  induction v using children_induction with
  | h v ih =>
    have ih' : ∀ w ∈ v.children, w.doc.OneBody := fun w hw => ih w hw (h.inside w hw)
    have hnode := node_oneBody (fun w hw => ih' w (mem_node_children hw)) h.here.bare
    obtain ⟨attributes, node⟩ := v
    cases attributes with
    | none => exact hnode
    | some es =>
      cases es with
      | nil => exact hnode
      | cons e es =>
        refine ⟨pairsOneBody_iff.mpr ?_, hnode⟩
        rw [mapEntries_spaced]
        exact forall_entriesDoc fun w hw => ih' w (List.mem_append_left _ hw)

/-! ## Writing a value -/

variable [FloatText] {isBinary : Bool}

theorem byteString_encodes (isBinary : Bool) {s : List UInt8} (h : s.length ≤ isizeMax) :
    EncodesKey (byteString s) s ∧ Encodes isBinary (byteString s) (.scalar (.string s)) := by
  rw [byteString]
  split
  · exact ⟨.str h, .str h⟩
  · exact ⟨.bytes h, .bytes h⟩

theorem byteKeyedMap_encodes {es : List (List UInt8 × YsonValue)}
    (hkeys : ∀ e ∈ es, e.1.length ≤ isizeMax)
    (h : ∀ w ∈ es.map Prod.snd, Encodes isBinary w.toData w.doc) :
    EncodesEntries isBinary (byteKeyedMap es) (entriesDoc es) := by
  induction es with
  | nil => exact .nil
  | cons e es ih =>
    obtain ⟨k, v⟩ := e
    exact .cons (byteString_encodes isBinary (hkeys _ List.mem_cons_self)).1
      (h v List.mem_cons_self)
      (ih (fun e he => hkeys e (List.mem_cons_of_mem _ he))
        fun w hw => h w (List.mem_cons_of_mem _ hw))

theorem valuesToData_encodes {vs : List YsonValue}
    (h : ∀ w ∈ vs, Encodes isBinary w.toData w.doc) :
    EncodesItems isBinary (valuesToData vs) (itemsDoc vs) := by
  induction vs with
  | nil => exact .nil
  | cons v vs ih =>
    exact .cons (h v List.mem_cons_self) (ih fun w hw => h w (List.mem_cons_of_mem _ hw))

theorem node_encodes (hfloat : isBinary = false → FloatText.Inverse) {node : YsonNode}
    (ih : ∀ w ∈ node.children, Encodes isBinary w.toData w.doc)
    (hvalid : (YsonValue.bare node).Valid)
    (hnan : isBinary = false → (YsonValue.bare node).NotNan) :
    Encodes isBinary node.toData node.doc := by
  cases node with
  | entity => exact .unit
  | boolean v => exact .bool v
  | int64 v => exact .i64 v
  | uint64 v => exact .u64 v
  | double v => exact .f64 fun hb => ⟨hfloat hb, hnan hb v rfl⟩
  | string s => exact (byteString_encodes _ (hvalid.string s rfl)).2
  | list items => exact .seq (valuesToData_encodes ih)
  | map es => exact .map (byteKeyedMap_encodes (hvalid.map es rfl).keys ih)

/-- **The calls of a value write its document.** -/
theorem encodes (hfloat : isBinary = false → FloatText.Inverse) (v : YsonValue)
    (hvalid : v.All Valid) (hnan : isBinary = false → v.All NotNan) : Encodes isBinary v.toData v.doc := by
  induction v using children_induction with
  | h v ih =>
    have ih' : ∀ w ∈ v.children, Encodes isBinary w.toData w.doc := fun w hw =>
      ih w hw (hvalid.inside w hw) fun hb => (hnan hb).inside w hw
    have hnode : Encodes isBinary v.node.toData v.node.doc :=
      node_encodes hfloat (fun w hw => ih' w (mem_node_children hw)) hvalid.here.bare
        fun hb => (hnan hb).here
    obtain ⟨attributes, node⟩ := v
    cases attributes with
    | none => exact hnode
    | some es =>
      cases es with
      | nil => exact hnode
      | cons e es =>
        exact .withAttributes (.map (byteKeyedMap_encodes hvalid.here.attributes.keys
          fun w hw => ih' w (List.mem_append_left _ hw))) hnode

/-! ## Round trips -/

/-- **What a value reads back as**: itself collapsed, or the recursion limit. -/
theorem fromSlice_toVec (hfloat : FloatText.Inverse) {v : YsonValue} {f : YsonFormat}
    (hvalid : v.All Valid) (hkeys : v.All Unambiguous) (hnan : f = .text → v.All NotNan) :
    ∃ bytes, v.toVec f = .ok bytes ∧ YsonValue.fromSlice bytes f
      = if v.doc.levels ≤ depthLimit then .ok v.collapse else .error (.custom .recursionLimit) := by
  have hnan' : f.isBinary = false → v.All NotNan := fun hb => hnan (by
    cases f with
    | text => rfl
    | binary => cases hb)
  have hencodes := encodes (fun _ => hfloat) v hvalid hnan'
  obtain ⟨bytes, hbytes, hspells⟩ := hencodes.spells
  refine ⟨bytes, hbytes, ?_⟩
  rw [YsonValue.fromSlice_of_spells hspells hencodes.singleSep]
  have hone := doc_oneBody v hkeys
  have hok := v.doc.value_ok_iff (Nat.zero_le depthLimit)
  rw [Doc.Fits, Nat.zero_add] at hok
  split
  · rename_i hlevels
    obtain ⟨u, hu⟩ := hok.mpr ⟨hlevels, hone⟩
    rw [hu, value_doc v hvalid hkeys hu]
  · rename_i hlevels
    cases hu : v.doc.value depthLimit 0 with
    | ok u => exact absurd (hok.mp ⟨u, hu⟩).1 hlevels
    | error err => rw [v.doc.value_error hone hu]

/-- **A value within the nesting limit reads back as itself exactly when no empty map in it
has attributes.** -/
theorem round_trip_iff (hfloat : FloatText.Inverse) {v : YsonValue} {f : YsonFormat}
    (hvalid : v.All Valid) (hkeys : v.All Unambiguous) (hnan : f = .text → v.All NotNan) :
    ∃ bytes, v.toVec f = .ok bytes ∧
      ((YsonValue.fromSlice bytes f = .ok v ∨
          YsonValue.fromSlice bytes f = .error (.custom .recursionLimit)) ↔
        v.All NotHollow ∨ depthLimit < v.doc.levels) := by
  obtain ⟨bytes, hbytes, hread⟩ := fromSlice_toVec hfloat hvalid hkeys hnan
  refine ⟨bytes, hbytes, ?_⟩
  rw [hread, ← v.collapse_eq_self_iff]
  split
  · rename_i hlevels
    simp [Nat.not_lt.mpr hlevels]
  · rename_i hlevels
    simp [Nat.not_le.mp hlevels]

/-- `<a=1>` in front of a node. -/
def tagged (node : YsonNode) : YsonValue := ⟨some [(ascii "a", .bare (.int64 1))], node⟩

omit [FloatText] in
theorem tagged_list_all {P : YsonValue → Prop} (h : P (tagged (.list [])))
    (hone : P (.bare (.int64 1))) : (tagged (.list [])).All P := by
  refine .intro h fun w hw => ?_
  obtain rfl : w = .bare (.int64 1) := by
    simpa [tagged, children, attributeList, YsonNode.children] using hw
  exact .intro hone (by simp [YsonValue.bare, children, attributeList, YsonNode.children])

omit [FloatText] in
theorem tagged_list_valid : (tagged (.list [])).All Valid := by
  apply tagged_list_all
  · refine ⟨⟨List.pairwise_singleton _ _, ?_⟩, ?_, ?_⟩
    · simp only [tagged, attributeList, Option.getD_some, List.forall_mem_singleton]
      decide +kernel
    · simp [tagged]
    · simp [tagged]
  · refine ⟨⟨.nil, ?_⟩, ?_, ?_⟩ <;> simp [YsonValue.bare, attributeList]

omit [FloatText] in
theorem round_trip_tagged_list :
    ∃ bytes, @YsonValue.toVec plainFloatText (tagged (.list [])) .text = .ok bytes ∧
      ((@YsonValue.fromSlice plainFloatText bytes .text = .ok (tagged (.list [])) ∨
          @YsonValue.fromSlice plainFloatText bytes .text = .error (.custom .recursionLimit)) ↔
        (tagged (.list [])).All NotHollow ∨ depthLimit < (tagged (.list [])).doc.levels) := by
  refine @round_trip_iff plainFloatText plainFloatText_inverse _ _ tagged_list_valid
    (tagged_list_all ⟨?_, ?_⟩ ⟨?_, ?_⟩) fun _ => tagged_list_all ?_ ?_
  all_goals simp [tagged, YsonValue.bare, NotNan]

omit [FloatText] in
/-- The braces of an empty map behind attributes hold no entry, and are passed over. -/
theorem tagged_empty_map_reads {f : YsonFormat} {bytes : List UInt8}
    (hbytes : @YsonValue.toVec plainFloatText (tagged (.map [])) f = .ok bytes) :
    @YsonValue.fromSlice plainFloatText bytes f ≠ .ok (tagged (.map [])) ∧
      @YsonValue.fromSlice plainFloatText bytes f ≠ .error (.custom .recursionLimit) := by
  have hentity : ((@YsonValue.toVec plainFloatText (tagged (.map [])) f).toOption.bind
      fun bytes => (@YsonValue.fromSlice plainFloatText bytes f).toOption.map
        (·.node.isEntity)) = some true := by
    cases f <;> decide +kernel
  rw [hbytes] at hentity
  change ((@YsonValue.fromSlice plainFloatText bytes f).toOption.map (·.node.isEntity)) =
    some true at hentity
  constructor
  · intro h
    rw [h] at hentity
    cases hentity
  · intro h
    rw [h] at hentity
    cases hentity

omit [FloatText] in
theorem round_trip_tagged_empty_map :
    @YsonValue.toVec plainFloatText (tagged (.map [])) .text = .ok (ascii "<a=1>\x7b\x7d") ∧
      @YsonValue.fromSlice plainFloatText (ascii "<a=1>\x7b\x7d") .text ≠ .ok (tagged (.map [])) ∧
      @YsonValue.fromSlice plainFloatText (ascii "<a=1>\x7b\x7d") .text
        ≠ .error (.custom .recursionLimit) := by
  have hbytes : @YsonValue.toVec plainFloatText (tagged (.map [])) .text
      = .ok (ascii "<a=1>\x7b\x7d") := by decide +kernel
  exact ⟨hbytes, tagged_empty_map_reads hbytes⟩

end YsonValue

end Ytsaurus.Yson
