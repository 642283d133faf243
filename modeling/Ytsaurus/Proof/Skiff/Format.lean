import Mathlib.Data.List.Nodup
import Mathlib.Data.List.Perm.Basic
import Ytsaurus.Proof.Skiff.Schema
import Ytsaurus.Skiff.Format

/-!
# `Proof/Skiff/Format.lean` — which formats survive their YSON form

A schema that passed its check is read back from the map it writes, whatever its column names
and however deep it is: induction over the tree. A registry is written into a byte-keyed map
and read back into a text-keyed one, so its entries travel through another order; the map they
end in does not remember it.

The one thing that does not survive is a reference to the registry entry whose name is empty.
`from_parts` admits such an entry and such a reference; its spelling is a bare `$`, which
`from_yson` refuses. So the theorem is an equivalence with the condition on the references
(`survives_yson_iff`), and everything else about a format is free: any names, any nesting, any
order in which the entries were given.

What is compared is the format, not its document. Reading is more liberal than writing (fields that
are not known, a name that is absent or an entity), and nothing is said about documents that were
not written by `to_yson`.
-/

set_option autoImplicit false

namespace Ytsaurus
namespace Skiff

open Utf8
open Yson (YsonValue YsonNode)

/-! ## Text -/

theorem asBytes_reference (name : String) : asBytes ("$" ++ name) = 0x24 :: asBytes name := by
  rw [asBytes_append]
  rfl

theorem WireType.parse_asStr (wireType : WireType) :
    WireType.parse wireType.asStr = some wireType := by
  cases wireType <;> rfl

theorem asUtf8String_stringValue (text context field : String) :
    asUtf8String (stringValue text) context field = .ok text := by
  unfold asUtf8String stringValue YsonValue.bare
  dsimp only
  rw [fromUtf8_asBytes]
  rfl

/-! ## Schemas -/

namespace Schema

theorem allToYson_eq_map (children : List Schema) : allToYson children = children.map toYson := by
  induction children with
  | nil => rfl
  | cons child children ih => rw [allToYson, ih, List.map_cons]

theorem allFromYson_map {children : List Schema}
    (h : ∀ child ∈ children, fromYson child.toYson = .ok child) :
    allFromYson (children.map toYson) = .ok children := by
  induction children with
  | nil => rw [List.map_nil, allFromYson]
  | cons child children ih =>
    rw [List.map_cons, allFromYson, h child List.mem_cons_self,
      ih fun child' hchild => h child' (List.mem_cons_of_mem _ hchild)]
    rfl

/-- The fields of a schema's map, in key order. -/
def fields : Schema → Fields
  | ⟨wireType, name, children⟩ =>
    (if children.isEmpty then []
      else [(ascii "children", .bare (.list (children.map toYson)))]) ++
      name.toList.map (fun name => (ascii "name", stringValue name)) ++
      [(ascii "wire_type", stringValue wireType.asStr)]

theorem toYson_fields (schema : Schema) : schema.toYson = .bare (.map schema.fields) := by
  obtain ⟨wireType, name, children⟩ := schema
  rw [toYson.eq_def]
  dsimp only
  rw [allToYson_eq_map]
  cases name with
  | none => cases children <;> rfl
  | some name => cases children <;> rfl

theorem openMap_toYson (schema : Schema) : openMap schema.toYson = .ok schema.fields := by
  rw [toYson_fields]
  obtain ⟨wireType, name, children⟩ := schema
  cases name with
  | none => cases children <;> rfl
  | some name => cases children <;> rfl

theorem parseWireType_fields (schema : Schema) :
    parseWireType schema.fields = .ok schema.wireType := by
  have hstring : requiredString schema.fields "wire_type" "schema" =
      asUtf8String (stringValue schema.wireType.asStr) "schema" "wire_type" := by
    obtain ⟨wireType, name, children⟩ := schema
    cases name with
    | none => cases children <;> rfl
    | some name => cases children <;> rfl
  unfold parseWireType
  rw [hstring, asUtf8String_stringValue]
  show Except.bind _ _ = _
  unfold Except.bind
  dsimp only
  rw [WireType.parse_asStr]
  rfl

theorem optionalString_fields (schema : Schema) :
    optionalString schema.fields "name" "schema" = .ok schema.name := by
  obtain ⟨wireType, name, children⟩ := schema
  cases name with
  | none => cases children <;> rfl
  | some name =>
    have hfound : optionalString (fields ⟨wireType, some name, children⟩) "name" "schema" =
        (asUtf8String (stringValue name) "schema" "name").map some := by
      cases children <;> rfl
    rw [hfound, asUtf8String_stringValue]
    rfl

theorem childItems_fields (schema : Schema) :
    childItems schema.fields = .ok (schema.children.map toYson) := by
  obtain ⟨wireType, name, children⟩ := schema
  cases name with
  | none => cases children <;> rfl
  | some name => cases children <;> rfl

/-- `from_yson` once the map is open and its children are known. -/
theorem fromYson_of {input : YsonValue} {fields : Fields} {items : List YsonValue}
    (hfields : openMap input = .ok fields) (hitems : childItems fields = .ok items) :
    fromYson input = (do
      let wireType ← parseWireType fields
      let name ← optionalString fields "name" "schema"
      let children ← allFromYson items
      (Schema.mk wireType name children).validate
      pure (Schema.mk wireType name children)) := by
  rw [fromYson]
  split
  · rename_i e he
    rw [hfields] at he
    cases he
  · rename_i found he
    rw [hfields] at he
    cases he
    congr 1
    funext wireType
    congr 1
    funext name
    split
    · rename_i e he
      rw [hitems] at he
      cases he
    · rename_i found he
      rw [hitems] at he
      cases he
      rfl

/-- **A schema that passed its check is read back from its YSON form.** -/
theorem fromYson_toYson (schema : Schema) (h : schema.validate = .ok ()) :
    fromYson schema.toYson = .ok schema := by
  induction schema using Schema.induction with
  | node wireType name children ih =>
    have hchildren := (validate_node.mp h).2
    rw [fromYson_of (openMap_toYson _) (childItems_fields _), parseWireType_fields,
      optionalString_fields, allFromYson_map fun child hchild =>
        ih child hchild (hchildren child hchild)]
    show (validate ⟨wireType, name, children⟩ >>= fun _ => pure _) = _
    rw [h]
    rfl

end Schema

/-! ## References -/

namespace SchemaRef

/-- A reference written with its `$`: everything depends on what follows it. -/
theorem fromYson_registry (name : String) :
    fromYson (toYson (.registry name)) =
      if name = "" then .error .invalidRegistryReference else .ok (.registry name) := by
  have hread : fromYson (toYson (.registry name)) =
      fromYson (.bare (.string (0x24 :: asBytes name))) := by
    rw [toYson, stringValue, asBytes_reference]
  rw [hread]
  by_cases h : name = ""
  · rw [if_pos h, asBytes_eq_nil.mpr h]
    rfl
  · rw [if_neg h]
    cases hbytes : asBytes name with
    | nil => exact absurd (asBytes_eq_nil.mp hbytes) h
    | cons b bytes =>
      have hname : fromUtf8 (b :: bytes) = some name := by rw [← hbytes, fromUtf8_asBytes]
      simp only [fromYson, YsonValue.bare, List.isEmpty_cons, hname]
      rfl

theorem fromYson_inline {schema : Schema} (h : schema.validate = .ok ()) :
    fromYson (toYson (.inline schema)) = .ok (.inline schema) := by
  have hread : fromYson (toYson (.inline schema)) =
      (Schema.fromYson schema.toYson).map .inline := by
    rw [toYson, Schema.toYson_fields]
    rfl
  rw [hread, Schema.fromYson_toYson schema h]
  rfl

end SchemaRef

/-! ## The registry -/

/-- The entry of a registry as it is written. -/
def Registry.written (entry : String × Schema) : List UInt8 × YsonValue :=
  (asBytes entry.1, entry.2.toYson)

theorem registryEntries_written {registry entries : List (String × Schema)}
    (h : ∀ entry ∈ entries, entry.2.validate = .ok ()) :
    registryEntries registry (entries.map Registry.written) =
      .ok (SortedMap.extend registry entries) := by
  induction entries generalizing registry with
  | nil => rfl
  | cons entry entries ih =>
    rw [List.map_cons, Registry.written, registryEntries, fromUtf8_asBytes]
    dsimp only
    rw [Schema.fromYson_toYson entry.2 (h entry List.mem_cons_self)]
    exact ih fun entry' hentry => h entry' (List.mem_cons_of_mem _ hentry)

/-- The map a registry is written into holds its entries, in the order of their bytes. -/
theorem Registry.written_perm (registry : Registry) :
    ∃ entries : List (String × Schema), entries.Perm registry.entries ∧
      SortedMap.extend [] (registry.entries.map Registry.written) =
        entries.map Registry.written := by
  have hkeys : ((registry.entries.map Registry.written).map Prod.fst).Nodup := by
    have hnodup := registry.sorted.nodup_keys
    rw [List.map_map]
    have hcomp : Prod.fst ∘ Registry.written = asBytes ∘ Prod.fst := rfl
    rw [hcomp, ← List.map_map]
    exact List.Nodup.map (fun _ _ h => asBytes_injective h) hnodup
  have hperm := SortedMap.extend_perm (m := []) hkeys
  have hcomp : Relation.Comp (fun fields entries => fields = List.map Registry.written entries)
      List.Perm (SortedMap.extend [] (registry.entries.map Registry.written)) registry.entries := by
    rw [List.eq_map_comp_perm]
    exact hperm
  obtain ⟨entries, heq, hperm⟩ := hcomp
  exact ⟨entries, hperm, heq⟩

theorem Registry.ext {a b : Registry} (h : a.entries = b.entries) : a = b := by
  obtain ⟨entries, sorted⟩ := a
  obtain ⟨entries', sorted'⟩ := b
  obtain rfl : entries = entries' := h
  rfl

theorem Registry.ofFields_eq {registry : Registry} {fields : Fields}
    (h : registryEntries [] fields = .ok registry.entries) :
    Registry.ofFields fields = .ok registry := by
  unfold Registry.ofFields
  split
  · rename_i e he
    rw [h] at he
    cases he
  · rename_i entries he
    rw [h] at he
    cases he
    rfl

/-- **A registry of checked schemas is read back from its YSON form**, whatever the names. -/
theorem Registry.fromYson_toYson (registry : Registry)
    (h : ∀ entry ∈ registry.entries, entry.2.validate = .ok ()) :
    Registry.fromYson registry.toYson = .ok registry := by
  obtain ⟨entries, hperm, hwritten⟩ := registry.written_perm
  have hread : registryEntries [] (entries.map Registry.written) = .ok registry.entries := by
    rw [registryEntries_written fun entry hentry => h entry (hperm.mem_iff.mp hentry),
      SortedMap.extend_of_perm registry.sorted hperm]
  have htoYson : registry.toYson = .bare (.map (entries.map Registry.written)) := by
    rw [← hwritten]
    rfl
  rw [htoYson]
  exact Registry.ofFields_eq hread

/-! ## Formats -/

namespace FormatParts

variable {parts : FormatParts}

/-- What `Format::validate` looked at. -/
theorem validate_eq_ok (h : parts.validate = .ok ()) :
    (∀ entry ∈ parts.schemaRegistry.entries, entry.2.validate = .ok ()) ∧
      ∀ entry ∈ parts.tableSchemas.zipIdx, parts.checkReference entry.2 entry.1 = .ok () := by
  unfold validate at h
  by_cases hempty : parts.tableSchemas.isEmpty
  · rw [if_pos hempty] at h
    cases h
  · rw [if_neg hempty] at h
    obtain ⟨_, hregistry, htables⟩ := ExceptList.bind_eq_ok.mp h
    exact ⟨ExceptList.forM_eq_ok.mp hregistry, ExceptList.forM_eq_ok.mp htables⟩

theorem inline_valid (h : parts.validate = .ok ()) {schema : Schema}
    (hmem : .inline schema ∈ parts.tableSchemas) : schema.validate = .ok () := by
  obtain ⟨index, hlt, hget⟩ := List.getElem_of_mem hmem
  have hindexed : (.inline schema, index) ∈ parts.tableSchemas.zipIdx := by
    rw [List.mem_zipIdx_iff_getElem?, List.getElem?_eq_getElem hlt, hget]
  obtain ⟨_, hvalid, -⟩ := ExceptList.bind_eq_ok.mp ((validate_eq_ok h).2 _ hindexed)
  exact hvalid

end FormatParts

namespace Format

theorem fromParts_valid (format : Format) :
    fromParts format.tableSchemas format.schemaRegistry = .ok format := by
  unfold fromParts
  split
  · rename_i e he
    have hvalid := format.valid
    rw [he] at hvalid
    cases hvalid
  · rfl

/-- `from_yson` on a written format: everything but the references is read back. -/
theorem fromYson_toYson (format : Format) :
    fromYson format.toYson = (do
      let tableSchemas ←
        (format.tableSchemas.map SchemaRef.toYson).mapM SchemaRef.fromYson
      fromParts tableSchemas format.schemaRegistry) := by
  have hregistry := Registry.fromYson_toYson format.schemaRegistry
    (FormatParts.validate_eq_ok format.valid).1
  cases hentries : format.schemaRegistry.entries with
  | nil =>
    have hempty : format.schemaRegistry = .empty := Registry.ext hentries
    unfold FormatParts.toYson
    rw [hempty]
    rfl
  | cons entry entries =>
    have hread : fromYson format.toYson = (do
        let tableSchemas ←
          (format.tableSchemas.map SchemaRef.toYson).mapM SchemaRef.fromYson
        let schemaRegistry ← Registry.fromYson format.schemaRegistry.toYson
        fromParts tableSchemas schemaRegistry) := by
      unfold FormatParts.toYson
      rw [hentries]
      rfl
    rw [hread, hregistry]
    rfl

/-- The format of one table, found under the empty name. -/
def unnamedEntry : Format :=
  ⟨⟨[.registry ""], ⟨[("", ⟨.tuple, none, []⟩)], List.pairwise_singleton _ _⟩⟩, rfl⟩

theorem unnamedEntry_fromParts :
    fromParts unnamedEntry.tableSchemas unnamedEntry.schemaRegistry = .ok unnamedEntry :=
  fromParts_valid unnamedEntry

/-- **An accepted format survives its YSON form exactly when no table refers to the registry
entry with the empty name.** Everything else is read back as it was written: any registry
names, any column names, any nesting. -/
theorem survives_yson_iff (format : Format) :
    fromYson format.toYson = .ok format ↔ .registry "" ∉ format.tableSchemas := by
  rw [fromYson_toYson]
  constructor
  · intro h hmem
    obtain ⟨tableSchemas, htables, -⟩ := ExceptList.bind_eq_ok.mp h
    obtain ⟨reference, -, hread⟩ := ExceptList.forall₂_left (ExceptList.mapM_ok_iff.mp htables) _
      (List.mem_map_of_mem hmem)
    rw [SchemaRef.fromYson_registry, if_pos rfl] at hread
    cases hread
  · intro h
    rw [ExceptList.mapM_map_ok]
    · exact fromParts_valid format
    intro reference hmem
    cases reference with
    | inline schema => exact SchemaRef.fromYson_inline (FormatParts.inline_valid format.valid hmem)
    | registry name =>
      have hname : name ≠ "" := by
        intro hempty
        rw [hempty] at hmem
        exact h hmem
      rw [SchemaRef.fromYson_registry, if_neg hname]

/-- `$` alone: the format is accepted and written, and its own YSON form is refused. -/
theorem unnamed_reference_refused :
    fromParts unnamedEntry.tableSchemas unnamedEntry.schemaRegistry = .ok unnamedEntry ∧
      fromYson unnamedEntry.toYson ≠ .ok unnamedEntry := by
  constructor
  · exact unnamedEntry_fromParts
  · rw [fromYson_toYson]
    intro h
    have hrefused : SchemaRef.fromYson (SchemaRef.toYson (.registry "")) =
        .error .invalidRegistryReference := SchemaRef.fromYson_registry ""
    obtain ⟨tableSchemas, htables, -⟩ := ExceptList.bind_eq_ok.mp h
    obtain ⟨reference, -, hread⟩ := ExceptList.forall₂_left (ExceptList.mapM_ok_iff.mp htables) _
      List.mem_cons_self
    rw [hrefused] at hread
    cases hread

end Format

end Skiff
end Ytsaurus
