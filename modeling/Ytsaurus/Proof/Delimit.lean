import Ytsaurus.Proof.RoundTrip
import Ytsaurus.Proof.ScanStable

/-!
# `Proof/Delimit.lean` — what the serializer writes, the scanner delimits

Two parts of the crate that share no code meet on documents. `Encodes` says which document
a tree of serializer calls writes, `Doc.Scans` which documents the scanner delimits; so the
output of the calls is one record as soon as its document scans (`Encodes.scanned`). In binary
a value even says itself where it ends: the scanner stops at its last byte whatever follows it
(`YsonValue.scan_toVec`).

The scanner and the decoder count nesting differently. For the scanner an attribute block and the
body behind it stand side by side; the decoder reads the two as one map, which is a level, and
a list in the place of the body is one level further in. `YsonValue.nesting` is the scanner's
count, on values, and it is never the larger one (`YsonValue.nesting_le`), so what the decoder
would read back the scanner delimits.

Which trees write a document at all is `Data.Shaped.encodes`: structs with `@` fields can
fail, and when they do not, their fields stand in an order that can be written. Everything else
about a tree is decided by its shape, and the shape of the calls of a `YsonValue` is one of those
listed.
-/

set_option autoImplicit false

namespace Ytsaurus.Yson

/-! ## Nesting as the scanner counts -/

mutual

/-- The levels of containers and attribute blocks in a value. -/
def YsonValue.nesting : YsonValue → Nat
  | ⟨some (e :: es), node⟩ => max (entriesNesting (e :: es) + 1) node.nesting
  | ⟨_, node⟩ => node.nesting

def YsonNode.nesting : YsonNode → Nat
  | .list items => itemsNesting items + 1
  | .map es => entriesNesting es + 1
  | _ => 0

def itemsNesting : List YsonValue → Nat
  | [] => 0
  | v :: vs => max v.nesting (itemsNesting vs)

def entriesNesting : List (List UInt8 × YsonValue) → Nat
  | [] => 0
  | (_, v) :: es => max v.nesting (entriesNesting es)

end

theorem YsonNode.doc_isAttributed (node : YsonNode) : node.doc.isAttributed = false := by
  cases node <;> rfl

mutual

/-- **The document of a value scans when the value nests within the limit.** -/
theorem YsonValue.doc_scans : ∀ (v : YsonValue) {limit depth : Nat},
    depth + v.nesting ≤ limit → v.doc.Scans limit depth
  | ⟨some (e :: es), node⟩, limit, depth, h => by
    rw [YsonValue.nesting] at h
    refine ⟨⟨by omega, ?_⟩, node.doc_isAttributed, node.doc_scans (by omega)⟩
    exact entriesDoc_scan (e :: es) true (by omega)
  | ⟨some [], node⟩, limit, depth, h => node.doc_scans (by simpa [YsonValue.nesting] using h)
  | ⟨none, node⟩, limit, depth, h => node.doc_scans (by simpa [YsonValue.nesting] using h)

theorem YsonNode.doc_scans : ∀ (node : YsonNode) {limit depth : Nat},
    depth + node.nesting ≤ limit → node.doc.Scans limit depth
  | .list items, limit, depth, h => by
    rw [YsonNode.nesting] at h
    exact ⟨by omega, itemsDoc_scan items true (by omega)⟩
  | .map es, limit, depth, h => by
    rw [YsonNode.nesting] at h
    exact ⟨by omega, entriesDoc_scan es true (by omega)⟩
  | .entity, _, _, h | .boolean _, _, _, h | .int64 _, _, _, h | .uint64 _, _, _, h
  | .double _, _, _, h | .string _, _, _, h => h

theorem itemsDoc_scan : ∀ (vs : List YsonValue) (first : Bool) {limit depth : Nat},
    depth + itemsNesting vs ≤ limit → itemsScan limit depth (spaced first (itemsDoc vs))
  | [], _, _, _, _ => trivial
  | v :: vs, first, limit, depth, h => by
    rw [itemsNesting] at h
    exact ⟨v.doc_scans (by omega), itemsDoc_scan vs false (by omega)⟩

theorem entriesDoc_scan : ∀ (es : List (List UInt8 × YsonValue)) (first : Bool)
    {limit depth : Nat}, depth + entriesNesting es ≤ limit →
      pairsScan limit depth (spaced first (entriesDoc es))
  | [], _, _, _, _ => trivial
  | (k, v) :: es, first, limit, depth, h => by
    rw [entriesNesting] at h
    exact ⟨v.doc_scans (by omega), entriesDoc_scan es false (by omega)⟩

end

mutual

/-- **The scanner counts no more levels than the decoder.** -/
theorem YsonValue.nesting_le : ∀ v : YsonValue, v.nesting ≤ v.doc.levels
  | ⟨some (e :: es), node⟩ => by
    have hattributes := entriesNesting_le (e :: es) true
    have hnode := node.nesting_le_body
    rw [YsonValue.nesting, YsonValue.doc, Doc.levels, Doc.levelsIn]
    omega
  | ⟨some [], node⟩ => node.nesting_le
  | ⟨none, node⟩ => node.nesting_le

theorem YsonNode.nesting_le : ∀ node : YsonNode, node.nesting ≤ node.doc.levels
  | .list items => Nat.succ_le_succ (itemsNesting_le items true)
  | .map es => Nat.succ_le_succ (entriesNesting_le es true)
  | .entity | .boolean _ | .int64 _ | .uint64 _ | .double _ | .string _ => Nat.le_refl 0

/-- As the body of an attributed value a map is no level of its own. -/
theorem YsonNode.nesting_le_body : ∀ node : YsonNode,
    node.nesting ≤ node.doc.levelsIn false + 1
  | .list items => Nat.le_succ_of_le (Nat.succ_le_succ (itemsNesting_le items true))
  | .map es => Nat.succ_le_succ (entriesNesting_le es true)
  | .entity | .boolean _ | .int64 _ | .uint64 _ | .double _ | .string _ => Nat.zero_le _

theorem itemsNesting_le : ∀ (vs : List YsonValue) (first : Bool),
    itemsNesting vs ≤ itemsLevels (spaced first (itemsDoc vs))
  | [], _ => Nat.le_refl 0
  | v :: vs, first => by
    rw [itemsNesting, itemsDoc, spaced, itemsLevels]
    exact max_le_max v.nesting_le (itemsNesting_le vs false)

theorem entriesNesting_le : ∀ (es : List (List UInt8 × YsonValue)) (first : Bool),
    entriesNesting es ≤ pairsLevels (spaced first (entriesDoc es))
  | [], _ => Nat.le_refl 0
  | (k, v) :: es, first => by
    rw [entriesNesting, entriesDoc, spaced, pairsLevels]
    exact max_le_max v.nesting_le (entriesNesting_le es false)

end

/-! ## Output and scanner -/

variable [FloatText]

/-- **The output of calls that encode a document is one record exactly when the document
scans.** -/
theorem Encodes.scanned {data : Data} {d : Doc} {f : YsonFormat}
    (h : Encodes f.isBinary data d) :
    ∃ bytes, toVec data f = .ok bytes ∧ Spells bytes f d.toks ∧
      (scanValue bytes f = .ok (.complete bytes.length) ↔ d.Scans MAX_DEPTH 0) := by
  obtain ⟨bytes, hrun, hwrites⟩ := h.serialize (.new f.isBinary) rfl rfl
  obtain ⟨it, hlex, hrest⟩ := hwrites.spells
  have hwhole : ∀ {it' : YsonIterator} {ts : List Token},
      Lexes (.new bytes f.isBinary) ts it' → it'.pos + it'.rest.length = bytes.length := by
    intro it' ts hlex'
    obtain ⟨n, _, hn⟩ := hlex'.advanced
    have hpos := hn.pos
    have hlen := hn.length
    simp only [YsonIterator.new] at hpos hlen
    omega
  refine ⟨bytes, by rw [toVec, hrun]; rfl, ⟨it, hlex, exhausted_of_rest hrest⟩, ?_⟩
  rw [scanValue_complete_iff]
  constructor
  · rintro ⟨d', it', hd', hlex', hpos⟩
    have hrest' : it'.rest = [] := by
      have := hwhole hlex'
      exact List.eq_nil_of_length_eq_zero (by omega)
    have htoks := lexes_exhausted_unique hlex hlex' (exhausted_of_rest hrest)
      (exhausted_of_rest hrest')
    obtain rfl := (Doc.toks_inj d d' (congrArg (· ++ []) htoks)).1
    exact hd'
  · intro hd
    have hpos := hwhole hlex
    rw [hrest, List.length_nil, Nat.add_zero] at hpos
    exact ⟨d, it, hd, hlex, hpos⟩

/-- **A binary value says itself where it ends**: whatever follows it, the scanner stops at
its last byte. -/
theorem YsonValue.scan_toVec {v : YsonValue} (hvalid : v.All Valid)
    (hnesting : v.nesting ≤ MAX_DEPTH) :
    ∃ bytes, v.toVec .binary = .ok bytes ∧
      ∀ t, scanValue (bytes ++ t) .binary = .ok (.complete bytes.length) := by
  have hencodes : Encodes true v.toData v.doc :=
    YsonValue.encodes (fun hb => by cases hb) v hvalid (fun hb => by cases hb)
  obtain ⟨bytes, hbytes, _, hscan⟩ := Encodes.scanned (f := .binary) hencodes
  have hd : v.doc.Scans MAX_DEPTH 0 := v.doc_scans (by omega)
  exact ⟨bytes, hbytes, scanValue_extend_complete (hscan.mpr hd)⟩

omit [FloatText] in
theorem YsonValue.scan_tagged_list :
    ∃ bytes, @YsonValue.toVec plainFloatText (tagged (.list [])) .binary = .ok bytes ∧
      ∀ t, @scanValue plainFloatText (bytes ++ t) .binary = .ok (.complete bytes.length) :=
  @YsonValue.scan_toVec plainFloatText _ tagged_list_valid (by decide +kernel)

/-! ## Trees that write a document -/

/-- An attribute block: a map or a struct, optional or not. -/
def Data.IsBlock : Data → Prop
  | .map _ => True
  | .struct name _ => name ≠ De.attributesStruct
  | .some a => a.IsBlock
  | _ => False

/-- Trees of scalars, strings, options, units, sequences, string-keyed maps, structs with any
field names, and values with an attribute block. -/
inductive Data.Shaped : Data → Prop where
  | bool (v : Bool) : Shaped (.bool v)
  | i64 (v : Int64) : Shaped (.i64 v)
  | u64 (v : UInt64) : Shaped (.u64 v)
  | f64 (v : F64) : Shaped (.f64 v)
  | str {s : List UInt8} (h : s.length ≤ isizeMax) : Shaped (.str s)
  | bytes {s : List UInt8} (h : s.length ≤ isizeMax) : Shaped (.bytes s)
  | unit : Shaped .unit
  | some {v : Data} (h : Shaped v) : Shaped (.some v)
  | seq {items : List Data} (h : ∀ v ∈ items, Shaped v) : Shaped (.seq items)
  | map {entries : List (Data × Data)} (hkeys : ∀ e ∈ entries, ∃ k, EncodesKey e.1 k)
      (h : ∀ e ∈ entries, Shaped e.2) : Shaped (.map entries)
  | struct {name : List UInt8} {fields : List (List UInt8 × Data)}
      (hname : name ≠ De.attributesStruct) (hkeys : ∀ f ∈ fields, f.1.length ≤ isizeMax)
      (h : ∀ f ∈ fields, Shaped f.2) : Shaped (.struct name fields)
  | withAttributes {a v : Data} (hblock : a.IsBlock) (ha : Shaped a) (h : Shaped v) :
      Shaped (.struct De.attributesStruct [(ascii "$attributes", a), (valueKey, v)])

/-- Wherever the calls succeed, they write a document. -/
def Data.Encodable (isBinary : Bool) (data : Data) : Prop :=
  ∀ ser ser' : Serializer, ser.isBinary = isBinary → ser.isWritingAttributes = false →
    data.serialize ser = .ok ser' → ∃ d, Encodes isBinary data d

variable {isBinary : Bool}

/-- What a value leaves behind: more output, the flags as they were. -/
theorem Data.Encodable.serialize {v : Data} (h : v.Encodable isBinary) {ser ser' : Serializer}
    (hrun : v.serialize ser = .ok ser') (hb : ser.isBinary = isBinary)
    (hw : ser.isWritingAttributes = false) :
    (∃ d, Encodes isBinary v d) ∧ ser'.isBinary = isBinary ∧ ser'.isWritingAttributes = false := by
  obtain ⟨d, hd⟩ := h ser ser' hb hw hrun
  obtain ⟨bs, hser, _⟩ := hd.serialize ser hb hw
  cases hrun.symm.trans hser
  exact ⟨⟨d, hd⟩, hb, hw⟩

theorem elements_encode {items : List Data} (h : ∀ v ∈ items, v.Encodable isBinary)
    {c c' : Compound} (hb : c.ser.isBinary = isBinary) (hw : c.ser.isWritingAttributes = false)
    (hrun : serializeElements items c = .ok c') : ∃ ds, EncodesItems isBinary items ds := by
  induction items generalizing c with
  | nil => exact ⟨[], .nil⟩
  | cons v items ih =>
    rw [serializeElements, Compound.checkFirst_eq] at hrun
    obtain ⟨ser, hv, hrun⟩ := ExceptList.bind_eq_ok.mp hrun
    obtain ⟨⟨d, hd⟩, hb', hw'⟩ := (h v List.mem_cons_self).serialize hv hb hw
    obtain ⟨ds, hds⟩ := ih (fun v hv => h v (List.mem_cons_of_mem _ hv)) hb' hw' hrun
    exact ⟨d :: ds, .cons hd hds⟩

theorem entries_encode {entries : List (Data × Data)} (hkeys : ∀ e ∈ entries, ∃ k, EncodesKey e.1 k)
    (h : ∀ e ∈ entries, e.2.Encodable isBinary) {c c' : Compound} (hb : c.ser.isBinary = isBinary)
    (hw : c.ser.isWritingAttributes = false) (hrun : serializeEntries entries c = .ok c') :
    ∃ es, EncodesEntries isBinary entries es := by
  induction entries generalizing c with
  | nil => exact ⟨[], .nil⟩
  | cons e entries ih =>
    obtain ⟨key, v⟩ := e
    obtain ⟨k, hk⟩ := hkeys _ List.mem_cons_self
    rw [serializeEntries, Compound.checkFirst_eq] at hrun
    obtain ⟨ser₁, hkrun, hrun⟩ := ExceptList.bind_eq_ok.mp hrun
    obtain ⟨kb, hser, _⟩ := hk.serialize (c.ser.extend (sepBytes c.first))
    cases hkrun.symm.trans hser
    obtain ⟨ser, hv, hrun⟩ := ExceptList.bind_eq_ok.mp hrun
    obtain ⟨⟨d, hd⟩, hb', hw'⟩ := (h _ List.mem_cons_self).serialize hv hb hw
    obtain ⟨es, hes⟩ := ih (fun e he => hkeys e (List.mem_cons_of_mem _ he))
      (fun e he => h e (List.mem_cons_of_mem _ he)) hb' hw' hrun
    exact ⟨(k, d) :: es, .cons hk hd hes⟩

/-- Fields in a mode in which every field that can be written is written as a pair. -/
theorem fields_encode {fields : List (List UInt8 × Data)} {mode : CompoundMode}
    {P : List UInt8 → Prop}
    (hmode : ∀ (key : List UInt8) (c : Compound) (o : Option Compound), c.mode = mode →
      c.beginField key = .ok o → mode.Names key key ∧ P key)
    (hkeys : ∀ f ∈ fields, f.1.length ≤ isizeMax)
    (h : ∀ f ∈ fields, f.2.Encodable isBinary) {c c' : Compound} (hc : c.mode = mode)
    (hb : c.ser.isBinary = isBinary) (hw : c.ser.isWritingAttributes = false)
    (hrun : serializeFields fields c = .ok c') :
    ∃ es, EncodesFields isBinary fields es ∧ ∀ e ∈ es, P e.1 := by
  induction fields generalizing c with
  | nil => exact ⟨[], .nil, by simp⟩
  | cons f fields ih =>
    obtain ⟨k, v⟩ := f
    rw [serializeFields] at hrun
    obtain ⟨o, hbegin, hrun⟩ := ExceptList.bind_eq_ok.mp hrun
    obtain ⟨hnames, hkey⟩ := hmode k c o hc hbegin
    rw [hnames c hc, Compound.checkFirst_eq] at hbegin
    cases hbegin
    obtain ⟨ser, hv, hrun⟩ := ExceptList.bind_eq_ok.mp hrun
    obtain ⟨⟨d, hd⟩, hb', hw'⟩ := (h _ List.mem_cons_self).serialize hv hb hw
    obtain ⟨es, hes, hplain⟩ := ih (c := ⟨ser, false, c.mode⟩) (fun f hf => hkeys f (List.mem_cons_of_mem _ hf))
      (fun f hf => h f (List.mem_cons_of_mem _ hf)) hc hb' hw' hrun
    exact ⟨(k, d) :: es, .cons (hkeys _ List.mem_cons_self) hd hes,
      List.forall_mem_cons.mpr ⟨hkey, hplain⟩⟩

omit [FloatText] in
/-- Once the body of a struct is open, only plain fields can follow. -/
theorem body_names (key : List UInt8) (c : Compound) (o : Option Compound)
    (hc : c.mode = .struct false true false) (h : c.beginField key = .ok o) :
    CompoundMode.Names (.struct false true false) key key ∧ isPlainKey key := by
  suffices hplain : isPlainKey key from ⟨CompoundMode.names_plain hplain, hplain⟩
  rw [Compound.beginField, hc] at h
  simp only at h
  split at h
  · cases h
  · rename_i hattr
    by_cases hkey : key = valueKey
    · simp [hkey] at h
    · exact isPlainKey_iff.mpr ⟨fun name => hattr name, hkey⟩

/-- Nothing can follow `$value`. -/
theorem value_last {fields : List (List UInt8 × Data)} {c c' : Compound}
    (hc : c.mode = .struct false false true) (h : serializeFields fields c = .ok c') :
    fields = [] := by
  cases fields with
  | nil => rfl
  | cons f fields =>
    obtain ⟨k, v⟩ := f
    rw [serializeFields] at h
    obtain ⟨o, hbegin, -⟩ := ExceptList.bind_eq_ok.mp h
    rw [Compound.beginField, hc] at hbegin
    simp only at hbegin
    split at hbegin
    · cases hbegin
    · split at hbegin <;> cases hbegin

/-- An `@` field inside the attribute block. -/
theorem attribute_encodes {k : List UInt8} {v : Data} {fields : List (List UInt8 × Data)}
    {c c' : Compound} (h : v.Encodable isBinary) (hc : c.mode = .struct true false false)
    (hb : c.ser.isBinary = isBinary) (hw : c.ser.isWritingAttributes = false)
    (hrun : serializeFields ((0x40 :: k, v) :: fields) c = .ok c') :
    (∃ d, Encodes isBinary v d) ∧ ∃ c₁ : Compound, c₁.mode = .struct true false false ∧
      c₁.ser.isBinary = isBinary ∧ c₁.ser.isWritingAttributes = false ∧
      serializeFields fields c₁ = .ok c' := by
  rw [serializeFields, CompoundMode.names_attribute k c hc, Compound.checkFirst_eq] at hrun
  obtain ⟨_, ⟨⟩, hrun⟩ := ExceptList.bind_eq_ok.mp hrun
  obtain ⟨ser, hv, hrun⟩ := ExceptList.bind_eq_ok.mp hrun
  obtain ⟨hd, hb', hw'⟩ := h.serialize hv hb hw
  exact ⟨hd, ⟨ser, false, c.mode⟩, hc, hb', hw', hrun⟩

/-- Inside the attribute block of a struct: more `@` fields, then a body. -/
theorem behind_attributes {fields : List (List UInt8 × Data)}
    (hkeys : ∀ f ∈ fields, f.1.length ≤ isizeMax) (h : ∀ f ∈ fields, f.2.Encodable isBinary)
    {c c' : Compound} (hc : c.mode = .struct true false false) (hb : c.ser.isBinary = isBinary)
    (hw : c.ser.isWritingAttributes = false) (hrun : serializeFields fields c = .ok c') :
    ∃ attrs rest es body, fields = attrs.map attributeField ++ rest ∧
      EncodesFields isBinary attrs es ∧ EncodesBody isBinary rest body := by
  induction fields generalizing c with
  | nil => exact ⟨[], [], [], .entity, rfl, .nil, .entity⟩
  | cons f fields ih =>
    obtain ⟨k, v⟩ := f
    have hkeys' := fun f hf => hkeys f (List.mem_cons_of_mem _ hf)
    have h' := fun f hf => h f (List.mem_cons_of_mem _ hf)
    obtain ⟨ser, first, mode⟩ := c
    subst hc
    rcases key_cases k with ⟨name, rfl⟩ | rfl | hplain
    · obtain ⟨⟨d, hd⟩, c₁, hc₁, hb₁, hw₁, hrun⟩ :=
        attribute_encodes (h _ List.mem_cons_self) rfl hb hw hrun
      obtain ⟨attrs, rest, es, body, rfl, hes, hbody⟩ := ih hkeys' h' hc₁ hb₁ hw₁ hrun
      have hname : name.length ≤ isizeMax := Nat.le_of_succ_le (hkeys _ List.mem_cons_self)
      exact ⟨(name, v) :: attrs, rest, (name, d) :: es, body, rfl, .cons hname hd hes, hbody⟩
    · rw [serializeFields, Compound.beginField_value] at hrun
      obtain ⟨_, ⟨⟩, hrun⟩ := ExceptList.bind_eq_ok.mp hrun
      obtain ⟨ser', hv, hrun⟩ := ExceptList.bind_eq_ok.mp hrun
      obtain ⟨⟨d, hd⟩, -, -⟩ := (h _ List.mem_cons_self).serialize hv hb hw
      obtain rfl := value_last rfl hrun
      exact ⟨[], _, [], d, rfl, .nil, .value hd⟩
    · rw [serializeFields_first _ _ _ hplain] at hrun
      obtain ⟨es, hes, hall⟩ := fields_encode
        (c := ⟨(ser.push 0x3E).push 0x7B, true, .struct false true false⟩)
        body_names hkeys h rfl hb hw hrun
      exact ⟨[], _, [], _, rfl, .nil, .map (List.cons_ne_nil _ _) hes hall⟩

/-- **A struct whose calls succeed writes a document.** -/
theorem struct_encodes {name : List UInt8} {fields : List (List UInt8 × Data)}
    (hname : name ≠ De.attributesStruct) (hkeys : ∀ f ∈ fields, f.1.length ≤ isizeMax)
    (h : ∀ f ∈ fields, f.2.Encodable isBinary) : (Data.struct name fields).Encodable isBinary := by
  intro ser ser' hb hw hrun
  rw [Data.serialize, if_neg hname, if_neg (by simp [hw])] at hrun
  obtain ⟨c', hrun, -⟩ := ExceptList.bind_eq_ok.mp hrun
  cases fields with
  | nil => exact ⟨_, .struct hname .nil (by simp)⟩
  | cons f fields =>
    obtain ⟨k, v⟩ := f
    have hkeys' := fun f hf => hkeys f (List.mem_cons_of_mem _ hf)
    have h' := fun f hf => h f (List.mem_cons_of_mem _ hf)
    rcases key_cases k with ⟨attr, rfl⟩ | rfl | hplain
    · rw [serializeFields_attribute] at hrun
      obtain ⟨⟨d, hd⟩, c₁, hc₁, hb₁, hw₁, hrun⟩ :=
        attribute_encodes (h _ List.mem_cons_self) rfl hb hw hrun
      obtain ⟨attrs, rest, es, body, rfl, hes, hbody⟩ :=
        behind_attributes hkeys' h' hc₁ hb₁ hw₁ hrun
      have hattr : attr.length ≤ isizeMax := Nat.le_of_succ_le (hkeys _ List.mem_cons_self)
      have hcons := EncodesFields.cons hattr hd hes
      exact ⟨_, .structAttributes hname (List.cons_ne_nil (attr, v) attrs) hcons hbody⟩
    · rw [serializeFields, Compound.beginField_value] at hrun
      obtain ⟨_, ⟨⟩, hrun⟩ := ExceptList.bind_eq_ok.mp hrun
      obtain ⟨ser', hv, hrun⟩ := ExceptList.bind_eq_ok.mp hrun
      obtain ⟨⟨d, hd⟩, -, -⟩ := (h _ List.mem_cons_self).serialize hv hb hw
      obtain rfl := value_last rfl hrun
      exact ⟨d, .structValue hname hd⟩
    · rw [serializeFields_first _ _ _ hplain] at hrun
      obtain ⟨es, hes, hall⟩ := fields_encode
        (c := ⟨ser.push 0x7B, true, .struct false true false⟩)
        body_names hkeys h rfl hb hw hrun
      exact ⟨_, .struct hname hes hall⟩

/-- In attribute position the calls, if they succeed, write an attribute block. -/
def Data.BlockEncodable (isBinary : Bool) (a : Data) : Prop :=
  ∀ ser ser' : Serializer, ser.isBinary = isBinary → ser.isWritingAttributes = false →
    a.serialize { ser with isWritingAttributes := true } = .ok ser' →
    ∃ es, EncodesAttributes isBinary a es

theorem withAttributes_encodes {a v : Data} (ha : a.BlockEncodable isBinary)
    (h : v.Encodable isBinary) :
    (Data.struct De.attributesStruct
      [(ascii "$attributes", a), (valueKey, v)]).Encodable isBinary := by
  intro ser ser' hb hw hrun
  rw [Data.serialize, if_pos rfl] at hrun
  simp only [serializeFields, Compound.beginField, if_pos, if_neg valueKey_ne_attributes] at hrun
  obtain ⟨c, hrun, -⟩ := ExceptList.bind_eq_ok.mp hrun
  obtain ⟨_, ⟨⟩, hrun⟩ := ExceptList.bind_eq_ok.mp hrun
  obtain ⟨ser₁, harun, hrun⟩ := ExceptList.bind_eq_ok.mp hrun
  obtain ⟨_, ⟨⟩, hrun⟩ := ExceptList.bind_eq_ok.mp hrun
  obtain ⟨ser₂, hvrun, -⟩ := ExceptList.bind_eq_ok.mp hrun
  obtain ⟨es, hes⟩ := ha _ _ hb hw harun
  obtain ⟨ab, hser, -⟩ := hes.serialize ser hb hw
  cases harun.symm.trans hser
  obtain ⟨⟨d, hd⟩, -, -⟩ := h.serialize hvrun hb hw
  exact ⟨_, .withAttributes hes hd⟩

theorem map_block {entries : List (Data × Data)} (hkeys : ∀ e ∈ entries, ∃ k, EncodesKey e.1 k)
    (h : ∀ e ∈ entries, e.2.Encodable isBinary) : (Data.map entries).BlockEncodable isBinary := by
  intro ser ser' hb hw hrun
  rw [Data.serialize, if_pos rfl] at hrun
  obtain ⟨c, hrun, -⟩ := ExceptList.bind_eq_ok.mp hrun
  obtain ⟨es, hes⟩ := entries_encode hkeys h hb rfl hrun
  exact ⟨es, .map hes⟩

theorem struct_block {name : List UInt8} {fields : List (List UInt8 × Data)}
    (hname : name ≠ De.attributesStruct) (hkeys : ∀ f ∈ fields, f.1.length ≤ isizeMax)
    (h : ∀ f ∈ fields, f.2.Encodable isBinary) :
    (Data.struct name fields).BlockEncodable isBinary := by
  intro ser ser' hb hw hrun
  rw [Data.serialize, if_neg hname, if_pos rfl] at hrun
  obtain ⟨c, hrun, -⟩ := ExceptList.bind_eq_ok.mp hrun
  have hmode : ∀ (key : List UInt8) (c : Compound) (o : Option Compound), c.mode = .attr →
      c.beginField key = .ok o → CompoundMode.attr.Names key key ∧ True :=
    fun key _ _ _ _ => ⟨CompoundMode.names_same (.inl rfl) key, trivial⟩
  obtain ⟨es, hes, -⟩ := fields_encode hmode hkeys h rfl hb rfl hrun
  exact ⟨es, .struct hname hes⟩

/-- **Every tree of the listed shapes whose calls succeed writes a document.** -/
theorem Data.Shaped.encodable {data : Data} (hfloat : isBinary = false → FloatText.Inverse)
    (hdata : data.Shaped) :
    data.Encodable isBinary ∧ (data.IsBlock → data.BlockEncodable isBinary) := by
  induction hdata with
  | bool v => exact ⟨fun _ _ _ _ _ => ⟨_, .bool v⟩, False.elim⟩
  | i64 v => exact ⟨fun _ _ _ _ _ => ⟨_, .i64 v⟩, False.elim⟩
  | u64 v => exact ⟨fun _ _ _ _ _ => ⟨_, .u64 v⟩, False.elim⟩
  | str h => exact ⟨fun _ _ _ _ _ => ⟨_, .str h⟩, False.elim⟩
  | bytes h => exact ⟨fun _ _ _ _ _ => ⟨_, .bytes h⟩, False.elim⟩
  | unit => exact ⟨fun _ _ _ _ _ => ⟨_, .unit⟩, False.elim⟩
  | f64 v =>
    refine ⟨fun _ _ _ _ _ => ?_, False.elim⟩
    by_cases hnan : isBinary = false ∧ v.isNan = true
    · exact ⟨_, .nan hnan.1 hnan.2⟩
    · refine ⟨_, .f64 fun hb => ⟨hfloat hb, ?_⟩⟩
      simpa [hb] using hnan
  | some _ ih =>
    refine ⟨fun ser ser' hb hw hrun => ?_, fun hblock ser ser' hb hw hrun => ?_⟩
    · rw [Data.serialize] at hrun
      obtain ⟨d, hd⟩ := ih.1 _ _ hb hw hrun
      exact ⟨d, .some hd⟩
    · rw [Data.serialize] at hrun
      obtain ⟨es, hes⟩ := ih.2 hblock _ _ hb hw hrun
      exact ⟨es, .some hes⟩
  | seq _ ih =>
    refine ⟨fun ser ser' hb hw hrun => ?_, False.elim⟩
    rw [Data.serialize] at hrun
    obtain ⟨c, hrun, -⟩ := ExceptList.bind_eq_ok.mp hrun
    obtain ⟨ds, hds⟩ := elements_encode (fun v hv => (ih v hv).1) (by exact hb) (by exact hw) hrun
    exact ⟨_, .seq hds⟩
  | map hkeys _ ih =>
    refine ⟨fun ser ser' hb hw hrun => ?_, fun _ => map_block hkeys fun e he => (ih e he).1⟩
    rw [Data.serialize, if_neg (by simp [hw])] at hrun
    obtain ⟨c, hrun, -⟩ := ExceptList.bind_eq_ok.mp hrun
    obtain ⟨es, hes⟩ := entries_encode hkeys (fun e he => (ih e he).1) hb rfl hrun
    exact ⟨_, .map hes⟩
  | struct hname hkeys _ ih =>
    exact ⟨struct_encodes hname hkeys fun f hf => (ih f hf).1,
      fun _ => struct_block hname hkeys fun f hf => (ih f hf).1⟩
  | withAttributes hblock _ _ iha ih =>
    exact ⟨withAttributes_encodes (iha.2 hblock) ih.1, fun h => absurd rfl h⟩

/-! ## The tree of a value -/

omit [FloatText] in
theorem byteString_shaped {s : List UInt8} (h : s.length ≤ isizeMax) : (byteString s).Shaped := by
  rw [byteString]
  split
  · exact .str h
  · exact .bytes h

omit [FloatText] in
theorem mem_byteKeyedMap {es : List (List UInt8 × YsonValue)} {entry : Data × Data}
    (h : entry ∈ byteKeyedMap es) : ∃ e ∈ es, entry = (byteString e.1, e.2.toData) := by
  induction es with
  | nil => cases h
  | cons e es ih =>
    rcases List.mem_cons.mp h with rfl | h
    · exact ⟨e, List.mem_cons_self, rfl⟩
    · obtain ⟨e', he', hentry⟩ := ih h
      exact ⟨e', List.mem_cons_of_mem _ he', hentry⟩

theorem byteKeyedMap_shaped {es : List (List UInt8 × YsonValue)}
    (hkeys : ∀ e ∈ es, e.1.length ≤ isizeMax)
    (h : ∀ w ∈ es.map Prod.snd, w.toData.Shaped) : (Data.map (byteKeyedMap es)).Shaped := by
  apply Data.Shaped.map
  · intro entry hentry
    obtain ⟨e, he, rfl⟩ := mem_byteKeyedMap hentry
    exact ⟨e.1, (YsonValue.byteString_encodes true (hkeys e he)).1⟩
  · intro entry hentry
    obtain ⟨e, he, rfl⟩ := mem_byteKeyedMap hentry
    exact h e.2 (List.mem_map_of_mem he)

omit [FloatText] in
theorem valuesToData_shaped {vs : List YsonValue} (h : ∀ w ∈ vs, w.toData.Shaped) :
    ∀ data ∈ valuesToData vs, data.Shaped := by
  induction vs with
  | nil =>
    intro data hdata
    cases hdata
  | cons v vs ih =>
    rw [valuesToData, List.forall_mem_cons]
    constructor
    · exact h v List.mem_cons_self
    · exact ih fun w hw => h w (List.mem_cons_of_mem _ hw)

theorem YsonNode.shaped {node : YsonNode} (hvalid : (YsonValue.bare node).Valid)
    (h : ∀ w ∈ node.children, w.toData.Shaped) : node.toData.Shaped := by
  cases node with
  | entity => exact .unit
  | boolean v => exact .bool v
  | int64 v => exact .i64 v
  | uint64 v => exact .u64 v
  | double v => exact .f64 v
  | string s => exact byteString_shaped (hvalid.string s rfl)
  | list items => exact .seq (valuesToData_shaped h)
  | map es => exact byteKeyedMap_shaped (hvalid.map es rfl).keys h

/-- **The calls of a value have one of the listed shapes.** -/
theorem YsonValue.shaped (v : YsonValue) (hvalid : v.All Valid) : v.toData.Shaped := by
  induction v using children_induction with
  | h v ih =>
    have hinside : ∀ w ∈ v.children, w.toData.Shaped := by
      intro w hw
      exact ih w hw (hvalid.inside w hw)
    have hnode : v.node.toData.Shaped :=
      YsonNode.shaped hvalid.here.bare fun w hw => hinside w (mem_node_children hw)
    obtain ⟨attributes, node⟩ := v
    cases attributes with
    | none => exact hnode
    | some es =>
      cases es with
      | nil => exact hnode
      | cons e es =>
        refine .withAttributes trivial ?_ hnode
        exact byteKeyedMap_shaped hvalid.here.attributes.keys
          fun w hw => hinside w (List.mem_append_left _ hw)

/-- **What the serializer emits spells exactly one document**, and the scanner delimits it as
one record with nothing left over exactly when no attribute block stands directly behind
another and it nests within the scanner's limit. -/
theorem toVec_document {data : Data} {f : YsonFormat} {bytes : List UInt8}
    (hfloat : f = .text → FloatText.Inverse) (hdata : data.Shaped)
    (h : toVec data f = .ok bytes) :
    ∃ d : Doc, (Spells bytes f d.toks ∧ ∀ d' : Doc, Spells bytes f d'.toks → d' = d) ∧
      (scanValue bytes f = .ok (.complete bytes.length) ↔ d.Scans MAX_DEPTH 0) := by
  have hfloat' : f.isBinary = false → FloatText.Inverse := fun hb => hfloat (by
    cases f with
    | text => rfl
    | binary => cases hb)
  obtain ⟨ser, hrun, -⟩ := ExceptList.map_eq_ok.mp h
  obtain ⟨d, hd⟩ := (hdata.encodable hfloat').1 _ _ rfl rfl hrun
  obtain ⟨bytes', hbytes, hspells, hscan⟩ := hd.scanned
  cases h.symm.trans hbytes
  exact ⟨d, ⟨hspells, fun d' hd' => hd'.unique_doc hspells⟩, hscan⟩

/-- A struct with an attribute field and a plain one. -/
def attributedStruct : Data := .struct (ascii "Row") [(ascii "@a", .i64 1), (ascii "b", .seq [.unit])]

omit [FloatText] in
theorem toVec_attributed_struct :
    ∃ (bytes : List UInt8) (d : Doc), (@Spells plainFloatText bytes .text d.toks ∧
        ∀ d' : Doc, @Spells plainFloatText bytes .text d'.toks → d' = d) ∧
      (@scanValue plainFloatText bytes .text = .ok (.complete bytes.length) ↔
        d.Scans MAX_DEPTH 0) := by
  obtain ⟨bytes, hbytes⟩ := ExceptList.exists_ok
    (x := @toVec plainFloatText attributedStruct .text) (by decide +kernel)
  have hshaped : attributedStruct.Shaped := by
    refine .struct (by decide +kernel) (by decide +kernel) ?_
    simp only [List.forall_mem_cons, List.not_mem_nil, false_implies, implies_true, and_true]
    exact ⟨.i64 1, .seq fun v hv => by
      obtain rfl := List.mem_singleton.mp hv
      exact .unit⟩
  exact ⟨bytes, @toVec_document plainFloatText _ _ _ (fun _ => plainFloatText_inverse) hshaped hbytes⟩

/-- A value with an attribute block, as `WithAttributes` writes it. -/
def withAttributes (a v : Data) : Data :=
  .struct De.attributesStruct [(ascii "$attributes", a), (valueKey, v)]

/-- Lists within lists. -/
def nestedLists : Nat → Data
  | 0 => .unit
  | n + 1 => .seq [nestedLists n]

/-- `to_vec` accepts the data, and the scanner does not see one whole record. -/
def NotOneRecord (data : Data) : Prop :=
  ∃ bytes, @toVec plainFloatText data .text = .ok bytes ∧
    @scanValue plainFloatText bytes .text ≠ .ok (.complete bytes.length)

omit [FloatText] in
/-- Two attribute blocks in a row, more levels than the scanner follows, and a unit in the
place of the attributes. -/
theorem toVec_not_one_record :
    NotOneRecord (withAttributes (.map [(.str (ascii "a"), .i64 1)])
        (withAttributes (.map [(.str (ascii "b"), .i64 2)]) (.i64 5))) ∧
      NotOneRecord (nestedLists 129) ∧ NotOneRecord (withAttributes .unit (.i64 5)) := by
  let _ : FloatText := plainFloatText
  refine ⟨ExceptList.exists_ok_and ?_, ExceptList.exists_ok_and ?_, ExceptList.exists_ok_and ?_⟩ <;>
    decide +kernel

end Ytsaurus.Yson
