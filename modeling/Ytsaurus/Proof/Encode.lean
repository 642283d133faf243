import Ytsaurus.Grammar.Canon
import Ytsaurus.Proof.Scalars
import Ytsaurus.Proof.Spells

/-!
# `Proof/Encode.lean` — the serializer writes documents

`Encodes isBinary data d`: the calls `data` write the document `d`. The relation follows
the serializer's methods, one rule a method, and says nothing about bytes; `Encodes.serialize`
is where the bytes come in. A reader of documents then never looks at the serializer again:
what it makes of `d` is what it makes of the output (`Encodes.spells`).

A serializer carries its output and two flags, and a call does nothing to it but append
(`Serializer.Appends`). Compounds are written element by element by a state of their own, which
knows whether a `;` is due; `Compound.Appends` says the same of it, and that what it appends starts
with a delimiter unless nothing was written before, which is what keeps a number in text apart
from what follows. For each call that has parts there is a lemma that puts together what the parts
append, and the induction over the relation only applies them.

Structs are the odd ones. Their fields are written in the order they come in, a name that starts
with `@` goes into the attribute block, which has to be complete before the first plain field,
and a field `$value` is the body itself. So a struct opens its brackets late: by the first field
of a kind, or at the end when there was none (`serializeFields_first`,
`serializeFields_attribute`, `Serializer.appends_struct`).
-/

set_option autoImplicit false

namespace Ytsaurus.Yson

/-- The calls that write a key. -/
inductive EncodesKey : Data → List UInt8 → Prop where
  | str {k : List UInt8} : k.length ≤ isizeMax → EncodesKey (.str k) k
  | bytes {k : List UInt8} : k.length ≤ isizeMax → EncodesKey (.bytes k) k

/-- A field of a struct whose name starts with `@`. -/
def attributeField (e : List UInt8 × Data) : List UInt8 × Data := (0x40 :: e.1, e.2)

mutual

inductive Encodes [FloatText] (isBinary : Bool) : Data → Doc → Prop where
  | bool (v : Bool) : Encodes isBinary (.bool v) (.scalar (.boolean v))
  | i64 (v : Int64) : Encodes isBinary (.i64 v) (.scalar (.int64 v))
  | u64 (v : UInt64) : Encodes isBinary (.u64 v) (.scalar (.uint64 v))
  | f64 {v : F64} : (isBinary = false → FloatText.Inverse ∧ v.isNan = false) →
      Encodes isBinary (.f64 v) (.scalar (.double v))
  | nan {v : F64} : isBinary = false → v.isNan →
      Encodes isBinary (.f64 v) (.scalar (.double .NAN))
  | str {s : List UInt8} : s.length ≤ isizeMax → Encodes isBinary (.str s) (.scalar (.string s))
  | bytes {s : List UInt8} : s.length ≤ isizeMax →
      Encodes isBinary (.bytes s) (.scalar (.string s))
  | unit : Encodes isBinary .unit .entity
  | some {v : Data} {d : Doc} : Encodes isBinary v d → Encodes isBinary (.some v) d
  | newtypeStruct {v : Data} {d : Doc} : Encodes isBinary v d →
      Encodes isBinary (.newtypeStruct v) d
  | unitVariant {k : List UInt8} : k.length ≤ isizeMax →
      Encodes isBinary (.unitVariant k) (.scalar (.string k))
  | newtypeVariant {k : List UInt8} {v : Data} {d : Doc} : k.length ≤ isizeMax →
      Encodes isBinary v d → Encodes isBinary (.newtypeVariant k v) (.map [(0, k, d)] 0)
  | seq {items : List Data} {ds : List Doc} : EncodesItems isBinary items ds →
      Encodes isBinary (.seq items) (.list (spaced true ds) 0)
  | tupleVariant {k : List UInt8} {items : List Data} {ds : List Doc} : k.length ≤ isizeMax →
      EncodesItems isBinary items ds →
      Encodes isBinary (.tupleVariant k items) (.map [(0, k, .list (spaced true ds) 0)] 0)
  | map {entries : List (Data × Data)} {es : List (List UInt8 × Doc)} :
      EncodesEntries isBinary entries es →
      Encodes isBinary (.map entries) (.map (spaced true es) 0)
  | struct {name : List UInt8} {fields : List (List UInt8 × Data)}
      {es : List (List UInt8 × Doc)} : name ≠ De.attributesStruct →
      EncodesFields isBinary fields es → (∀ e ∈ es, isPlainKey e.1) →
      Encodes isBinary (.struct name fields) (.map (spaced true es) 0)
  | structValue {name : List UInt8} {v : Data} {d : Doc} : name ≠ De.attributesStruct →
      Encodes isBinary v d → Encodes isBinary (.struct name [(valueKey, v)]) d
  | structAttributes {name : List UInt8} {attrs fields : List (List UInt8 × Data)}
      {es : List (List UInt8 × Doc)} {body : Doc} : name ≠ De.attributesStruct → attrs ≠ [] →
      EncodesFields isBinary attrs es → EncodesBody isBinary fields body →
      Encodes isBinary (.struct name (attrs.map attributeField ++ fields))
        (.attributed (spaced true es) 0 body)
  | structVariant {k : List UInt8} {fields : List (List UInt8 × Data)}
      {es : List (List UInt8 × Doc)} : k.length ≤ isizeMax → EncodesFields isBinary fields es →
      Encodes isBinary (.structVariant k fields) (.map [(0, k, .map (spaced true es) 0)] 0)
  | withAttributes {a v : Data} {es : List (List UInt8 × Doc)} {d : Doc} :
      EncodesAttributes isBinary a es → Encodes isBinary v d →
      Encodes isBinary (.struct De.attributesStruct [(ascii "$attributes", a), (valueKey, v)])
        (.attributed (spaced true es) 0 d)

inductive EncodesItems [FloatText] (isBinary : Bool) : List Data → List Doc → Prop where
  | nil : EncodesItems isBinary [] []
  | cons {v : Data} {d : Doc} {items : List Data} {ds : List Doc} : Encodes isBinary v d →
      EncodesItems isBinary items ds → EncodesItems isBinary (v :: items) (d :: ds)

inductive EncodesEntries [FloatText] (isBinary : Bool) :
    List (Data × Data) → List (List UInt8 × Doc) → Prop where
  | nil : EncodesEntries isBinary [] []
  | cons {key v : Data} {k : List UInt8} {d : Doc} {entries : List (Data × Data)}
      {es : List (List UInt8 × Doc)} : EncodesKey key k → Encodes isBinary v d →
      EncodesEntries isBinary entries es →
      EncodesEntries isBinary ((key, v) :: entries) ((k, d) :: es)

inductive EncodesFields [FloatText] (isBinary : Bool) :
    List (List UInt8 × Data) → List (List UInt8 × Doc) → Prop where
  | nil : EncodesFields isBinary [] []
  | cons {k : List UInt8} {v : Data} {d : Doc} {fields : List (List UInt8 × Data)}
      {es : List (List UInt8 × Doc)} : k.length ≤ isizeMax → Encodes isBinary v d →
      EncodesFields isBinary fields es →
      EncodesFields isBinary ((k, v) :: fields) ((k, d) :: es)

/-- The calls that write an attribute block: those of a map or of a struct. -/
inductive EncodesAttributes [FloatText] (isBinary : Bool) : Data → List (List UInt8 × Doc) → Prop where
  | map {entries : List (Data × Data)} {es : List (List UInt8 × Doc)} :
      EncodesEntries isBinary entries es → EncodesAttributes isBinary (.map entries) es
  | struct {name : List UInt8} {fields : List (List UInt8 × Data)}
      {es : List (List UInt8 × Doc)} : name ≠ De.attributesStruct →
      EncodesFields isBinary fields es → EncodesAttributes isBinary (.struct name fields) es
  | some {a : Data} {es : List (List UInt8 × Doc)} : EncodesAttributes isBinary a es →
      EncodesAttributes isBinary (.some a) es

/-- What the fields behind the `@` fields of a struct write: nothing is the entity, `$value`
is the body itself. -/
inductive EncodesBody [FloatText] (isBinary : Bool) : List (List UInt8 × Data) → Doc → Prop where
  | entity : EncodesBody isBinary [] .entity
  | value {v : Data} {d : Doc} : Encodes isBinary v d → EncodesBody isBinary [(valueKey, v)] d
  | map {fields : List (List UInt8 × Data)} {es : List (List UInt8 × Doc)} : fields ≠ [] →
      EncodesFields isBinary fields es → (∀ e ∈ es, isPlainKey e.1) →
      EncodesBody isBinary fields (.map (spaced true es) 0)

end

/-- At the end of the input nothing is left to read. -/
theorem exhausted_of_rest {it : YsonIterator} (h : it.rest = []) : it.Exhausted := by
  rw [YsonIterator.Exhausted, YsonIterator.skipIgnored]
  split <;> simp [YsonIterator.advance, h]

/-! ## Appending to the output -/

@[simp] theorem Serializer.extend_isBinary (ser : Serializer) (bs : List UInt8) :
    (ser.extend bs).isBinary = ser.isBinary := rfl

@[simp] theorem Serializer.extend_isWritingAttributes (ser : Serializer) (bs : List UInt8) :
    (ser.extend bs).isWritingAttributes = ser.isWritingAttributes := rfl

@[simp] theorem Serializer.extend_extend (ser : Serializer) (bs cs : List UInt8) :
    (ser.extend bs).extend cs = ser.extend (bs ++ cs) := by
  simp [Serializer.extend]

@[simp] theorem Serializer.extend_nil (ser : Serializer) : ser.extend [] = ser := by
  simp [Serializer.extend]

theorem Serializer.push_eq (ser : Serializer) (b : UInt8) : ser.push b = ser.extend [b] := rfl

theorem ascii_opening : ascii "=[" = [0x3D, 0x5B] ∧ ascii "=\x7b" = [0x3D, 0x7B] := by
  decide +kernel

theorem ascii_closing : ascii "]\x7d" = [0x5D, 0x7D] ∧ ascii "\x7d\x7d" = [0x7D, 0x7D] ∧
    ascii "\x7b\x7d" = [0x7B, 0x7D] := by
  decide +kernel

theorem ascii_entity : ascii ">#" = [0x3E, 0x23] := by decide +kernel

theorem valueKey_ne_attributes : valueKey ≠ ascii "$attributes" := by decide +kernel

/-- The bytes of the separator before an entry. -/
def sepBytes (first : Bool) : List UInt8 := if first then [] else [0x3B]

theorem Compound.checkFirst_eq (c : Compound) :
    c.checkFirst = { c with ser := c.ser.extend (sepBytes c.first), first := false } := by
  rw [checkFirst, sepBytes]
  cases c.first <;> simp [Serializer.push_eq]

theorem delimited_sepBytes {first : Bool} (h : first = false) (bs : List UInt8) :
    Delimited (sepBytes first ++ bs) := by
  subst h
  simp [sepBytes, Delimited, isDelimiter]

/-! ## Fields -/

-- The equations that the lemmas below unfold.
attribute [local simp] Compound.beginField Data.serialize serializeElements serializeEntries
  serializeFields

/-- In this mode the field `name` is written as `key=`, behind a separator. -/
def CompoundMode.Names (mode : CompoundMode) (name key : List UInt8) : Prop :=
  ∀ c : Compound, c.mode = mode → c.beginField name = .ok (some { c.checkFirst with
    ser := (c.checkFirst.ser.writeString key).push 0x3D })

/-- The fields of a struct in attribute position and of a variant keep their names. -/
theorem CompoundMode.names_same {mode : CompoundMode} (h : mode = .attr ∨ mode = .variantMap)
    (key : List UInt8) : mode.Names key key := by
  intro c hc
  rcases h with rfl | rfl
  · rw [Compound.beginField, hc]
  · rw [Compound.beginField, hc]

theorem CompoundMode.names_plain {key : List UInt8} (hkey : isPlainKey key) :
    CompoundMode.Names (.struct false true false) key key := by
  intro c hc
  obtain ⟨hattr, hvalue⟩ := isPlainKey_iff.mp hkey
  rw [Compound.beginField, hc]
  simp only
  split
  · rename_i heq
    exact absurd heq hvalue
  · obtain ⟨ser, first, mode⟩ := c
    subst hc
    simp [Compound.checkFirst]

/-- Inside an attribute block the `@` is dropped. -/
theorem CompoundMode.names_attribute (key : List UInt8) :
    CompoundMode.Names (.struct true false false) (0x40 :: key) key := by
  intro c hc
  obtain ⟨ser, first, mode⟩ := c
  subst hc
  simp [Compound.beginField, Compound.checkFirst]

theorem valueKey_not_attribute (name : List UInt8) : valueKey ≠ 0x40 :: name := by
  rw [show valueKey = 0x24 :: ascii "value" by decide +kernel]
  simp

theorem Compound.beginField_value (ser : Serializer) (first attrOpen : Bool) :
    (⟨ser, first, .struct attrOpen false false⟩ : Compound).beginField valueKey
      = .ok (some ⟨if attrOpen then ser.push 0x3E else ser, first,
          .struct false false true⟩) := by
  simp only [beginField]
  split
  · rename_i heq
    exact absurd heq (valueKey_not_attribute _)
  · cases attrOpen <;> simp

/-- The first plain field of a struct opens its body, behind the attributes if there are
any. -/
theorem Compound.beginField_first (ser : Serializer) (first attrOpen : Bool) {key : List UInt8}
    (hkey : isPlainKey key) :
    (⟨ser, first, .struct attrOpen false false⟩ : Compound).beginField key
      = (⟨(if attrOpen then ser.push 0x3E else ser).push 0x7B, true,
          .struct false true false⟩ : Compound).beginField key := by
  obtain ⟨hattr, hvalue⟩ := isPlainKey_iff.mp hkey
  simp only [beginField]
  cases attrOpen with
  | false =>
    split
    · rename_i heq
      exact absurd heq hvalue
    · simp [checkFirst]
  | true =>
    split
    · rename_i heq
      exact absurd heq hvalue
    · simp [checkFirst]

/-- The first `@` field opens the attribute block. -/
theorem Compound.beginField_attribute (ser : Serializer) (first : Bool) (key : List UInt8) :
    (⟨ser, first, .struct false false false⟩ : Compound).beginField (0x40 :: key)
      = (⟨ser.push 0x3C, true, .struct true false false⟩ : Compound).beginField (0x40 :: key) := by
  simp [beginField, checkFirst]

variable [FloatText] {isBinary : Bool} {ts us : List Token} {bs cs : List UInt8}

/-! ## Runs the serializer composes -/

theorem Writes.seps (first : Bool) (h : Writes isBinary ts bs) :
    Writes isBinary (Yson.seps (if first then 0 else 1) ++ ts) (sepBytes first ++ bs) := by
  cases first with
  | true => simpa [Yson.seps, sepBytes] using h
  | false => exact Writes.punctuation rfl h

/-- A run, a delimiter and another run. -/
theorem Writes.delimited {t : Token} {b : UInt8} (h : Writes isBinary ts bs)
    (ht : t.lead = some b) (hb : isDelimiter b) (h' : Writes isBinary us cs) :
    Writes isBinary (ts ++ (t :: us)) (bs ++ (b :: cs)) :=
  h.append (.punctuation ht h') hb

theorem Writes.pair {k kb : List UInt8} {d : Doc} {vb : List UInt8}
    (hk : Writes isBinary [.string k] kb) (hv : Writes isBinary d.toks vb)
    (h : Writes isBinary ts bs) (hbs : Delimited bs) :
    Writes isBinary (.string k :: .keyValueSeparator :: (d.toks ++ ts)) (kb ++ (0x3D :: (vb ++ bs))) :=
  hk.delimited rfl rfl (hv.append h hbs)

theorem Writes.list {items : List (Nat × Doc)} (h : Writes isBinary (itemsToks items) bs) :
    Writes isBinary (Doc.list items 0).toks (0x5B :: (bs ++ [0x5D])) :=
  .punctuation rfl (h.delimited rfl rfl .nil)

theorem Writes.map {pairs : List (Nat × List UInt8 × Doc)}
    (h : Writes isBinary (pairsToks pairs) bs) :
    Writes isBinary (Doc.map pairs 0).toks (0x7B :: (bs ++ [0x7D])) :=
  .punctuation rfl (h.delimited rfl rfl .nil)

theorem Writes.attributed {pairs : List (Nat × List UInt8 × Doc)} {d : Doc}
    (h : Writes isBinary (pairsToks pairs) bs) (h' : Writes isBinary d.toks cs) :
    Writes isBinary (Doc.attributed pairs 0 d).toks (0x3C :: (bs ++ (0x3E :: cs))) :=
  .punctuation rfl (h.delimited rfl rfl h')

/-- One entry of a map, as the body of a variant is written. -/
theorem Writes.single {k kb : List UInt8} {d : Doc} {vb : List UInt8}
    (hk : Writes isBinary [.string k] kb) (hv : Writes isBinary d.toks vb) :
    Writes isBinary (Doc.map [(0, k, d)] 0).toks (0x7B :: (kb ++ (0x3D :: (vb ++ [0x7D])))) := by
  have hclose : Writes isBinary [.endMap] [0x7D] := .punctuation rfl .nil
  simpa [Doc.toks, pairsToks, Yson.seps] using Writes.punctuation rfl (hk.pair hv hclose rfl)

omit [FloatText] in
theorem fields_id (fields : List (List UInt8 × Data)) :
    (fields.map fun e => (id e.1, e.2)) = fields := by
  simp

theorem serializeFields_congr {c c' : Compound} {k : List UInt8} {v : Data}
    {fields : List (List UInt8 × Data)} {c₁ : Compound} (h : c.beginField k = c'.beginField k)
    (hsome : c'.beginField k = .ok (some c₁)) :
    serializeFields ((k, v) :: fields) c = serializeFields ((k, v) :: fields) c' := by
  simp only [serializeFields, h, hsome]
  rfl

theorem serializeFields_first (ser : Serializer) (first attrOpen : Bool) {k : List UInt8}
    (hk : isPlainKey k) (v : Data) (fields : List (List UInt8 × Data)) :
    serializeFields ((k, v) :: fields) ⟨ser, first, .struct attrOpen false false⟩
      = serializeFields ((k, v) :: fields)
          ⟨(if attrOpen then ser.push 0x3E else ser).push 0x7B, true, .struct false true false⟩ :=
  serializeFields_congr (Compound.beginField_first ser first attrOpen hk)
    (CompoundMode.names_plain hk _ rfl)

theorem serializeFields_attribute (ser : Serializer) (first : Bool) (k : List UInt8) (v : Data)
    (fields : List (List UInt8 × Data)) :
    serializeFields ((0x40 :: k, v) :: fields) ⟨ser, first, .struct false false false⟩
      = serializeFields ((0x40 :: k, v) :: fields)
          ⟨ser.push 0x3C, true, .struct true false false⟩ :=
  serializeFields_congr (Compound.beginField_attribute ser first k)
    (CompoundMode.names_attribute k _ rfl)

theorem serializeFields_append (fields fields' : List (List UInt8 × Data)) (c : Compound) :
    serializeFields (fields ++ fields') c
      = (serializeFields fields c).bind fun c => serializeFields fields' c := by
  induction fields generalizing c with
  | nil => rfl
  | cons e fields ih =>
    obtain ⟨k, v⟩ := e
    simp only [List.cons_append, serializeFields, bind]
    cases hbegin : c.beginField k with
    | error err => rfl
    | ok c₁ =>
      cases c₁ with
      | none => exact ih c
      | some c₁ =>
        simp only [Except.bind]
        cases v.serialize c₁.ser with
        | error err => rfl
        | ok ser => exact ih _

/-! ## Running the calls -/

theorem EncodesKey.serialize {key : Data} {k : List UInt8} (h : EncodesKey key k)
    (ser : Serializer) :
    ∃ kb, key.serialize ser = .ok (ser.extend kb) ∧ Writes ser.isBinary [.string k] kb := by
  cases h with
  | str hk => exact ⟨_, rfl, writes_str hk⟩
  | bytes hk => exact ⟨_, rfl, writes_bytes hk⟩

/-- What the loop over the entries of a compound does. -/
def Compound.Appends (c : Compound) (ts : List Token) (r : Except YsonError Compound) : Prop :=
  ∃ bs first, r = .ok ⟨c.ser.extend bs, first, c.mode⟩ ∧ Writes c.ser.isBinary ts bs ∧
    (c.first = false → Delimited bs)

theorem Compound.Appends.done (c : Compound) : c.Appends [] (.ok c) :=
  ⟨[], c.first, by simp, .nil, fun _ => trivial⟩

theorem EncodesFields.keys : ∀ {fields : List (List UInt8 × Data)} {es : List (List UInt8 × Doc)},
    EncodesFields isBinary fields es → fields.map Prod.fst = es.map Prod.fst
  | _, _, .nil => rfl
  | _, _, .cons _ _ h => by rw [List.map_cons, List.map_cons, h.keys]

theorem EncodesFields.plain {fields : List (List UInt8 × Data)} {es : List (List UInt8 × Doc)}
    (h : EncodesFields isBinary fields es) (hplain : ∀ e ∈ es, isPlainKey e.1) :
    ∀ f ∈ fields, isPlainKey f.1 := by
  intro f hf
  have hmem : f.1 ∈ es.map Prod.fst := h.keys ▸ List.mem_map_of_mem hf
  obtain ⟨e, he, heq⟩ := List.mem_map.mp hmem
  exact heq ▸ hplain e he

/-! ### One call, from what its parts do

A part is written by a serializer that has some bytes more in its output, and by no other
change of it, so what a part does is said of the serializer it is handed. -/

/-- What a call does to the output: it appends what spells the tokens. -/
def Serializer.Appends (ser : Serializer) (ts : List Token) (r : Except YsonError Serializer) :
    Prop :=
  ∃ bs, r = .ok (ser.extend bs) ∧ Writes ser.isBinary ts bs

namespace Serializer

variable {ser : Serializer} {k : List UInt8} {v : Data} {d : Doc} {es : List (List UInt8 × Doc)}

theorem appends_newtypeVariant (hk : k.length ≤ isizeMax)
    (h : (((ser.push 0x7B).writeString k).push 0x3D).Appends d.toks
      (v.serialize (((ser.push 0x7B).writeString k).push 0x3D))) :
    ser.Appends (Doc.map [(0, k, d)] 0).toks ((Data.newtypeVariant k v).serialize ser) := by
  obtain ⟨vb, hrun, hvalue⟩ := h
  have hkey : Writes ser.isBinary [.string k] (Serializer.encodeStr ser.isBinary k) :=
    writes_str hk
  refine ⟨_, ?_, hkey.single hvalue⟩
  rw [Data.serialize, hrun]
  simp [bind, Except.bind, Serializer.push_eq, Serializer.writeString]

theorem appends_seq {items : List Data} {ds : List Doc}
    (h : (⟨ser.push 0x5B, true, .seq⟩ : Compound).Appends (itemsToks (spaced true ds))
      (serializeElements items ⟨ser.push 0x5B, true, .seq⟩)) :
    ser.Appends (Doc.list (spaced true ds) 0).toks ((Data.seq items).serialize ser) := by
  obtain ⟨bs, first, hrun, hitems, _⟩ := h
  refine ⟨_, ?_, hitems.list⟩
  rw [Data.serialize, hrun]
  simp [bind, Except.bind, Serializer.push_eq]

theorem appends_tupleVariant {items : List Data} {ds : List Doc} (hk : k.length ≤ isizeMax)
    (h : (⟨((ser.push 0x7B).writeString k).extend (ascii "=["), true, .variantSeq⟩ :
      Compound).Appends (itemsToks (spaced true ds))
        (serializeElements items
          ⟨((ser.push 0x7B).writeString k).extend (ascii "=["), true, .variantSeq⟩)) :
    ser.Appends (Doc.map [(0, k, .list (spaced true ds) 0)] 0).toks
      ((Data.tupleVariant k items).serialize ser) := by
  obtain ⟨bs, first, hrun, hitems, _⟩ := h
  have hkey : Writes ser.isBinary [.string k] (Serializer.encodeStr ser.isBinary k) :=
    writes_str hk
  refine ⟨_, ?_, hkey.single hitems.list⟩
  rw [Data.serialize]
  simp only [hrun, bind, Except.bind]
  simp [Serializer.push_eq, Serializer.writeString, ascii_opening, ascii_closing]

theorem appends_map {entries : List (Data × Data)} (hw : ser.isWritingAttributes = false)
    (h : (⟨ser.push 0x7B, true, .map⟩ : Compound).Appends (pairsToks (spaced true es))
      (serializeEntries entries ⟨ser.push 0x7B, true, .map⟩)) :
    ser.Appends (Doc.map (spaced true es) 0).toks ((Data.map entries).serialize ser) := by
  obtain ⟨bs, first, hrun, hpairs, _⟩ := h
  refine ⟨_, ?_, hpairs.map⟩
  have hser : ({ ser.push 0x7B with isWritingAttributes := false } : Serializer)
      = ser.push 0x7B := by
    rw [← hw]
    rfl
  rw [Data.serialize, if_neg (by simp [hw])]
  simp only [hser, hrun, bind, Except.bind]
  simp [Serializer.push_eq]

variable {name : List UInt8} {fields : List (List UInt8 × Data)}

/-- The brace of a struct is written by its first plain field, or at the end when it has none. -/
theorem appends_struct (hname : name ≠ De.attributesStruct)
    (hw : ser.isWritingAttributes = false) (hplain : ∀ f ∈ fields, isPlainKey f.1)
    (h : (⟨ser.push 0x7B, true, .struct false true false⟩ : Compound).Appends
      (pairsToks (spaced true es))
      (serializeFields fields ⟨ser.push 0x7B, true, .struct false true false⟩)) :
    ser.Appends (Doc.map (spaced true es) 0).toks ((Data.struct name fields).serialize ser) := by
  obtain ⟨bs, first, hrun, hpairs, _⟩ := h
  refine ⟨_, ?_, hpairs.map⟩
  rw [Data.serialize, if_neg hname, if_neg (by simp [hw])]
  cases fields with
  | nil =>
    obtain ⟨hbs, _⟩ : bs = [] ∧ true = first := by
      simpa [serializeFields, Serializer.extend, Serializer.push] using hrun
    simp [hbs, serializeFields, bind, Except.bind, Compound.endStruct, ascii_closing]
  | cons e fields =>
    rw [serializeFields_first _ _ _ (hplain e List.mem_cons_self), if_neg (by decide), hrun]
    simp [bind, Except.bind, Compound.endStruct, Serializer.push_eq]

/-- What stands behind the attribute block of a struct: the block is closed, and the body is
written. -/
def AppendsBody (ser : Serializer) (first : Bool) (fields : List (List UInt8 × Data)) (d : Doc) :
    Prop :=
  ∃ bs c, serializeFields fields ⟨ser, first, .struct true false false⟩ = .ok c ∧
    c.endStruct = ser.extend (0x3E :: bs) ∧ Writes ser.isBinary d.toks bs

/-- The first `@` field opens the attribute block, and the block is one with the fields in it. -/
theorem appends_structAttributes {attrs : List (List UInt8 × Data)}
    (hname : name ≠ De.attributesStruct) (hw : ser.isWritingAttributes = false) (hne : attrs ≠ [])
    (hattrs : (⟨ser.push 0x3C, true, .struct true false false⟩ : Compound).Appends
      (pairsToks (spaced true es))
      (serializeFields (attrs.map attributeField)
        ⟨ser.push 0x3C, true, .struct true false false⟩))
    (hbody : ∀ ab first, ((ser.push 0x3C).extend ab).AppendsBody first fields d) :
    ser.Appends (Doc.attributed (spaced true es) 0 d).toks
      ((Data.struct name (attrs.map attributeField ++ fields)).serialize ser) := by
  obtain ⟨ab, first, harun, hattr, _⟩ := hattrs
  obtain ⟨bs, c, hrun, hend, hvalue⟩ := hbody ab first
  refine ⟨_, ?_, hattr.attributed hvalue⟩
  have hopen : serializeFields (attrs.map attributeField) ⟨ser, true, .struct false false false⟩
      = serializeFields (attrs.map attributeField)
          ⟨ser.push 0x3C, true, .struct true false false⟩ := by
    cases attrs with
    | nil => exact absurd rfl hne
    | cons e attrs => exact serializeFields_attribute ser true e.1 e.2 _
  rw [Data.serialize, if_neg hname, if_neg (by simp [hw]), serializeFields_append, hopen, harun]
  simp only [Except.bind, bind, hrun, hend]
  simp [Serializer.push_eq]

theorem appends_structVariant (hk : k.length ≤ isizeMax)
    (h : (⟨((ser.push 0x7B).writeString k).extend (ascii "=\x7b"), true, .variantMap⟩ :
      Compound).Appends (pairsToks (spaced true es))
        (serializeFields fields
          ⟨((ser.push 0x7B).writeString k).extend (ascii "=\x7b"), true, .variantMap⟩)) :
    ser.Appends (Doc.map [(0, k, .map (spaced true es) 0)] 0).toks
      ((Data.structVariant k fields).serialize ser) := by
  obtain ⟨bs, first, hrun, hpairs, _⟩ := h
  have hkey : Writes ser.isBinary [.string k] (Serializer.encodeStr ser.isBinary k) :=
    writes_str hk
  refine ⟨_, ?_, hkey.single hpairs.map⟩
  rw [Data.serialize]
  simp only [hrun, bind, Except.bind]
  simp [Serializer.push_eq, Serializer.writeString, ascii_opening, ascii_closing]

end Serializer

mutual

/-- **What encodes a document writes it.** -/
theorem Encodes.serialize : ∀ {data : Data} {d : Doc}, Encodes isBinary data d →
    ∀ ser : Serializer, ser.isBinary = isBinary → ser.isWritingAttributes = false →
      ser.Appends d.toks (data.serialize ser)
  | _, _, .bool v, _, _, _ => ⟨_, rfl, writes_bool v⟩
  | _, _, .i64 v, _, _, _ => ⟨_, rfl, writes_i64 v⟩
  | _, _, .u64 v, _, _, _ => ⟨_, rfl, writes_u64 v⟩
  | _, _, .f64 hfloat, _, hb, _ => ⟨_, rfl, writes_f64 (hb ▸ hfloat)⟩
  | _, _, .nan hbin hnan, _, hb, _ => ⟨_, rfl, by
    rw [hb, hbin]
    exact writes_text_nan hnan⟩
  | _, _, .str h, _, _, _ => ⟨_, rfl, writes_str h⟩
  | _, _, .bytes h, _, _, _ => ⟨_, rfl, writes_bytes h⟩
  | _, _, .unit, _, _, _ => ⟨_, rfl, .punctuation rfl .nil⟩
  | _, _, .some h, ser, hb, hw => by
    rw [Data.serialize]
    exact h.serialize ser hb hw
  | _, _, .newtypeStruct h, ser, hb, hw => by
    rw [Data.serialize]
    exact h.serialize ser hb hw
  | _, _, .unitVariant h, _, _, _ => ⟨_, rfl, writes_str h⟩
  | _, _, .newtypeVariant hk h, _, hb, hw =>
    Serializer.appends_newtypeVariant hk (h.serialize _ hb hw)
  | _, _, .seq h, _, hb, hw => Serializer.appends_seq (h.serialize _ hb hw)
  | _, _, .tupleVariant hk h, _, hb, hw =>
    Serializer.appends_tupleVariant hk (h.serialize _ hb hw)
  | _, _, .map h, _, hb, hw => Serializer.appends_map hw (h.serialize _ hb hw)
  | _, _, @Encodes.struct _ _ _ fields _ hname h hplain, ser, hb, hw => by
    have hfields := h.serialize ⟨ser.push 0x7B, true, .struct false true false⟩ hb hw
      id (fun e he => CompoundMode.names_plain (hplain e he))
    rw [fields_id] at hfields
    exact Serializer.appends_struct hname hw (h.plain hplain) hfields
  | _, _, .structValue hname h, ser, hb, hw => by
    obtain ⟨bs, hrun, hvalue⟩ := h.serialize ser hb hw
    refine ⟨bs, ?_, hvalue⟩
    rw [Data.serialize, if_neg hname, if_neg (by simp [hw])]
    simp only [serializeFields, Compound.beginField_value, Bool.false_eq_true, if_false, hrun, bind,
      Except.bind]
    rfl
  | _, _, .structAttributes hname hne hattrs hbody, ser, hb, hw =>
    Serializer.appends_structAttributes hname hw hne
      (hattrs.serialize ⟨ser.push 0x3C, true, .struct true false false⟩ hb hw (fun k => 0x40 :: k)
        (fun e _ => CompoundMode.names_attribute e.1))
      (fun ab first => hbody.serialize ((ser.push 0x3C).extend ab) first hb hw)
  | _, _, .structVariant (k := k) hk h, ser, hb, hw => by
    have hfields := h.serialize
      ⟨((ser.push 0x7B).writeString k).extend (ascii "=\x7b"), true, .variantMap⟩ hb hw
      id (fun e _ => CompoundMode.names_same (.inr rfl) e.1)
    rw [fields_id] at hfields
    exact Serializer.appends_structVariant hk hfields
  | _, _, .withAttributes ha h, ser, hb, hw => by
    obtain ⟨ab, harun, hattr⟩ := ha.serialize ser hb hw
    obtain ⟨vb, hrun, hvalue⟩ := h.serialize (ser.extend (0x3C :: (ab ++ [0x3E]))) hb hw
    refine ⟨_, ?_, (hb ▸ hattr).attributed hvalue⟩
    rw [Data.serialize, if_pos rfl]
    simp only [serializeFields, Compound.beginField, if_pos, if_neg valueKey_ne_attributes,
      harun, hrun, bind, Except.bind]
    simp [Compound.endStruct]

theorem EncodesItems.serialize : ∀ {items : List Data} {ds : List Doc},
    EncodesItems isBinary items ds → ∀ c : Compound, c.ser.isBinary = isBinary →
      c.ser.isWritingAttributes = false →
      c.Appends (itemsToks (spaced c.first ds)) (serializeElements items c)
  | _, _, .nil, c, _, _ => .done c
  | _, _, .cons h hs, c, hb, hw => by
    obtain ⟨vb, hrun, hvalue⟩ := h.serialize (c.ser.extend (sepBytes c.first)) hb hw
    obtain ⟨bs, first, hrest, hwrites, hdelim⟩ := hs.serialize
      ⟨(c.ser.extend (sepBytes c.first)).extend vb, false, c.mode⟩ hb hw
    rw [serializeElements, Compound.checkFirst_eq]
    simp only [hrun, hrest, bind, Except.bind]
    refine ⟨sepBytes c.first ++ (vb ++ bs), first, by simp, ?_, fun h => delimited_sepBytes h _⟩
    exact (Writes.append hvalue hwrites (hdelim rfl)).seps c.first

theorem EncodesEntries.serialize : ∀ {entries : List (Data × Data)}
    {es : List (List UInt8 × Doc)}, EncodesEntries isBinary entries es → ∀ c : Compound,
      c.ser.isBinary = isBinary → c.ser.isWritingAttributes = false →
      c.Appends (pairsToks (spaced c.first es)) (serializeEntries entries c)
  | _, _, .nil, c, _, _ => .done c
  | _, _, .cons hkey h hs, c, hb, hw => by
    obtain ⟨kb, hkrun, hk⟩ := hkey.serialize (c.ser.extend (sepBytes c.first))
    obtain ⟨vb, hrun, hvalue⟩ := h.serialize
      (((c.ser.extend (sepBytes c.first)).extend kb).push 0x3D) hb hw
    obtain ⟨bs, first, hrest, hwrites, hdelim⟩ := hs.serialize
      ⟨(((c.ser.extend (sepBytes c.first)).extend kb).push 0x3D).extend vb, false, c.mode⟩ hb hw
    rw [serializeEntries, Compound.checkFirst_eq]
    simp only [hkrun, hrun, hrest, bind, Except.bind]
    refine ⟨sepBytes c.first ++ (kb ++ (0x3D :: (vb ++ bs))), first,
      by simp [Serializer.push_eq], ?_, fun h => delimited_sepBytes h _⟩
    exact (hk.pair hvalue hwrites (hdelim rfl)).seps c.first

theorem EncodesFields.serialize : ∀ {fields : List (List UInt8 × Data)}
    {es : List (List UInt8 × Doc)}, EncodesFields isBinary fields es → ∀ c : Compound,
      c.ser.isBinary = isBinary → c.ser.isWritingAttributes = false →
      ∀ name : List UInt8 → List UInt8, (∀ e ∈ es, c.mode.Names (name e.1) e.1) →
      c.Appends (pairsToks (spaced c.first es))
        (serializeFields (fields.map fun e => (name e.1, e.2)) c)
  | _, _, .nil, c, _, _, _, _ => .done c
  | _, _, .cons (k := k) hk h hs, c, hb, hw, name, hnames => by
    have hkey : Writes c.ser.isBinary [.string k] (Serializer.encodeStr c.ser.isBinary k) :=
      writes_str hk
    obtain ⟨vb, hrun, hvalue⟩ := h.serialize
      (((c.ser.extend (sepBytes c.first)).writeString k).push 0x3D) hb hw
    obtain ⟨bs, first, hrest, hwrites, hdelim⟩ := hs.serialize
      ⟨(((c.ser.extend (sepBytes c.first)).writeString k).push 0x3D).extend vb, false, c.mode⟩
      hb hw name (fun e he => hnames e (List.mem_cons_of_mem _ he))
    rw [List.map_cons, serializeFields, hnames _ List.mem_cons_self c rfl, Compound.checkFirst_eq]
    simp only [hrun, hrest, bind, Except.bind]
    refine ⟨sepBytes c.first ++ (Serializer.encodeStr c.ser.isBinary k ++ (0x3D :: (vb ++ bs))),
      first, by simp [Serializer.push_eq, Serializer.writeString], ?_,
      fun h => delimited_sepBytes h _⟩
    exact (hkey.pair hvalue hwrites (hdelim rfl)).seps c.first

theorem EncodesAttributes.serialize : ∀ {a : Data} {es : List (List UInt8 × Doc)},
    EncodesAttributes isBinary a es → ∀ ser : Serializer, ser.isBinary = isBinary →
      ser.isWritingAttributes = false →
      ∃ ab, a.serialize { ser with isWritingAttributes := true }
          = .ok (ser.extend (0x3C :: (ab ++ [0x3E]))) ∧
        Writes isBinary (pairsToks (spaced true es)) ab
  | _, _, .map h, ser, hb, hw => by
    obtain ⟨bs, first, hrun, hpairs, _⟩ := h.serialize ⟨ser.push 0x3C, true, .attr⟩ hb hw
    refine ⟨bs, ?_, hb ▸ hpairs⟩
    have hser : ({ ({ ser with isWritingAttributes := true } : Serializer).push 0x3C with
        isWritingAttributes := false } : Serializer) = ser.push 0x3C := by
      rw [← hw]
      rfl
    rw [Data.serialize, if_pos rfl]
    simp only [hser, hrun, bind, Except.bind]
    simp [Serializer.push_eq]
  | _, _, .struct hname h, ser, hb, hw => by
    obtain ⟨bs, first, hrun, hpairs, _⟩ := h.serialize ⟨ser.push 0x3C, true, .attr⟩ hb hw
      id (fun e _ => CompoundMode.names_same (.inl rfl) e.1)
    rw [fields_id] at hrun
    refine ⟨bs, ?_, hb ▸ hpairs⟩
    have hser : ({ ({ ser with isWritingAttributes := true } : Serializer).push 0x3C with
        isWritingAttributes := false } : Serializer) = ser.push 0x3C := by
      rw [← hw]
      rfl
    rw [Data.serialize, if_neg hname, if_pos rfl]
    simp only [hser, hrun, bind, Except.bind]
    simp [Compound.endStruct, Serializer.push_eq]
  | _, _, .some h, ser, hb, hw => by
    rw [Data.serialize]
    exact h.serialize ser hb hw

/-- Behind the `@` fields: the attribute block is closed, and the body stands there. -/
theorem EncodesBody.serialize : ∀ {fields : List (List UInt8 × Data)} {d : Doc},
    EncodesBody isBinary fields d → ∀ (ser : Serializer) (first : Bool),
      ser.isBinary = isBinary → ser.isWritingAttributes = false →
      ser.AppendsBody first fields d
  | _, _, .entity, ser, first, _, _ => by
    refine ⟨[0x23], _, rfl, ?_, .punctuation rfl .nil⟩
    simp [Compound.endStruct, ascii_entity]
  | _, _, .value h, ser, first, hb, hw => by
    obtain ⟨bs, hrun, hvalue⟩ := h.serialize (ser.push 0x3E) hb hw
    refine ⟨bs, ⟨(ser.push 0x3E).extend bs, first, .struct false false true⟩, ?_, ?_, hvalue⟩
    · simp only [serializeFields, Compound.beginField_value, if_true, hrun, bind, Except.bind]
    · simp [Compound.endStruct, Serializer.push_eq]
  | _, _, @EncodesBody.map _ _ fields _ hne h hplain, ser, first, hb, hw => by
    obtain ⟨bs, first', hrun, hpairs, _⟩ := h.serialize
      ⟨(ser.push 0x3E).push 0x7B, true, .struct false true false⟩ hb hw
      id (fun e he => CompoundMode.names_plain (hplain e he))
    rw [fields_id] at hrun
    refine ⟨_, ⟨((ser.push 0x3E).push 0x7B).extend bs, first', .struct false true false⟩, ?_, ?_,
      hpairs.map⟩
    · cases fields with
      | nil => exact absurd rfl hne
      | cons e fields =>
        rw [serializeFields_first _ _ _ (h.plain hplain e List.mem_cons_self), if_pos rfl, hrun]
    · simp [Compound.endStruct, Serializer.push_eq]

end

mutual

theorem Encodes.singleSep : ∀ {data : Data} {d : Doc}, Encodes isBinary data d → d.SingleSep
  | _, _, .bool _ | _, _, .i64 _ | _, _, .u64 _ | _, _, .f64 _ | _, _, .nan _ _
  | _, _, .str _ | _, _, .bytes _
  | _, _, .unit | _, _, .unitVariant _ => trivial
  | _, _, .some h => h.singleSep
  | _, _, .newtypeStruct h => h.singleSep
  | _, _, .newtypeVariant _ h => separated_single h.singleSep
  | _, _, .seq h => ⟨Nat.zero_le 1, h.separated true⟩
  | _, _, .tupleVariant _ h => separated_single ⟨Nat.zero_le 1, h.separated true⟩
  | _, _, .map h => separated_spaced (h.separated true)
  | _, _, .struct _ h _ => separated_spaced (h.separated true)
  | _, _, .structValue _ h => h.singleSep
  | _, _, .structAttributes _ _ ha h => ⟨ha.separated true, h.singleSep.body⟩
  | _, _, .structVariant _ h => separated_single (separated_spaced (h.separated true))
  | _, _, .withAttributes ha h => ⟨ha.separated, h.singleSep.body⟩

theorem EncodesItems.separated : ∀ {items : List Data} {ds : List Doc},
    EncodesItems isBinary items ds → ∀ first, itemsSeparated (spaced first ds)
  | _, _, .nil, _ => trivial
  | _, _, .cons h hs, first => ⟨by cases first <;> simp, h.singleSep, hs.separated false⟩

theorem EncodesEntries.separated : ∀ {entries : List (Data × Data)}
    {es : List (List UInt8 × Doc)}, EncodesEntries isBinary entries es →
      ∀ first, pairsSeparated (spaced first es)
  | _, _, .nil, _ => trivial
  | _, _, .cons _ h hs, _ => ⟨h.singleSep, hs.separated false⟩

theorem EncodesFields.separated : ∀ {fields : List (List UInt8 × Data)}
    {es : List (List UInt8 × Doc)}, EncodesFields isBinary fields es →
      ∀ first, pairsSeparated (spaced first es)
  | _, _, .nil, _ => trivial
  | _, _, .cons _ h hs, _ => ⟨h.singleSep, hs.separated false⟩

theorem EncodesAttributes.separated : ∀ {a : Data} {es : List (List UInt8 × Doc)},
    EncodesAttributes isBinary a es → pairsSeparated (spaced true es)
  | _, _, .map h => h.separated true
  | _, _, .struct _ h => h.separated true
  | _, _, .some h => h.separated

theorem EncodesBody.singleSep : ∀ {fields : List (List UInt8 × Data)} {d : Doc},
    EncodesBody isBinary fields d → d.SingleSep
  | _, _, .entity => trivial
  | _, _, .value h => h.singleSep
  | _, _, .map _ h _ => separated_spaced (h.separated true)

end

/-- **The output of calls that encode a document spells it.** -/
theorem Encodes.spells {data : Data} {d : Doc} {f : YsonFormat}
    (h : Encodes f.isBinary data d) :
    ∃ bytes, toVec data f = .ok bytes ∧ Spells bytes f d.toks := by
  obtain ⟨bs, hrun, hwrites⟩ := h.serialize (.new f.isBinary) rfl rfl
  refine ⟨bs, by rw [toVec, hrun]; rfl, ?_⟩
  obtain ⟨it, hlex, hrest⟩ := hwrites.spells
  exact ⟨it, hlex, exhausted_of_rest hrest⟩

end Ytsaurus.Yson
