import Ytsaurus.Lib.SortedMap
import Ytsaurus.Yson.De

/-!
# `Yson/Value.lean` — the dynamic value (`node.rs`, `de.rs`)

`YsonValue` with its `Deserialize` implementation. A `BTreeMap` is the list of its entries,
kept in key order by `SortedMap.insert`.
-/

set_option autoImplicit false

namespace Ytsaurus.Yson

mutual

structure YsonValue where
  attributes : Option (List (List UInt8 × YsonValue))
  node : YsonNode

inductive YsonNode where
  | entity
  | boolean (v : Bool)
  | int64 (v : Int64)
  | uint64 (v : UInt64)
  | double (v : F64)
  | string (bytes : List UInt8)
  | list (items : List YsonValue)
  | map (entries : List (List UInt8 × YsonValue))

end

/-- A value without attributes. -/
def YsonValue.bare (node : YsonNode) : YsonValue := ⟨none, node⟩

/-- `matches!(node, YsonNode::Entity)`. -/
def YsonNode.isEntity : YsonNode → Bool
  | .entity => true
  | _ => false

/-- The key under which a non-map body is offered beside its attributes. -/
def valueKey : List UInt8 := ascii "$value"

variable [FloatText]

/-- `MapKeyVisitor`: UTF-8 or raw bytes, kept as they are. -/
def mapKeyVisitor : Visitor (List UInt8) where
  visitStr := .ok
  visitBytes := .ok

/-- `MapKey::deserialize` asks with `deserialize_any`. -/
def mapKey : KeySeed (List UInt8) := ⟨mapKeyVisitor, De.deserializeAny mapKeyVisitor⟩

namespace YsonValue

/-- `visit_seq`: elements until there are none. -/
def visitSeqLoop (element : De YsonValue) :
    Nat → List YsonValue → SeqAccess → De (List YsonValue × SeqAccess)
  | 0, _, _ => throw .outOfFuel
  | fuel + 1, vec, seq => do
    match ← De.nextElement element seq with
    | (some elem, seq) => visitSeqLoop element fuel (vec ++ [elem]) seq
    | (none, seq) => pure (vec, seq)

/-- The four locals of `visit_map`. -/
structure MapParts where
  attributes : List (List UInt8 × YsonValue)
  plainMap : List (List UInt8 × YsonValue)
  bodyNode : Option YsonNode
  isAttributed : Bool

def MapParts.new : MapParts := ⟨[], [], none, false⟩

/-- Where an entry goes: `@` keys are attributes, `$value` is the body, the rest is a map. -/
def MapParts.add (parts : MapParts) (key : List UInt8) (value : YsonValue) : MapParts :=
  match key with
  | 0x40 :: name =>
    { parts with isAttributed := true, attributes := SortedMap.insert name value parts.attributes }
  | key =>
    if key = valueKey then
      { parts with
        isAttributed := true
        bodyNode := some value.node
        attributes := SortedMap.extend parts.attributes (value.attributes.getD []) }
    else { parts with plainMap := SortedMap.insert key value parts.plainMap }

def visitMapLoop (value : De YsonValue) : Nat → MapParts → MapAccess → De (MapParts × MapAccess)
  | 0, _, _ => throw .outOfFuel
  | fuel + 1, parts, map => do
    match ← De.nextKey mapKey map with
    | (some key, map) =>
      let v ← De.nextValue value map
      visitMapLoop value fuel (parts.add key v) map
    | (none, map) => pure (parts, map)

/-- The end of `visit_map`: one value cannot have two bodies. -/
def MapParts.finish (parts : MapParts) : Except YsonError YsonValue :=
  if parts.isAttributed then
    let attributes := if parts.attributes.isEmpty then none else some parts.attributes
    match parts.plainMap, parts.bodyNode with
    | [], body => .ok ⟨attributes, body.getD .entity⟩
    | (key, _) :: _, some _ => .error (.custom (.twoBodies key))
    | plainMap, none => .ok ⟨attributes, .map plainMap⟩
  else .ok (.bare (.map parts.plainMap))

/-- `YsonValueVisitor`; `element` deserializes the values inside. -/
def visitor (element : De YsonValue) : Visitor YsonValue where
  visitUnit := .ok (.bare .entity)
  visitBool v := .ok (.bare (.boolean v))
  visitI64 v := .ok (.bare (.int64 v))
  visitU64 v := .ok (.bare (.uint64 v))
  visitF64 v := .ok (.bare (.double v))
  visitStr v := .ok (.bare (.string v))
  visitBytes v := .ok (.bare (.string v))
  visitSeq seq := do
    let (vec, seq) ← visitSeqLoop element (← De.budget) [] seq
    pure (.bare (.list vec), seq)
  visitMap map := do
    let (parts, map) ← visitMapLoop element (← De.budget) .new map
    let value ← De.ofExcept parts.finish
    pure (value, map)

/-- `YsonValue::deserialize`. The fuel bounds the nesting: each level consumes a byte. -/
def deserialize : Nat → De YsonValue
  | 0 => throw .outOfFuel
  | fuel + 1 => De.deserializeAny (visitor (deserialize fuel))

/-- `from_slice::<YsonValue>`. -/
def fromSlice (bytes : List UInt8) (format : YsonFormat) : Except YsonError YsonValue :=
  Yson.fromSlice (deserialize (bytes.length + 1)) bytes format

end YsonValue

end Ytsaurus.Yson
