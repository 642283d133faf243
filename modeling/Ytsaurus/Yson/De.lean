import Ytsaurus.Yson.Lexer

/-!
# `Yson/De.lean` — the deserializer and its access objects (`de.rs`, `access.rs`)

A serde deserializer drives a *visitor*: it reads the shape of the input and calls the
visitor's method for that shape, handing it an access object to pull elements or entries
from. Both sides are parameters of each other, so both are data here: `Visitor` is the
record of the methods a type implements, `SeqAccess` and `MapAccess` are the access objects
of the crate, and every method of the deserializer is generic in the visitor, as in the
source.

The access objects borrow the deserializer, so their methods run in the same state; what an
access object itself remembers is passed along, because `Drop` looks at it.
-/

set_option autoImplicit false

namespace Ytsaurus.Yson

structure Deserializer where
  lexer : YsonIterator
  isReadingAttributes : Bool
  /-- Whether the container just visited consumed its own terminator. -/
  containerEnded : Bool
  depth : Nat
  maxDepth : Nat
  deriving DecidableEq, Repr

abbrev De := StateT Deserializer (Except YsonError)

namespace De

variable {α β κ : Type}

/-! ## Reading tokens and counting depth -/

/-- Run a lexer operation on `self.lexer`. -/
def lex (m : LexM α) : De α := fun de =>
  (m de.lexer).map fun (a, it) => (a, { de with lexer := it })

def peekByte : De UInt8 := lex Yson.peekByte

def enterRecursion : De Unit := fun de =>
  if de.depth + 1 > de.maxDepth then .error (.custom .recursionLimit)
  else .ok ((), { de with depth := de.depth + 1 })

def leaveRecursion : De Unit := modify fun de => { de with depth := de.depth - 1 }

/-- Enough steps for any loop that consumes a token each time round. -/
def budget : De Nat := fun de => .ok (de.lexer.rest.length + 1, de)

def ofExcept (x : Except YsonError α) : De α := fun de => x.map fun a => (a, de)

variable [FloatText]

def nextToken : De Token := lex Yson.nextToken

/-- The body of `skip_attributes`, from `attr_depth` open blocks on. -/
def skipAttributesLoop : Nat → Nat → De Unit
  | 0, _ => throw .outOfFuel
  | fuel + 1, attrDepth =>
    if attrDepth = 0 then pure ()
    else do
      let attrDepth := match ← nextToken with
        | .beginAttributes => attrDepth + 1
        | .endAttributes => attrDepth - 1
        | _ => attrDepth
      if attrDepth > (← get).maxDepth then throw (.custom .attributesTooDeep)
      skipAttributesLoop fuel attrDepth

def skipAttributes : De Unit := do
  if (← peekByte) = 0x3C then
    enterRecursion
    let _ ← nextToken
    skipAttributesLoop (← budget) 1
    leaveRecursion

/-- A trailing `;` is allowed before the terminator. -/
def skipSeparator : De Unit := do
  if (← peekByte) = 0x3B then
    let _ ← nextToken
    pure ()
  else pure ()

def takeTerminator (endByte : UInt8) : De Unit := do
  let byte ← peekByte
  if byte = endByte then
    let _ ← nextToken
    pure ()
  else throw (.custom (.notClosed endByte byte (← get).lexer.pos))

/-- Closes a container whose visitor stopped reading before the end of it. -/
def endContainer (endByte : UInt8) : De Unit := do
  if (← get).containerEnded then pure ()
  else
    skipSeparator
    takeTerminator endByte

/-- `Deserializer::end`: the input is exhausted. -/
def «end» : De Unit := fun de =>
  match Yson.peekByte de.lexer with
  | .error .eof => .ok ((), { de with lexer := de.lexer.skipIgnored })
  | .ok (byte, it) => .error (.custom (.trailingData byte it.pos))
  | .error other => .error other

end De

/-! ## Access objects and visitors -/

inductive FlatState where
  | attributes
  | between
  | body
  | valueOnly
  | done
  deriving DecidableEq, Repr

/-- `FlatStructAccess`, `CommaSeparated` as a map, `EmptyMapAccess`. -/
inductive MapAccess where
  | flatStruct (state : FlatState) (isValueOnly : Bool)
  | commaSeparated (endByte : UInt8) (ended : Bool)
  | empty
  deriving DecidableEq, Repr

/-- `CommaSeparated` as a sequence, `AttributesWrapperAccess`. -/
inductive SeqAccess where
  | commaSeparated (endByte : UInt8) (ended : Bool)
  | attributesWrapper (state : Nat)
  deriving DecidableEq, Repr

/-- What `Drop` of a `CommaSeparated` reports. -/
def MapAccess.ended : MapAccess → Bool
  | .commaSeparated _ ended => ended
  | _ => false

def SeqAccess.ended : SeqAccess → Bool
  | .commaSeparated _ ended => ended
  | _ => false

/-- A serde visitor. A method the type does not implement refuses with `invalid type`, which
is what the defaults are. -/
structure Visitor (α : Type) where
  visitUnit : Except YsonError α := .error (.custom (.invalidType .unit))
  visitBool : Bool → Except YsonError α := fun v => .error (.custom (.invalidType (.bool v)))
  visitI64 : Int64 → Except YsonError α := fun v => .error (.custom (.invalidType (.signed v)))
  visitU64 : UInt64 → Except YsonError α := fun v => .error (.custom (.invalidType (.unsigned v)))
  visitF64 : F64 → Except YsonError α := fun v => .error (.custom (.invalidType (.float v)))
  visitStr : List UInt8 → Except YsonError α := fun v => .error (.custom (.invalidType (.str v)))
  visitBytes : List UInt8 → Except YsonError α := fun v =>
    .error (.custom (.invalidType (.bytes v)))
  visitSeq : SeqAccess → De (α × SeqAccess) := fun _ => throw (.custom (.invalidType .seq))
  visitMap : MapAccess → De (α × MapAccess) := fun _ => throw (.custom (.invalidType .map))

/-- The seed of a key: the visitor, and how it asks the deserializer for the key. -/
structure KeySeed (κ : Type) where
  visitor : Visitor κ
  deserialize : De κ

namespace De

variable {α β κ : Type} [FloatText]

/-! ## `SeqAccess` -/

/-- What both halves of `CommaSeparated` do before an element: find the terminator and take
it (`take_end`), or step over one `;`, behind which the terminator may stand too. -/
def commaSeparatedAtEnd (endByte : UInt8) : De Bool := do
  let peeked ← peekByte
  if peeked = endByte then
    let _ ← nextToken
    pure true
  else if peeked = 0x3B then
    let _ ← nextToken
    if (← peekByte) = endByte then
      let _ ← nextToken
      pure true
    else pure false
  else pure false

def nextElement (seed : De α) : SeqAccess → De (Option α × SeqAccess)
  | .commaSeparated endByte ended => do
    if ← commaSeparatedAtEnd endByte then pure (none, .commaSeparated endByte true)
    else
      let v ← seed
      pure (some v, .commaSeparated endByte ended)
  | .attributesWrapper 0 => do
    modify fun de => { de with isReadingAttributes := true }
    let v ← seed
    modify fun de => { de with isReadingAttributes := false }
    pure (some v, .attributesWrapper 1)
  | .attributesWrapper 1 => do
    let v ← seed
    pure (some v, .attributesWrapper 2)
  | .attributesWrapper state => pure (none, .attributesWrapper state)

/-! ## `MapAccess` -/

def expectKeyValueSeparator : De Unit := do
  let token ← nextToken
  if token ≠ .keyValueSeparator then throw (.custom (.expectedEq token))

/-- `FlatState::Body`. -/
def nextKeyBody (seed : KeySeed κ) : Nat → De (Option κ × MapAccess)
  | 0 => throw .outOfFuel
  | fuel + 1 => do
    let peeked ← peekByte
    if peeked = 0x7D then
      let _ ← nextToken
      pure (none, .flatStruct .done false)
    else if peeked = 0x3B then
      let _ ← nextToken
      nextKeyBody seed fuel
    else
      let key ← seed.deserialize
      pure (some key, .flatStruct .body false)

/-- `FlatState::ValueOnly`: the body is offered under the key `$value`. -/
def nextKeyValueOnly (seed : KeySeed κ) : De (Option κ × MapAccess) := do
  let key ← ofExcept (seed.visitor.visitStr (ascii "$value"))
  pure (some key, .flatStruct .done true)

/-- `FlatState::Between`: the attribute block is over and the body follows. -/
def nextKeyBetween (seed : KeySeed κ) : De (Option κ × MapAccess) := do
  let peeked ← peekByte
  if peeked = 0x7B then
    let _ ← nextToken
    nextKeyBody seed (← budget)
  else if peeked = 0x23 then
    let _ ← nextToken
    pure (none, .flatStruct .done false)
  else nextKeyValueOnly seed

/-- `FlatState::Attributes`: `@` marks a key as an attribute rather than a body field. -/
def nextKeyAttributes (seed : KeySeed κ) : Nat → De (Option κ × MapAccess)
  | 0 => throw .outOfFuel
  | fuel + 1 => do
    let peeked ← peekByte
    if peeked = 0x3E then
      let _ ← nextToken
      nextKeyBetween seed
    else if peeked = 0x3B then
      let _ ← nextToken
      nextKeyAttributes seed fuel
    else
      match ← nextToken with
      | .string s =>
        let key ← ofExcept (seed.visitor.visitBytes (0x40 :: s))
        pure (some key, .flatStruct .attributes false)
      | _ => throw (.custom .attributeKey)

def nextKey (seed : KeySeed κ) : MapAccess → De (Option κ × MapAccess)
  | .flatStruct .attributes _ => do nextKeyAttributes seed (← budget)
  | .flatStruct .between _ => nextKeyBetween seed
  | .flatStruct .body _ => do nextKeyBody seed (← budget)
  | .flatStruct .valueOnly _ => nextKeyValueOnly seed
  | .flatStruct .done isValueOnly => pure (none, .flatStruct .done isValueOnly)
  | .commaSeparated endByte ended => do
    if ← commaSeparatedAtEnd endByte then pure (none, .commaSeparated endByte true)
    else
      let key ← seed.deserialize
      pure (some key, .commaSeparated endByte ended)
  | .empty => pure (none, .empty)

def nextValue (seed : De α) : MapAccess → De α
  | .flatStruct _ true => seed
  | .flatStruct _ false => do
    expectKeyValueSeparator
    seed
  | .commaSeparated _ _ => do
    expectKeyValueSeparator
    seed
  | .empty => throw (.custom .unreachable)

/-! ## Visiting a container -/

/-- The life of an access object that counts as a level of nesting: `new` enters, `Drop`
leaves. -/
def nested (visit : De α) : De α := do
  enterRecursion
  let value ← visit
  leaveRecursion
  pure value

/-- A `CommaSeparated` also reports on `Drop` whether it read its terminator. -/
def visitCommaSeparated (visit : De (α × β)) (ended : β → Bool) : De α :=
  nested do
    let (value, access) ← visit
    modify fun de => { de with containerEnded := ended access }
    pure value

/-- `visitor.visit_map(CommaSeparated::new(self, end_byte)?)`. -/
def visitCommaSeparatedMap (visitor : Visitor α) (endByte : UInt8) : De α :=
  visitCommaSeparated (visitor.visitMap (.commaSeparated endByte false)) MapAccess.ended

def visitCommaSeparatedSeq (visitor : Visitor α) (endByte : UInt8) : De α :=
  visitCommaSeparated (visitor.visitSeq (.commaSeparated endByte false)) SeqAccess.ended

/-- The state `FlatStructAccess::new` starts in. -/
def flatStructStart : De FlatState := do
  let peeked ← peekByte
  if peeked = 0x3C then
    let _ ← nextToken
    pure .attributes
  else if peeked = 0x7B then
    let _ ← nextToken
    pure .body
  else if peeked = 0x23 then
    let _ ← nextToken
    pure .done
  else pure .valueOnly

/-- `visitor.visit_map(FlatStructAccess::new(self)?)`. -/
def visitFlatStruct (visitor : Visitor α) : De α :=
  nested do
    let state ← flatStructStart
    let (value, _) ← visitor.visitMap (.flatStruct state false)
    pure value

/-- `visitor.visit_seq(AttributesWrapperAccess::new(self)?)`. -/
def visitAttributesWrapper (visitor : Visitor α) : De α :=
  nested do
    let (value, _) ← visitor.visitSeq (.attributesWrapper 0)
    pure value

/-! ## `deserialize_*` -/

/-- A string token goes to `visit_str` when it is UTF-8 and to `visit_bytes` otherwise. -/
def visitString (visitor : Visitor α) (s : List UInt8) : Except YsonError α :=
  if utf8Valid s then visitor.visitStr s else visitor.visitBytes s

/-- The `match self.lexer.next_token()?` of `deserialize_any`. -/
def visitToken (visitor : Visitor α) : Token → De α
  | .entity => ofExcept visitor.visitUnit
  | .boolean b => ofExcept (visitor.visitBool b)
  | .int64 i => ofExcept (visitor.visitI64 i)
  | .uint64 u => ofExcept (visitor.visitU64 u)
  | .double d => ofExcept (visitor.visitF64 d)
  | .string s => ofExcept (visitString visitor s)
  | .beginList => do
    let value ← visitCommaSeparatedSeq visitor 0x5D
    endContainer 0x5D
    pure value
  | .beginMap => do
    let value ← visitCommaSeparatedMap visitor 0x7D
    endContainer 0x7D
    pure value
  | .beginAttributes => do
    let value ← visitCommaSeparatedMap visitor 0x3E
    endContainer 0x3E
    pure value
  | t => throw (.custom (.unexpectedToken t))

/-- `is_reading_attributes`, taken and cleared. -/
def takeReadingAttributes : De Bool := fun de =>
  .ok (de.isReadingAttributes, { de with isReadingAttributes := false })

/-- The value behind `WithAttributes`' attributes: a `<...>` block, or no block at all. -/
def deserializeAttributes (visitor : Visitor α) : De α := do
  if (← peekByte) ≠ 0x3C then
    let (value, _) ← visitor.visitMap .empty
    pure value
  else
    let _ ← nextToken
    visitCommaSeparatedMap visitor 0x3E

def deserializeAny (visitor : Visitor α) : De α := do
  if ← takeReadingAttributes then deserializeAttributes visitor
  else if (← peekByte) = 0x3C then visitFlatStruct visitor
  else visitToken visitor (← nextToken)

/-- Every method of `delegate_skip_attributes!` and the four written out like it
(`deserialize_bool`, .., `deserialize_seq`, `deserialize_map`, `deserialize_identifier`,
`deserialize_ignored_any`, `deserialize_unit_struct`, `deserialize_newtype_struct`,
`deserialize_tuple`, `deserialize_tuple_struct`). -/
def deserializeSkipping (visitor : Visitor α) : De α := do
  if !(← get).isReadingAttributes then skipAttributes
  deserializeAny visitor

/-- `deserialize_option`, whose visitor deserializes the payload in `visit_some`. -/
def deserializeOption (visitSome : De α) : De (Option α) := do
  if ← takeReadingAttributes then
    if (← peekByte) = 0x3C then
      modify fun de => { de with isReadingAttributes := true }
      let res ← visitSome
      modify fun de => { de with isReadingAttributes := false }
      pure (some res)
    else pure none
  else
    skipAttributes
    if (← peekByte) = 0x23 then
      let _ ← nextToken
      pure none
    else
      let res ← visitSome
      pure (some res)

/-- The name `WithAttributes` passes to `deserialize_struct`. -/
def attributesStruct : List UInt8 := ascii "$__yson_attributes"

def deserializeStruct (name : List UInt8) (fields : List (List UInt8)) (visitor : Visitor α) :
    De α :=
  if name = attributesStruct then visitAttributesWrapper visitor
  else if fields.any fun f => f.head? == some 0x40 then visitFlatStruct visitor
  else deserializeSkipping visitor

/-! ## Enums -/

/-- The loop of `deserialize_enum` that passes over what the variant left, up to `;` or `}`
or where the input cannot be read on. -/
def skipToVariantEnd : Nat → De Unit
  | 0 => throw .outOfFuel
  | fuel + 1 => fun de =>
    match Yson.peekByte de.lexer with
    | .ok (byte, it) =>
      if byte = 0x3B ∨ byte = 0x7D then .ok ((), { de with lexer := it })
      else (do let _ ← nextToken; skipToVariantEnd fuel) { de with lexer := it }
    | .error _ => .ok ((), { de with lexer := de.lexer.skipIgnored })

/-- `visitEnum` is the visitor's `visit_enum`, given whether the variant is map-wrapped. -/
def deserializeEnum (visitEnum : Bool → De α) : De α := do
  if !(← get).isReadingAttributes then skipAttributes
  if (← peekByte) = 0x7B then
    let _ ← nextToken
    let value ← visitEnum true
    skipToVariantEnd (← budget)
    let peeked ← fun de =>
      match Yson.peekByte de.lexer with
      | .ok (byte, it) => .ok (some byte, { de with lexer := it })
      | .error _ => .ok (none, { de with lexer := de.lexer.skipIgnored })
    if peeked = some 0x3B then
      let _ ← nextToken
    match ← nextToken with
    | .endMap => pure value
    | t => throw (.custom (.afterVariant t))
  else visitEnum false

/-- The `=` each data variant expects after its name. -/
def expectVariantSeparator : De Unit := do
  if (← nextToken) ≠ .keyValueSeparator then throw (.custom .expectedEqVariant)

def unitVariant (isMapWrapped : Bool) : De Unit := do
  if isMapWrapped then
    expectVariantSeparator
    if (← nextToken) ≠ .entity then throw (.custom .expectedUnitEntity)

def newtypeVariant (seed : De α) : De α := do
  expectVariantSeparator
  seed

/-- `tuple_variant` reads with `deserialize_seq`, `struct_variant` with `deserialize_map`. -/
def containerVariant (visitor : Visitor α) : De α := do
  expectVariantSeparator
  deserializeSkipping visitor

end De

/-! ## Entry points -/

def Deserializer.fromBytes (input : List UInt8) (isBinary : Bool) : Deserializer :=
  ⟨.new input isBinary, false, false, 0, 128⟩

/-- `from_slice`, for a type with deserializer `deserialize`. -/
def fromSlice {α : Type} [FloatText] (deserialize : De α) (bytes : List UInt8)
    (format : YsonFormat) : Except YsonError α :=
  ((do let value ← deserialize; De.end; pure value : De α)
    (.fromBytes bytes format.isBinary)).map Prod.fst

end Ytsaurus.Yson
