import Ytsaurus.Yson.De

/-!
# `Yson/Stream.lean` — a sequence of values, one at a time (`de.rs`)

`StreamDeserializer` reads values that stand one behind the other, each but the first with at
most one `;` in front of it. The end of the input is the end of the sequence, also behind a
last `;`.
-/

set_option autoImplicit false

namespace Ytsaurus.Yson

structure StreamDeserializer where
  de : Deserializer
  first : Bool
  deriving DecidableEq, Repr

abbrev StreamM := StateT StreamDeserializer (Except YsonError)

namespace StreamDeserializer

variable {α : Type}

def new (input : List UInt8) (isBinary : Bool) : StreamDeserializer :=
  ⟨.fromBytes input isBinary, true⟩

/-- Run `self.de`. -/
def onDe (m : De α) : StreamM α := fun stream =>
  (m stream.de).map fun (a, de) => (a, { stream with de := de })

/-- The next byte, or nothing at the end of the input. -/
def peek : De (Option UInt8) := fun de =>
  match Yson.peekByte de.lexer with
  | .ok (byte, it) => .ok (some byte, { de with lexer := it })
  | .error .eof => .ok (none, { de with lexer := de.lexer.skipIgnored })
  | .error e => .error e

/-- The item that stands here. -/
def item (deserialize : De α) : StreamM (Option α) := do
  let item ← onDe deserialize
  return some item

variable [FloatText]

def nextItem (deserialize : De α) : StreamM (Option α) := do
  match ← onDe peek with
  | none => return none
  | some nextByte =>
    let stream ← get
    if stream.first then
      set { stream with first := false }
      item deserialize
    else if nextByte = 0x3B then
      let _ ← onDe De.nextToken
      match ← onDe peek with
      | none => return none
      | some _ => item deserialize
    else item deserialize

end StreamDeserializer

end Ytsaurus.Yson
