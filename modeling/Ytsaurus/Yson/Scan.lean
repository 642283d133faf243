import Ytsaurus.Yson.Lexer

/-!
# `Yson/Scan.lean` — record boundaries without decoding (`scan.rs`)

`scan_value` walks the tokens of one value and reports its length, or that the input ends
in the middle of it. The four functions of the source are mutually recursive; here the two
loops take the walk over a nested value as an argument, and one budget of steps bounds both
the nesting and the loops. Every step consumes a byte, so a budget of one more than the
input has bytes is never used up.
-/

set_option autoImplicit false

namespace Ytsaurus.Yson

/-- Nesting depth beyond which scanning gives up. -/
def MAX_DEPTH : Nat := 128

inductive Scan where
  | complete (len : Nat)
  | incomplete
  deriving DecidableEq, Repr

/-- The two containers of key-value pairs: `{..}` and `<..>`. -/
inductive Fragment where
  | map
  | attributes
  deriving DecidableEq, Repr

def Fragment.endByte : Fragment → UInt8
  | .map => 0x7D
  | .attributes => 0x3E

/-- `if depth > MAX_DEPTH`. -/
def checkDepth (depth : Nat) : LexM Unit :=
  if depth > MAX_DEPTH then throw (.custom .recursionLimit) else pure ()

/-- `YsonError::UnexpectedToken`, at the position behind the token. -/
def unexpected {α : Type} (expected : Expected) (found : Token) : LexM α := fun it =>
  .error (.unexpectedToken expected found it.pos)

variable [FloatText]

/-- The loop of `scan_list`; `tree` scans one item. -/
def scanListLoop (tree : LexM Unit) : Nat → LexM Unit
  | 0 => throw .outOfFuel
  | fuel + 1 => do
    let peeked ← peekByte
    if peeked = 0x5D then
      let _ ← nextToken
      pure ()
    else if peeked = 0x3B then
      let _ ← nextToken
      scanListLoop tree fuel
    else
      tree
      scanListLoop tree fuel

/-- One `<key-value-pair>` up to its value. -/
def scanKey : LexM Unit := do
  match ← nextToken with
  | .string _ => pure ()
  | other => unexpected .aMapKey other
  match ← nextToken with
  | .keyValueSeparator => pure ()
  | other => unexpected .keyValueSeparator other

/-- The loop of `scan_fragment`. -/
def scanFragmentLoop (tree : LexM Unit) (frag : Fragment) : Nat → LexM Unit
  | 0 => throw .outOfFuel
  | fuel + 1 => do
    let peeked ← peekByte
    if peeked = frag.endByte then
      let _ ← nextToken
      pure ()
    else if peeked = 0x3B then
      let _ ← nextToken
      scanFragmentLoop tree frag fuel
    else
      scanKey
      tree
      scanFragmentLoop tree frag fuel

/-- `scan_list` at `depth`. -/
def scanList (tree : LexM Unit) (fuel depth : Nat) : LexM Unit := do
  checkDepth depth
  scanListLoop tree fuel

/-- `scan_fragment` at `depth`. -/
def scanFragment (tree : LexM Unit) (fuel depth : Nat) (frag : Fragment) : LexM Unit := do
  checkDepth depth
  scanFragmentLoop tree frag fuel

/-- `scan_object`; `tree` scans a value at a depth. -/
def scanObject (tree : Nat → LexM Unit) (fuel depth : Nat) : Token → LexM Unit
  | .string _ | .int64 _ | .uint64 _ | .double _ | .boolean _ | .entity => pure ()
  | .beginList => scanList (tree (depth + 1)) fuel (depth + 1)
  | .beginMap => scanFragment (tree (depth + 1)) fuel (depth + 1) .map
  | other => unexpected .aYsonValue other

/-- `<tree> = [ <attributes> ], <object>` -/
def scanTree : Nat → Nat → LexM Unit
  | 0, _ => throw .outOfFuel
  | fuel + 1, depth => do
    checkDepth depth
    let token ← nextToken
    if token = .beginAttributes then
      scanFragment (scanTree fuel (depth + 1)) fuel (depth + 1) .attributes
      let token ← nextToken
      scanObject (scanTree fuel) fuel depth token
    else scanObject (scanTree fuel) fuel depth token

/-- `scan_value`: running out of bytes is not an error but `Incomplete`. -/
def scanValue (input : List UInt8) (format : YsonFormat) : Except YsonError Scan :=
  match scanTree (input.length + 1) 0 (.new input format.isBinary) with
  | .ok ((), lexer) => .ok (.complete lexer.pos)
  | .error e => if e.isEof then .ok .incomplete else .error e

end Ytsaurus.Yson
