import Mathlib.Logic.Basic

/-!
# `Yson/Basic.lean` — formats, doubles, tokens and errors

The vocabulary the lexer, the scanner and the two halves of the codec share
(`ser.rs` `YsonFormat`, `node.rs` `Token`, `error.rs` `YsonError`).

A double is its bit pattern: `from_le_bytes` and `to_le_bytes` move bits and nothing here
does arithmetic on them. Printing and parsing decimal text is the business of `ryu` and of
`str::parse::<f64>`; both are the two fields of `FloatText`, and what the crate relies on
is `FloatText.Inverse`.
-/

set_option autoImplicit false

namespace Ytsaurus

/-- The bytes of an ASCII literal, `b"..."`. -/
def ascii (s : String) : List UInt8 := s.toList.map fun c => UInt8.ofNat c.toNat

/-- A Rust allocation, and so every slice and every `Vec<u8>`, spans at most `isize::MAX`
bytes. -/
def isizeMax : Nat := 9223372036854775807

namespace Yson

inductive YsonFormat where
  | binary
  | text
  deriving DecidableEq, Repr

def YsonFormat.isBinary : YsonFormat → Bool
  | .binary => true
  | .text => false

/-! ## Doubles -/

structure F64 where
  bits : UInt64
  deriving DecidableEq, Repr

namespace F64

def NAN : F64 := ⟨0x7FF8000000000000⟩
def INFINITY : F64 := ⟨0x7FF0000000000000⟩
def NEG_INFINITY : F64 := ⟨0xFFF0000000000000⟩

/-- The exponent field is all ones: an infinity or a NaN. -/
def isSpecial (d : F64) : Bool := (d.bits >>> 52) &&& 0x7FF == 0x7FF

def isNan (d : F64) : Bool := d.isSpecial && d.bits &&& 0xFFFFFFFFFFFFF != 0

def isInfinite (d : F64) : Bool := d.isSpecial && d.bits &&& 0xFFFFFFFFFFFFF == 0

def isSignNegative (d : F64) : Bool := d.bits >>> 63 == 1

def toLeBytes (d : F64) : List UInt8 :=
  (List.range 8).map fun i => (d.bits >>> UInt64.ofNat (8 * i)).toUInt8

def fromLeBytes (bytes : List UInt8) : F64 :=
  ⟨bytes.foldr (fun b acc => (acc <<< 8) ||| b.toUInt64) 0⟩

end F64

/-- The decimal text of doubles: `ryu::Buffer::format` and `str::parse::<f64>`. -/
class FloatText where
  format : F64 → List UInt8
  parse : List UInt8 → Option F64

def isDigit (b : UInt8) : Bool := 0x30 ≤ b && b ≤ 0x39

/-- `.`, `e` or `E`: what tells a double from an integer in text. -/
def isFloatMark (b : UInt8) : Bool := b == 0x2E || b == 0x65 || b == 0x45

/-- What `ryu` documents of the text it prints for a finite double, and that the parser
reads it back. -/
structure FloatText.Inverse [FloatText] : Prop where
  parse_format : ∀ d : F64, d.isSpecial = false → FloatText.parse (FloatText.format d) = some d
  /-- Only digits, signs and float marks: the characters of a number. -/
  chars : ∀ d : F64, d.isSpecial = false → ∀ b ∈ FloatText.format d,
    isDigit b ∨ b = 0x2D ∨ b = 0x2B ∨ isFloatMark b
  /-- It starts with a digit or a minus sign. -/
  head : ∀ d : F64, d.isSpecial = false →
    ∃ b rest, FloatText.format d = b :: rest ∧ (isDigit b ∨ b = 0x2D)
  /-- It carries a decimal point or an exponent. -/
  mark : ∀ d : F64, d.isSpecial = false → (FloatText.format d).any isFloatMark

/-! ## UTF-8 -/

def isContinuation (b : UInt8) : Bool := 0x80 ≤ b && b ≤ 0xBF

/-- `std::str::from_utf8` succeeds: no overlong form, no surrogate, nothing above
`U+10FFFF`. -/
def utf8Valid : List UInt8 → Bool
  | [] => true
  | b :: rest =>
    if b < 0x80 then utf8Valid rest
    else if 0xC2 ≤ b && b ≤ 0xDF then
      match rest with
      | c1 :: rest => isContinuation c1 && utf8Valid rest
      | _ => false
    else if 0xE0 ≤ b && b ≤ 0xEF then
      match rest with
      | c1 :: c2 :: rest =>
        (if b = 0xE0 then 0xA0 ≤ c1 && c1 ≤ 0xBF
          else if b = 0xED then 0x80 ≤ c1 && c1 ≤ 0x9F
          else isContinuation c1) && isContinuation c2 && utf8Valid rest
      | _ => false
    else if 0xF0 ≤ b && b ≤ 0xF4 then
      match rest with
      | c1 :: c2 :: c3 :: rest =>
        (if b = 0xF0 then 0x90 ≤ c1 && c1 ≤ 0xBF
          else if b = 0xF4 then 0x80 ≤ c1 && c1 ≤ 0x8F
          else isContinuation c1) && isContinuation c2 && isContinuation c3 && utf8Valid rest
      | _ => false
    else false

/-! ## Tokens -/

inductive Token where
  | beginAttributes
  | endAttributes
  | beginList
  | endList
  | beginMap
  | endMap
  | string (bytes : List UInt8)
  | int64 (v : Int64)
  | uint64 (v : UInt64)
  | double (v : F64)
  | boolean (v : Bool)
  | entity
  | keyValueSeparator
  | itemSeparator
  deriving DecidableEq, Repr

/-- The nine one-byte tokens, the same bytes in both formats. -/
def punctuation : UInt8 → Option Token
  | 0x23 => some .entity            -- `#`
  | 0x3C => some .beginAttributes   -- `<`
  | 0x3E => some .endAttributes     -- `>`
  | 0x5B => some .beginList         -- `[`
  | 0x5D => some .endList           -- `]`
  | 0x7B => some .beginMap          -- `{`
  | 0x7D => some .endMap            -- `}`
  | 0x3D => some .keyValueSeparator -- `=`
  | 0x3B => some .itemSeparator     -- `;`
  | _ => none

/-! ## Errors -/

/-- The `expected` texts of `YsonError::UnexpectedToken`. -/
inductive Expected where
  | aYsonValue      -- "a YSON value"
  | aMapKey         -- "a map key"
  | keyValueSeparator -- "'='"
  deriving DecidableEq, Repr

/-- What a serde visitor was offered and refused (`de::Unexpected`). -/
inductive Unexpected where
  | unit
  | bool (v : Bool)
  | signed (v : Int64)
  | unsigned (v : UInt64)
  | float (v : F64)
  | str (bytes : List UInt8)
  | bytes (bytes : List UInt8)
  | seq
  | map
  deriving DecidableEq, Repr

/-- The texts of `YsonError::Custom`, with what each prints. -/
inductive Message where
  | varintTooLong                               -- "Varint too long (overflow u64)"
  | varintOverflow                              -- "Varint overflows u64"
  | negativeLength                              -- "String length cannot be negative"
  | invalidHexEscape                            -- "Invalid hex escape"
  | invalidUint64 (s : List UInt8)              -- "Invalid uint64: {s}"
  | invalidDouble (s : List UInt8)              -- "Invalid double: {s}"
  | invalidInt64 (s : List UInt8)               -- "Invalid int64: {s}"
  | emptyUnquoted                               -- "Empty unquoted string"
  | invalidSpecial                              -- "Invalid special value: ..."
  | recursionLimit                              -- "Recursion limit exceeded"
  | attributesTooDeep                           -- "Attributes nesting too deep"
  | unexpectedToken (t : Token)                 -- "Unexpected token: {t:?}"
  | attributeKey                                -- "Expected string key in attributes"
  | expectedEq (got : Token)                    -- "Expected '=', got {token:?}"
  | expectedEqVariant                           -- "Expected '='"
  | expectedUnitEntity                          -- "Expected '#' for unit variant in map"
  | afterVariant (got : Token)                  -- "Expected '}' after variant, got {t:?}"
  | notClosed (endByte found : UInt8) (pos : Nat) -- "expected {:?} to close the value, ..."
  | trailingData (found : UInt8) (pos : Nat)    -- "trailing data after the value: ..."
  | twoBodies (key : List UInt8)                -- "map carries \"$value\" beside a plain key ..."
  | attributeAfterValue (name : List UInt8)     -- "attribute field \"@..\" is declared after ..."
  | valueBesideFields                           -- "\"$value\" cannot share a struct with ..."
  | fieldAfterValue (key : List UInt8)          -- "field \"..\" is declared after \"$value\"; ..."
  | invalidType (found : Unexpected)            -- serde: "invalid type: .., expected .."
  | invalidValue (found : Unexpected)           -- serde: "invalid value: .., expected .."
  | invalidLength (n : Nat)                     -- serde: "invalid length .., expected .."
  | unknownVariant (name : List UInt8)          -- serde: "unknown variant .., expected .."
  | missingField (name : List UInt8)            -- serde: "missing field .."
  | duplicateField (name : List UInt8)          -- serde: "duplicate field .."
  | missingElement                              -- "Missing attributes element", "Missing value .."
  | reduceKeyNotMap                             -- "a reduce key can only be read from a row that .."
  | unreachable                                 -- the `unreachable!()` of `EmptyMapAccess`
  deriving DecidableEq, Repr

/-- `YsonError`. `outOfFuel` is the model's own: the recursive definitions below carry a
step budget, and no run they are started with exhausts it. -/
inductive YsonError where
  | eof
  | unexpectedEof (pos : Nat)
  | invalidMarker (byte : UInt8) (pos : Nat)
  | unexpectedToken (expected : Expected) (found : Token) (pos : Nat)
  | custom (msg : Message)
  | outOfFuel
  deriving DecidableEq, Repr

/-- `Eof` or `UnexpectedEof`: the bytes ran out. -/
def YsonError.isEof : YsonError → Bool
  | .eof => true
  | .unexpectedEof _ => true
  | _ => false

end Yson
end Ytsaurus
