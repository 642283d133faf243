import Ytsaurus.Lib.StateExcept
import Ytsaurus.Yson.Varint

/-!
# `Yson/Lexer.lean` — the tokenizer (`lexer.rs`)

`YsonIterator` is the cursor: the bytes not read yet, the offset they start at, and the
encoding. `peek_byte` and `next_token` are the only two ways the rest of the crate looks at
the input. In text both first skip whitespace and comments, so peeking moves the cursor.

Each sub-parser takes the bytes at the cursor and returns the token with the number of bytes
it took; the cursor moves in one place.
-/

set_option autoImplicit false

namespace Ytsaurus.Yson

structure YsonIterator where
  rest : List UInt8
  pos : Nat
  isBinary : Bool
  deriving DecidableEq, Repr

abbrev LexM := StateT YsonIterator (Except YsonError)

namespace YsonIterator

def new (input : List UInt8) (isBinary : Bool) : YsonIterator := ⟨input, 0, isBinary⟩

/-- `self.pos += n`. -/
def advance (it : YsonIterator) (n : Nat) : YsonIterator :=
  { it with rest := it.rest.drop n, pos := it.pos + n }

end YsonIterator

/-! ## What text ignores -/

/-- `u8::is_ascii_whitespace`: space, tab, line feed, form feed, carriage return. -/
def isAsciiWhitespace (b : UInt8) : Bool :=
  b == 0x20 || b == 0x09 || b == 0x0A || b == 0x0C || b == 0x0D

/-- Where the loop of `skip_ignored` stands: between tokens, in a `//` comment, in a
`/* */` comment. -/
inductive SkipMode where
  | between
  | line
  | block
  deriving DecidableEq, Repr

/-- How many bytes `skip_ignored` passes over. -/
def skipIgnoredLen : SkipMode → List UInt8 → Nat
  | _, [] => 0
  | .between, 0x2F :: 0x2F :: rest => 2 + skipIgnoredLen .line rest
  | .between, 0x2F :: 0x2A :: rest => 2 + skipIgnoredLen .block rest
  | .between, b :: rest => if isAsciiWhitespace b then 1 + skipIgnoredLen .between rest else 0
  | .line, b :: rest =>
    -- the newline ends the comment and is whitespace itself
    if b = 0x0A then 1 + skipIgnoredLen .between rest else 1 + skipIgnoredLen .line rest
  | .block, 0x2A :: 0x2F :: rest => 2 + skipIgnoredLen .between rest
  -- an unterminated block comment runs to the end of the input
  | .block, _ :: rest => 1 + skipIgnoredLen .block rest

/-- `skip_ignored`, which only text calls. -/
def YsonIterator.skipIgnored (it : YsonIterator) : YsonIterator :=
  if it.isBinary then it else it.advance (skipIgnoredLen .between it.rest)

def peekByte : LexM UInt8 := fun it =>
  match it.skipIgnored.rest with
  | [] => .error .eof
  | b :: _ => .ok (b, it.skipIgnored)

/-! ## Binary tokens -/

/-- The `0x01` branch, after the marker: a length and that many bytes. -/
def parseBinaryString (pos : Nat) (rest : List UInt8) : Except YsonError (Token × Nat) :=
  match readVarint rest with
  | .error e => .error e
  | .ok (len, read) =>
    if len < 0 then .error (.custom .negativeLength)
    else if len.toInt.toNat ≤ rest.length - read then
      .ok (.string ((rest.drop read).take len.toInt.toNat), read + len.toInt.toNat)
    else .error (.unexpectedEof (pos + read))

/-- The `0x03` branch, after the marker. -/
def parseBinaryDouble (pos : Nat) (rest : List UInt8) : Except YsonError (Token × Nat) :=
  if 8 ≤ rest.length then .ok (.double (F64.fromLeBytes (rest.take 8)), 8)
  else .error (.unexpectedEof pos)

/-- What follows marker `byte` at offset `pos`, with the number of bytes it takes. -/
def parseBinaryPayload (pos : Nat) (byte : UInt8) (rest : List UInt8) :
    Except YsonError (Token × Nat) :=
  match byte with
  | 0x01 => parseBinaryString pos rest
  | 0x02 => (readVarint rest).map fun (val, read) => (.int64 val, read)
  | 0x03 => parseBinaryDouble pos rest
  | 0x04 => .ok (.boolean false, 0)
  | 0x05 => .ok (.boolean true, 0)
  | 0x06 => (readUvarint rest).map fun (val, read) => (.uint64 val, read)
  | byte =>
    match punctuation byte with
    | some t => .ok (t, 0)
    | none => .error (.invalidMarker byte (pos - 1))

/-- `parse_binary_token` at offset `pos`, with the number of bytes it consumed. -/
def parseBinaryToken (pos : Nat) : List UInt8 → Except YsonError (Token × Nat)
  | [] => .error .eof
  | byte :: rest => (parseBinaryPayload (pos + 1) byte rest).map fun (t, n) => (t, n + 1)

/-! ## Quoted strings -/

/-- The first pass: how far the closing quote is, and whether a backslash was seen. Without
a closing quote the distance runs past the end. -/
def findQuote : List UInt8 → Nat × Bool
  | [] => (0, false)
  | 0x22 :: _ => (0, false)
  | [0x5C] => (2, true)
  | 0x5C :: _ :: rest => ((findQuote rest).1 + 2, true)
  | _ :: rest => ((findQuote rest).1 + 1, (findQuote rest).2)

def hexDigit (b : UInt8) : Option UInt8 :=
  if 0x30 ≤ b && b ≤ 0x39 then some (b - 0x30)
  else if 0x61 ≤ b && b ≤ 0x66 then some (b - 0x61 + 10)
  else if 0x41 ≤ b && b ≤ 0x46 then some (b - 0x41 + 10)
  else none

/-- `u8::from_str_radix` on two characters: it takes a leading `+` for a sign. -/
def hexPair (h l : UInt8) : Option UInt8 :=
  if h = 0x2B then hexDigit l
  else
    match hexDigit h, hexDigit l with
    | some h, some l => some (h * 16 + l)
    | _, _ => none

def isOctal (b : UInt8) : Bool := 0x30 ≤ b && b ≤ 0x37

/-- The octal escape starting with digit `d`: its byte and how many of the bytes after `d`
belong to it. A third digit that would overflow the byte does not. -/
def octalEscape (d : UInt8) : List UInt8 → UInt8 × Nat
  | d1 :: d2 :: _ =>
    if isOctal d1 then
      let val := (d - 0x30) * 8 + (d1 - 0x30)
      if isOctal d2 then
        let nextVal := val.toNat * 8 + (d2 - 0x30).toNat
        if nextVal ≤ 255 then (UInt8.ofNat nextVal, 2) else (val, 1)
      else (val, 1)
    else (d - 0x30, 0)
  | [d1] => if isOctal d1 then ((d - 0x30) * 8 + (d1 - 0x30), 1) else (d - 0x30, 0)
  | [] => (d - 0x30, 0)

/-- The byte a one-character escape stands for. -/
def simpleEscape : UInt8 → UInt8
  | 0x6E => 0x0A -- `\n`
  | 0x72 => 0x0D -- `\r`
  | 0x74 => 0x09 -- `\t`
  | c => c

/-- One character of the second pass, at a byte that is not the closing quote: what it
stands for and how many bytes spell it. -/
def unescapeStep (pos : Nat) (b : UInt8) (rest : List UInt8) : Except YsonError (UInt8 × Nat) :=
  if b ≠ 0x5C then .ok (b, 1)
  else
    match rest with
    | [] => .error (.unexpectedEof (pos + 1))
    | 0x78 :: h :: l :: _ =>
      match hexPair h l with
      | some byte => .ok (byte, 4)
      | none => .error (.custom .invalidHexEscape)
    | 0x78 :: _ => .error (.unexpectedEof (pos + 1))
    | c :: rest =>
      if isOctal c then .ok ((octalEscape c rest).1, 2 + (octalEscape c rest).2)
      else .ok (simpleEscape c, 2)

/-- The second pass. A character takes at least one byte, so the length of the input is
enough fuel. -/
def unescapeLoop : Nat → Nat → List UInt8 → Except YsonError (List UInt8 × Nat)
  | 0, pos, _ => .error (.unexpectedEof pos)
  | _ + 1, pos, [] => .error (.unexpectedEof pos)
  | fuel + 1, pos, b :: rest =>
    if b = 0x22 then .ok ([], 1)
    else do
      let (byte, used) ← unescapeStep pos b rest
      let (buf, n) ← unescapeLoop fuel (pos + used) ((b :: rest).drop used)
      .ok (byte :: buf, used + n)

/-- `parse_text_quoted_string`, after the opening quote. -/
def parseTextQuotedString (pos : Nat) (input : List UInt8) : Except YsonError (Token × Nat) :=
  let (current, hasEscapes) := findQuote input
  if input.length ≤ current then .error (.unexpectedEof (pos + current))
  else if !hasEscapes then .ok (.string (input.take current), current + 1)
  else do
    let (buf, n) ← unescapeLoop (input.length + 1) pos input
    .ok (.string buf, n)

/-! ## Numbers -/

/-- The bytes of a number, whether a `.`, `e` or `E` was among them and whether it ended in
a `u`, which is counted too. -/
def numberLen : List UInt8 → Nat × Bool × Bool
  | [] => (0, false, false)
  | b :: rest =>
    if isDigit b || b == 0x2D || b == 0x2B then
      ((numberLen rest).1 + 1, (numberLen rest).2)
    else if isFloatMark b then
      ((numberLen rest).1 + 1, true, (numberLen rest).2.2)
    else if b == 0x75 then (1, false, true)
    else (0, false, false)

def digitsValue : Nat → List UInt8 → Option Nat
  | acc, [] => some acc
  | acc, b :: rest => if isDigit b then digitsValue (acc * 10 + (b.toNat - 0x30)) rest else none

/-- The digits of an unsigned number: at least one. -/
def parseNat : List UInt8 → Option Nat
  | [] => none
  | digits => digitsValue 0 digits

/-- `str::parse::<u64>`. -/
def parseU64 (s : List UInt8) : Option UInt64 :=
  let digits := match s with
    | 0x2B :: rest => rest
    | s => s
  (parseNat digits).bind fun n => if n < 2 ^ 64 then some (UInt64.ofNat n) else none

/-- `str::parse::<i64>`. -/
def parseI64 (s : List UInt8) : Option Int64 :=
  match s with
  | 0x2D :: rest =>
    (parseNat rest).bind fun n => if n ≤ 2 ^ 63 then some (Int64.ofInt (-n)) else none
  | 0x2B :: rest =>
    (parseNat rest).bind fun n => if n < 2 ^ 63 then some (Int64.ofInt n) else none
  | rest => (parseNat rest).bind fun n => if n < 2 ^ 63 then some (Int64.ofInt n) else none

variable [FloatText]

/-- What the collected characters of a number stand for. -/
def numberToken (s : List UInt8) (hasDotOrExp isUnsigned : Bool) : Except YsonError Token :=
  if isUnsigned then
    match parseU64 s.dropLast with
    | some val => .ok (.uint64 val)
    | none => .error (.custom (.invalidUint64 s))
  else if hasDotOrExp then
    match FloatText.parse s with
    | some val => .ok (.double val)
    | none => .error (.custom (.invalidDouble s))
  else
    match parseI64 s with
    | some val => .ok (.int64 val)
    | none => .error (.custom (.invalidInt64 s))

def parseTextNumber (input : List UInt8) : Except YsonError (Token × Nat) := do
  let (n, hasDotOrExp, isUnsigned) := numberLen input
  let t ← numberToken (input.take n) hasDotOrExp isUnsigned
  .ok (t, n)

/-! ## Identifiers and special values -/

def isAlpha (b : UInt8) : Bool := (0x61 ≤ b && b ≤ 0x7A) || (0x41 ≤ b && b ≤ 0x5A)

/-- `is_ascii_alphanumeric`, `_`, `-` or `.`. -/
def isUnquotedChar (b : UInt8) : Bool :=
  isAlpha b || isDigit b || b == 0x5F || b == 0x2D || b == 0x2E

def parseTextUnquotedString (input : List UInt8) : Except YsonError (Token × Nat) :=
  let slice := input.takeWhile isUnquotedChar
  if slice.isEmpty then .error (.custom .emptyUnquoted) else .ok (.string slice, slice.length)

/-- The spellings `parse_text_special_value` knows, in the order it tries them. -/
def specials : List (List UInt8 × Token) :=
  [(ascii "true", .boolean true), (ascii "false", .boolean false), (ascii "nan", .double .NAN),
   (ascii "inf", .double .INFINITY), (ascii "-inf", .double .NEG_INFINITY)]

/-- `parse_text_special_value`, after the `%`. -/
def parseTextSpecialValue (remaining : List UInt8) : Except YsonError (Token × Nat) :=
  match specials.find? fun (name, _) => name.isPrefixOf remaining with
  | some (name, t) => .ok (t, name.length)
  | none => .error (.custom .invalidSpecial)

/-! ## Text tokens -/

def parseTextToken (pos : Nat) : List UInt8 → Except YsonError (Token × Nat)
  | [] => .error .eof
  | byte :: rest =>
    match punctuation byte with
    | some t => .ok (t, 1)
    | none =>
      if byte = 0x22 then (parseTextQuotedString (pos + 1) rest).map fun (t, n) => (t, n + 1)
      else if isDigit byte || byte == 0x2D || byte == 0x2B then parseTextNumber (byte :: rest)
      else if byte = 0x25 then (parseTextSpecialValue rest).map fun (t, n) => (t, n + 1)
      else if isAlpha byte || byte == 0x5F then parseTextUnquotedString (byte :: rest)
      else .error (.invalidMarker byte pos)

/-- `parse_binary_token` or `parse_text_token`, by the encoding. -/
def parseToken (isBinary : Bool) (pos : Nat) (input : List UInt8) : Except YsonError (Token × Nat) :=
  if isBinary then parseBinaryToken pos input else parseTextToken pos input

def nextToken : LexM Token := fun it =>
  let it := it.skipIgnored
  (parseToken it.isBinary it.pos it.rest).map fun (t, n) => (t, it.advance n)

end Ytsaurus.Yson
