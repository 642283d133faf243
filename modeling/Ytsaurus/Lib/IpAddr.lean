/-!
# `Lib/IpAddr.lean` — IP addresses as texts (`std::net`)

The parser of the standard library: an IPv4 address is four decimal numbers without leading
zeros, an IPv6 address eight hexadecimal groups, the last two of which may be an IPv4 address,
with one `::` for groups of zeros. A reader takes what it reads off the front of the text, and
takes nothing where it fails.
-/

set_option autoImplicit false

namespace IpAddr

/-- A reader of the front of a text. -/
abbrev Reader (α : Type) := List Char → Option (α × List Char)

def hexDigit (c : Char) : Option Nat :=
  if c.isDigit then some (c.toNat - 0x30)
  else if 'a' ≤ c ∧ c ≤ 'f' then some (c.toNat - 0x61 + 10)
  else if 'A' ≤ c ∧ c ≤ 'F' then some (c.toNat - 0x41 + 10)
  else none

/-- `to_digit`. -/
def digit (radix : Nat) (c : Char) : Option Nat :=
  (hexDigit c).bind fun value => if value < radix then some value else none

/-- The digits in front of a text, by their values, and what follows them. -/
def readDigits (radix : Nat) : List Char → List Nat × List Char
  | [] => ([], [])
  | c :: text =>
    match digit radix c with
    | some value => (value :: (readDigits radix text).1, (readDigits radix text).2)
    | none => ([], c :: text)

/-- `read_number`: at most `maxDigits` digits that stay below `bound`. -/
def readNumber (radix maxDigits bound : Nat) (allowZeroPrefix : Bool) : Reader Nat := fun text =>
  let digits := (readDigits radix text).1
  let value := digits.foldl (fun value d => radix * value + d) 0
  if digits.length = 0 ∨ maxDigits < digits.length then none
  else if ¬ allowZeroPrefix ∧ digits.head? = some 0 ∧ 1 < digits.length then none
  else if value < bound then some (value, (readDigits radix text).2)
  else none

/-- `read_given_char`. -/
def readGivenChar (given : Char) : Reader Unit
  | [] => none
  | c :: text => if c = given then some ((), text) else none

/-- `read_separator`: in front of every item but the first stands a separator. -/
def readSeparator {α : Type} (separator : Char) (index : Nat) (inner : Reader α) : Reader α :=
  fun text =>
    if 0 < index then (readGivenChar separator text).bind fun read => inner read.2 else inner text

/-- The octets from the `index`-th on. -/
def readOctets : Nat → Nat → Reader (List Nat)
  | 0, _, text => some ([], text)
  | count + 1, index, text =>
    match readSeparator '.' index (readNumber 10 3 256 false) text with
    | none => none
    | some (octet, text) =>
      (readOctets count (index + 1) text).map fun read => (octet :: read.1, read.2)

def readIpv4 : Reader (List Nat) := readOctets 4 0

/-- Two groups out of the four octets of an embedded address. -/
def embedded : List Nat → List Nat
  | [one, two, three, four] => [one * 256 + two, three * 256 + four]
  | _ => []

/-- `read_groups`, with room for `room` more groups from the `index`-th on: the groups, and
whether an embedded IPv4 address was among them. -/
def readGroups : Nat → Nat → List Char → (List Nat × Bool) × List Char
  | 0, _, text => (([], false), text)
  | room + 1, index, text =>
    match if 0 < room then readSeparator ':' index readIpv4 text else none with
    | some (octets, text) => ((embedded octets, true), text)
    | none =>
      match readSeparator ':' index (readNumber 16 4 65536 true) text with
      | none => (([], false), text)
      | some (group, text) =>
        let read := readGroups room (index + 1) text
        ((group :: read.1.1, read.1.2), read.2)

def readIpv6 : Reader (List Nat) := fun text =>
  let head := readGroups 8 0 text
  if head.1.1.length = 8 then some (head.1.1, head.2)
  else if head.1.2 then none
  else
    match (readGivenChar ':' head.2).bind fun read => readGivenChar ':' read.2 with
    | none => none
    | some (_, text) =>
      let tail := readGroups (7 - head.1.1.length) 0 text
      let zeros := List.replicate (8 - head.1.1.length - tail.1.1.length) 0
      some (head.1.1 ++ zeros ++ tail.1.1, tail.2)

/-- The whole text is to be read. -/
def whole {α : Type} (reader : Reader α) (text : List Char) : Option α :=
  match reader text with
  | some (value, []) => some value
  | _ => none

/-- The eight groups of an IPv6 address. -/
def parseIpv6 (text : List Char) : Option (List Nat) := whole readIpv6 text

/-- `IpAddr`, by its octets or its groups. -/
inductive Address where
  | v4 (octets : List Nat)
  | v6 (groups : List Nat)
  deriving DecidableEq, Repr

def parse (text : List Char) : Option Address :=
  whole (fun text =>
    match readIpv4 text with
    | some (octets, rest) => some (.v4 octets, rest)
    | none => (readIpv6 text).map fun read => (.v6 read.1, read.2)) text

def Address.isLoopback : Address → Bool
  | .v4 octets => octets.head? == some 127
  | .v6 groups => groups == [0, 0, 0, 0, 0, 0, 0, 1]

def Address.isUnspecified : Address → Bool
  | .v4 octets => octets == [0, 0, 0, 0]
  | .v6 groups => groups == [0, 0, 0, 0, 0, 0, 0, 0]

end IpAddr
