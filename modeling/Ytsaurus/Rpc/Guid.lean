import Mathlib
import Ytsaurus.Lib.Hex
import Ytsaurus.Lib.LittleEndian
import Ytsaurus.Lib.Text

/-!
# `Rpc/Guid.lean` — GUIDs and their text form (`guid.rs`)

A GUID is 16 bytes, four little-endian words. Its text is the words in hexadecimal without
leading zeros, the last one first, with dashes between them.
-/

set_option autoImplicit false

namespace Ytsaurus
namespace Rpc

open LittleEndian

/-- The 16 wire bytes. -/
structure Guid where
  bytes : List UInt8
  length_eq : bytes.length = 16

/-- `[u32; 4]`. -/
abbrev Parts := Vector (BitVec 32) 4

namespace Guid

/-- `u32::from_le_bytes` of the four bytes from the `index`-th word on. -/
def part (guid : Guid) (index : Nat) : BitVec 32 :=
  fromLeBytes 32 ((guid.bytes.drop (index * 4)).take 4)

/-- The four little-endian words, in wire order. -/
def parts (guid : Guid) : Parts := #v[guid.part 0, guid.part 1, guid.part 2, guid.part 3]

/-- Builds a GUID from the four words, in wire order. -/
def fromParts (parts : Parts) : Guid where
  bytes := toLeBytes 4 parts[0] ++ toLeBytes 4 parts[1] ++ toLeBytes 4 parts[2] ++
    toLeBytes 4 parts[3]
  length_eq := by simp

/-- `{word:x}` -/
def lowerHex (word : BitVec 32) : List Char := Nat.toDigits 16 word.toNat

/-- `Display`. -/
def toText (guid : Guid) : List Char :=
  lowerHex guid.parts[3] ++ '-' :: (lowerHex guid.parts[2] ++ '-' ::
    (lowerHex guid.parts[1] ++ '-' :: lowerHex guid.parts[0]))

/-- `str::len`: the length in UTF-8. -/
def byteLen (text : List Char) : Nat := (text.map Char.utf8Size).sum

/-- What `from_str` makes of one field. -/
def word (field : List Char) : Option (BitVec 32) :=
  if field = [] ∨ byteLen field > 8 then none
  else (Hex.fromStrRadix 0x100000000 field).map (BitVec.ofNat 32)

/-- The loop of `from_str`; `index` fields have been seen. -/
def fillWords : List (List Char) → Nat → Parts → Option Parts
  | [], seen, words => if seen = 4 then some words else none
  | field :: fields, index, words =>
    if h : index < 4 then
      match word field with
      | none => none
      | some value => fillWords fields (index + 1) (words.set (3 - index) value)
    else none

/-- `from_str`; every failure is the same `ParseGuidError`. -/
def fromText (text : List Char) : Option Guid :=
  (fillWords (Text.split '-' text) 0 (Vector.replicate 4 0)).map fromParts

end Guid

end Rpc
end Ytsaurus
