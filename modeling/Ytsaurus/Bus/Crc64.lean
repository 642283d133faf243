import Ytsaurus.Lib.LittleEndian

/-!
# `Bus/Crc64.lean` — the checksum of bus packets (`crc64.rs`)

A CRC-64 with a polynomial of its own, most significant bit first, a register that starts at
zero and no final xor. The register is kept byte-swapped, so the loop over the bytes shifts
the other way and the result is swapped back at the end.
-/

set_option autoImplicit false

namespace Ytsaurus
namespace Bus

open LittleEndian

/-- An incremental checksum, for the parts of a message that are not contiguous. -/
structure Crc64 where
  register : BitVec 64

namespace Crc64

/-- The generator polynomial in normal (most significant bit first) form. -/
def polynomial : BitVec 64 := 0xe543279765927881

/-- `u64::swap_bytes`. -/
def swapBytes (x : BitVec 64) : BitVec 64 := fromLeBytes 64 (toLeBytes 8 x).reverse

/-- One bit of the division, most significant bit first. -/
def shiftBit (register : BitVec 64) : BitVec 64 :=
  if register &&& 0x8000000000000000 ≠ 0 then (register <<< 1) ^^^ polynomial else register <<< 1

def shiftBits : Nat → BitVec 64 → BitVec 64
  | 0, register => register
  | n + 1, register => shiftBits n (shiftBit register)

/-- `TABLE[index]`, as `build_table` computes it. -/
def table (index : Nat) : BitVec 64 := swapBytes (shiftBits 8 (BitVec.ofNat 64 index <<< 56))

def updateByte (register : BitVec 64) (byte : UInt8) : BitVec 64 :=
  table ((register ^^^ byte.toBitVec.setWidth 64) &&& 0xff).toNat ^^^ (register >>> 8)

/-- The register after these bytes. -/
def update (register : BitVec 64) (bytes : List UInt8) : BitVec 64 :=
  bytes.foldl updateByte register

/-- The checksum of a contiguous buffer, as it is written on the wire. -/
def checksum (bytes : List UInt8) : BitVec 64 := swapBytes (update 0 bytes)

def new : Crc64 := ⟨0⟩

/-- One more part of the message. -/
def chain (self : Crc64) (bytes : List UInt8) : Crc64 := ⟨update self.register bytes⟩

/-- The checksum as it is written on the wire. -/
def finish (self : Crc64) : BitVec 64 := swapBytes self.register

-- The reference vector for `"a"`.
example : checksum [0x61] = 0x74b42565ce6232d5 := by decide +kernel

end Crc64

end Bus
end Ytsaurus
