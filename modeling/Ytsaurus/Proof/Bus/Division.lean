import Ytsaurus.Lib.BitDivision
import Ytsaurus.Proof.Bus.Crc64

/-!
# `Proof/Bus/Division.lean` — the checksum is a remainder

The loop looks up a byte-swapped table and shifts its register to the right; the definition of
the checksum divides one bit at a time, from the most significant on. Swapping the bytes takes
one register to the other (`swapBytes_updateByte`), so the checksum is the remainder of the
message by the polynomial, and it does not matter in which pieces the message came.

The division is `Lib/BitDivision.lean`'s: a register, a bit at a time, for any polynomial of degree
64. That it is the division of polynomials over the field with two elements is shown there, and
`toPoly_checksum` says so of the checksum itself. What is particular here is the swapping. It moves
whole bytes and keeps the order of the bits in them (`swapBytes_bit`), so the byte a step of the
loop looks up at the bottom is the one at the top of the swapped register, with the next byte of
the message added.

Chaining is then for free: the register is all that is kept between two pieces, and finishing it
is swapping it back.
-/

set_option autoImplicit false

namespace Ytsaurus
namespace Bus

open LittleEndian BitDivision

namespace Crc64

/-! ## Swapping -/

/-- Swapping moves whole bytes and keeps the order of the bits in them. -/
theorem swapBytes_bit (x : BitVec 64) {i : Nat} (hi : i < 64) :
    (swapBytes x).getLsbD i = x.getLsbD (8 * (7 - i / 8) + i % 8) := by
  have hbyte : ((toLeBytes 8 x).reverse.getD (i / 8) 0).toNat = x.toNat / 256 ^ (7 - i / 8) % 256 := by
    have hlength : (toLeBytes 8 x).length = 8 := toLeBytes_length 8 x
    have hplace : 8 - 1 - i / 8 = 7 - i / 8 := rfl
    rw [List.getD_eq_getElem?_getD, List.getElem?_reverse (by omega), hlength, hplace, toLeBytes,
      leBytes_getElem? _ (by omega), Option.getD_some, UInt8.toNat_ofNat']
  have hbit : (8 * (7 - i / 8) + i % 8) = i % 8 + 8 * (7 - i / 8) := Nat.add_comm _ _
  rw [swapBytes, fromLeBytes, BitVec.getLsbD_ofNat, decide_eq_true hi, Bool.true_and,
    testBit_ofLeBytes, hbyte, show 256 = 2 ^ 8 from rfl, Nat.testBit_mod_two_pow,
    decide_eq_true (Nat.mod_lt i (by decide)), Bool.true_and, ← Nat.pow_mul, Nat.testBit_div_two_pow,
    hbit]
  rfl

theorem swapBytes_xor (x y : BitVec 64) : swapBytes (x ^^^ y) = swapBytes x ^^^ swapBytes y := by
  apply BitVec.eq_of_getLsbD_eq
  intro i hi
  rw [BitVec.getLsbD_xor, swapBytes_bit _ hi, swapBytes_bit _ hi, swapBytes_bit _ hi,
    BitVec.getLsbD_xor]

theorem swapBytes_swapBytes (x : BitVec 64) : swapBytes (swapBytes x) = x := by
  apply BitVec.eq_of_getLsbD_eq
  intro i hi
  rw [swapBytes_bit _ hi, swapBytes_bit _ (by omega)]
  have hplace : 8 * (7 - (8 * (7 - i / 8) + i % 8) / 8) + (8 * (7 - i / 8) + i % 8) % 8 = i := by
    omega
  rw [hplace]

/-- Dropping the last byte of one register is shifting the other by a byte. -/
theorem swapBytes_shift (x : BitVec 64) : swapBytes (x >>> 8) = swapBytes x <<< 8 := by
  apply BitVec.eq_of_getLsbD_eq
  intro i hi
  rw [swapBytes_bit _ hi, BitVec.getLsbD_ushiftRight, BitVec.getLsbD_shiftLeft, decide_eq_true hi,
    Bool.true_and]
  by_cases hlow : i < 8
  · rw [decide_eq_true hlow, Bool.not_true, Bool.false_and]
    exact BitVec.getLsbD_of_ge _ _ (by omega)
  · have hplace : 8 + (8 * (7 - i / 8) + i % 8) = 8 * (7 - (i - 8) / 8) + (i - 8) % 8 := by omega
    rw [decide_eq_false hlow, Bool.not_false, Bool.true_and, swapBytes_bit _ (by omega), hplace]

/-! ## A byte of the message -/

theorem shiftBit_eq_step (x : BitVec 64) : shiftBit x = step polynomial x false := by
  rw [shiftBit_eq, step, Bool.xor_false]
  rfl

theorem shiftBits_eq_shifts (n : Nat) (x : BitVec 64) : shiftBits n x = shifts polynomial n x := by
  induction n generalizing x with
  | zero => rfl
  | succ n ih => rw [shiftBits, ih, shiftBit_eq_step, shifts]

/-- A byte at the top of a register. -/
def atTop (byte : UInt8) : BitVec 64 := byte.toBitVec.setWidth 64 <<< 56

theorem atTop_bit (byte : UInt8) (i : Nat) :
    (atTop byte).getLsbD i = (decide (56 ≤ i) && byte.toBitVec.getLsbD (i - 56)) := by
  unfold atTop
  rw [BitVec.getLsbD_shiftLeft, BitVec.getLsbD_setWidth]
  by_cases hi : i < 64
  · by_cases hlow : i < 56
    · simp [hlow]
    · simp [hlow, hi, Nat.not_lt.mp hlow, show i - 56 < 64 by omega]
  · simp [hi, BitVec.getLsbD_of_ge byte.toBitVec (i - 56) (by omega)]

/-- The bits of a byte, the most significant one first. -/
def bitsOf (byte : UInt8) : List Bool := [7, 6, 5, 4, 3, 2, 1, 0].map byte.toBitVec.getLsbD

theorem bitsOf_eq_topBits (byte : UInt8) : bitsOf byte = topBits 8 (atTop byte) := by
  have hbit : ∀ n ≤ 7, (atTop byte <<< n).getLsbD 63 = byte.toBitVec.getLsbD (7 - n) := by
    intro n hn
    have hplace : 63 - n - 56 = 7 - n := by omega
    rw [BitVec.getLsbD_shiftLeft, atTop_bit, decide_eq_false (show ¬ 63 < n by omega),
      decide_eq_true (show 56 ≤ 63 - n by omega), hplace]
    rfl
  have hfirst : (atTop byte).getLsbD 63 = byte.toBitVec.getLsbD 7 := atTop_bit byte 63
  simp only [topBits, ← BitVec.shiftLeft_add]
  rw [hfirst, hbit 1 (by decide), hbit _ (by decide), hbit _ (by decide), hbit _ (by decide),
    hbit _ (by decide), hbit _ (by decide), hbit _ (by decide)]
  rfl

/-- Eight bits of the division at once. -/
theorem steps_bitsOf (register : BitVec 64) (byte : UInt8) :
    steps polynomial register (bitsOf byte) = shiftBits 8 (register ^^^ atTop byte) := by
  have hgone : atTop byte <<< 8 = 0#64 := by
    apply BitVec.eq_of_getLsbD_eq
    intro i hi
    rw [BitVec.getLsbD_shiftLeft, atTop_bit, decide_eq_false (show ¬ 56 ≤ i - 8 by omega)]
    simp
  rw [shiftBits_eq_shifts, ← steps_topBits, hgone, BitVec.xor_zero, bitsOf_eq_topBits]

/-- The byte a step looks up is the one at the top of the swapped register, with the byte of
the message added. -/
theorem indexOf_top (register : BitVec 64) (byte : UInt8) {i : Nat} (hi : i < 8) :
    (indexOf register byte).getLsbD i = (swapBytes register ^^^ atTop byte).getLsbD (i + 56) := by
  have hplace : 8 * (7 - (i + 56) / 8) + (i + 56) % 8 = i := by omega
  rw [indexOf_bit _ _ hi, BitVec.getLsbD_xor, swapBytes_bit _ (by omega), hplace, atTop_bit,
    decide_eq_true (by omega), Bool.true_and, Nat.add_sub_cancel]

/-- **One step of the loop is eight bits of division**, in the swapped register. -/
theorem swapBytes_updateByte (register : BitVec 64) (byte : UInt8) :
    swapBytes (updateByte register byte) =
      steps polynomial (swapBytes register) (bitsOf byte) := by
  -- the top byte of the dividend, and the rest of it, which is only shifted
  have hsplit : swapBytes register ^^^ atTop byte =
      (indexOf register byte <<< 56) ^^^ ((swapBytes register <<< 8) >>> 8) := by
    apply BitVec.eq_of_getLsbD_eq
    intro i hi
    rw [BitVec.getLsbD_xor (x := indexOf register byte <<< 56), BitVec.getLsbD_shiftLeft,
      BitVec.getLsbD_ushiftRight, BitVec.getLsbD_shiftLeft, decide_eq_true hi, Bool.true_and]
    by_cases htop : i < 56
    · rw [decide_eq_true htop, BitVec.getLsbD_xor, atTop_bit, decide_eq_false (by omega),
        decide_eq_true (by omega), decide_eq_false (by omega), Nat.add_sub_cancel_left]
      simp
    · have hbit := indexOf_top register byte (show i - 56 < 8 by omega)
      rw [Nat.sub_add_cancel (Nat.not_lt.mp htop)] at hbit
      rw [decide_eq_false htop, decide_eq_false (by omega), hbit]
      simp
  have hrest : shiftBits 8 ((swapBytes register <<< 8) >>> 8) = swapBytes register <<< 8 := by
    rw [shiftBits_small]
    · apply BitVec.eq_of_getLsbD_eq
      intro i hi
      rw [BitVec.getLsbD_shiftLeft, BitVec.getLsbD_ushiftRight]
      by_cases hlow : i < 8
      · simp [hlow]
      · simp [hlow, hi, show 8 + (i - 8) = i by omega]
    · intro i hi
      rw [BitVec.getLsbD_ushiftRight]
      exact BitVec.getLsbD_of_ge _ _ (by omega)
  have hentry : BitVec.ofNat 64 (indexOf register byte).toNat = indexOf register byte :=
    BitVec.eq_of_toNat_eq (Nat.mod_eq_of_lt (indexOf register byte).isLt)
  rw [steps_bitsOf, hsplit, shiftBits_xor, hrest]
  show swapBytes (table (indexOf register byte).toNat ^^^ (register >>> 8)) = _
  rw [swapBytes_xor, table, swapBytes_swapBytes, swapBytes_shift, hentry]

/-! ## The message -/

/-- The bits of a message. -/
def messageBits (bytes : List UInt8) : List Bool := bytes.flatMap bitsOf

/-- **A run of the loop is a division of that many bytes.** -/
theorem swapBytes_update (register : BitVec 64) (bytes : List UInt8) :
    swapBytes (update register bytes) =
      steps polynomial (swapBytes register) (messageBits bytes) := by
  induction bytes generalizing register with
  | nil => rfl
  | cons byte bytes ih =>
    have hone : update register (byte :: bytes) = update (updateByte register byte) bytes := rfl
    have hbits : messageBits (byte :: bytes) = bitsOf byte ++ messageBits bytes :=
      List.flatMap_cons
    rw [hone, ih, swapBytes_updateByte, hbits, steps_append]

theorem checksum_eq_remainder (bytes : List UInt8) :
    checksum bytes = remainder polynomial (messageBits bytes) := by
  have hzero : swapBytes 0 = 0 := by decide
  rw [checksum, swapBytes_update, hzero]
  rfl

/-- The pieces of a message are one message. -/
theorem register_chain (crc : Crc64) (pieces : List (List UInt8)) :
    (pieces.foldl chain crc).register = update crc.register pieces.flatten := by
  induction pieces generalizing crc with
  | nil => rfl
  | cons piece pieces ih =>
    rw [List.foldl_cons, ih, List.flatten_cons]
    exact List.foldl_append.symm

/-- **The checksum is the bitwise remainder**, in however many pieces the message came. -/
theorem checksum_divides :
    (∀ bytes, checksum bytes = remainder polynomial (messageBits bytes)) ∧
    ∀ pieces : List (List UInt8), (pieces.foldl chain new).finish =
      remainder polynomial (messageBits pieces.flatten) := by
  refine ⟨checksum_eq_remainder, fun pieces => ?_⟩
  have hregister := register_chain new pieces
  rw [← checksum_eq_remainder]
  exact congrArg swapBytes hregister

/-- As polynomials over the two-element field: the remainder of the message times `X ^ 64`. -/
theorem toPoly_checksum (bytes : List UInt8) :
    toPoly (checksum bytes) =
      (ofBits (messageBits bytes) * Polynomial.X ^ 64) %ₘ divisor polynomial := by
  rw [checksum_eq_remainder]
  exact toPoly_remainder polynomial _

end Crc64

end Bus
end Ytsaurus
