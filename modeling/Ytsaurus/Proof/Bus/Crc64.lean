import Ytsaurus.Bus.Crc64

/-!
# `Proof/Bus/Crc64.lean` — a changed byte changes the checksum

Dividing by the polynomial one bit further is linear in exclusive or, and nothing but zero
gives zero: the polynomial has a constant term, which a shifted register lacks. So the last
byte of a table entry determines its index (`table_top_injective`), a step of the register
can be undone (`updateByte_injective`), and two messages of one length that differ in a
single byte have different checksums, wherever the byte is and whatever follows it
(`checksum_ne`).

The table is not looked at entry by entry. It is defined as the code builds it, by eight steps of
division for each index, and what is needed of it follows from the linearity: two entries with the
same last byte differ by an entry whose last byte is zero, and only the entry of zero has that.
Which polynomial it is plays no part but for its constant term.

The loop works on a byte-swapped register, which is why the byte that counts is the last one here
and the top one in the division. `Proof/Bus/Division.lean` has the relation of the two.
-/

set_option autoImplicit false

namespace Ytsaurus
namespace Bus

open LittleEndian

namespace Crc64

/-! ## Division, one bit further -/

theorem top_bit (x : BitVec 64) : x &&& 0x8000000000000000 ≠ 0 ↔ x.getLsbD 63 = true := by
  have hbit : (0x8000000000000000 : BitVec 64) = BitVec.twoPow 64 63 := rfl
  rw [hbit, BitVec.and_twoPow]
  cases x.getLsbD 63
  · simp
  · simp

/-- What goes back into the register when this bit comes out at the top. -/
def feedback (top : Bool) : BitVec 64 := if top then polynomial else 0#64

theorem feedback_xor (a b : Bool) : feedback (a ^^ b) = feedback a ^^^ feedback b := by
  cases a <;> cases b <;> rfl

theorem shiftBit_eq (x : BitVec 64) : shiftBit x = (x <<< 1) ^^^ feedback (x.getLsbD 63) := by
  unfold shiftBit
  by_cases h : x.getLsbD 63 = true
  · rw [if_pos ((top_bit x).mpr h), h]
    rfl
  · rw [if_neg (mt (top_bit x).mp h), Bool.eq_false_iff.mpr h]
    exact (BitVec.xor_zero).symm

/-- Division is linear in exclusive or. -/
theorem shiftBit_xor (x y : BitVec 64) : shiftBit (x ^^^ y) = shiftBit x ^^^ shiftBit y := by
  rw [shiftBit_eq, shiftBit_eq, shiftBit_eq, BitVec.getLsbD_xor, BitVec.shiftLeft_xor_distrib,
    feedback_xor]
  ac_rfl

theorem shiftBits_xor (n : Nat) (x y : BitVec 64) :
    shiftBits n (x ^^^ y) = shiftBits n x ^^^ shiftBits n y := by
  induction n generalizing x y with
  | zero => rfl
  | succ n ih => rw [shiftBits, shiftBit_xor, ih, shiftBits, shiftBits]

/-- The constant term of the polynomial stays behind. -/
theorem shiftBit_eq_zero {x : BitVec 64} (h : shiftBit x = 0#64) : x = 0#64 := by
  rw [shiftBit_eq] at h
  by_cases htop : x.getLsbD 63 = true
  · rw [htop] at h
    have hlast := congrArg (fun y => y.getLsbD 0) h
    simp [feedback, polynomial] at hlast
  · have hnone : feedback (x.getLsbD 63) = 0#64 := by
      rw [Bool.eq_false_iff.mpr htop]
      rfl
    rw [hnone, BitVec.xor_zero] at h
    apply BitVec.eq_of_getLsbD_eq
    intro i hi
    rw [BitVec.getLsbD_zero]
    by_cases hlast : i = 63
    · subst hlast
      exact Bool.eq_false_iff.mpr htop
    · have hbit : (x <<< 1).getLsbD (i + 1) = false := by rw [h, BitVec.getLsbD_zero]
      rw [BitVec.getLsbD_shiftLeft, decide_eq_true (show i + 1 < 64 by omega),
        decide_eq_false (show ¬ i + 1 < 1 by omega), Nat.add_sub_cancel] at hbit
      exact hbit

theorem shiftBits_eq_zero {n : Nat} {x : BitVec 64} (h : shiftBits n x = 0#64) : x = 0#64 := by
  induction n generalizing x with
  | zero => exact h
  | succ n ih => exact shiftBit_eq_zero (ih h)

/-- As long as no bit has come to the top, dividing is shifting. -/
theorem shiftBits_small {n : Nat} {x : BitVec 64} (h : ∀ i, 64 - n ≤ i → x.getLsbD i = false) :
    shiftBits n x = x <<< n := by
  induction n generalizing x with
  | zero => exact (BitVec.shiftLeft_zero x).symm
  | succ n ih =>
    have htop : x.getLsbD 63 = false := h 63 (by omega)
    have hone : shiftBit x = x <<< 1 := by
      rw [shiftBit_eq, htop]
      exact BitVec.xor_zero
    rw [shiftBits, hone, ih, ← BitVec.shiftLeft_add, Nat.add_comm]
    intro i hi
    rw [BitVec.getLsbD_shiftLeft]
    by_cases hzero : i < 1
    · simp [hzero]
    · rw [h (i - 1) (by omega), Bool.and_false]

/-- The last byte of eight bits of division says which byte was divided. -/
theorem shiftBits_byte {x : BitVec 64} (h : ∀ i, i < 8 → (shiftBits 8 (x <<< 56)).getLsbD i = false) :
    x <<< 56 = 0#64 := by
  have hsmall : shiftBits 8 (shiftBits 8 (x <<< 56) >>> 8) = shiftBits 8 (x <<< 56) := by
    rw [shiftBits_small]
    · apply BitVec.eq_of_getLsbD_eq
      intro i hi
      rw [BitVec.getLsbD_shiftLeft, BitVec.getLsbD_ushiftRight]
      by_cases hlow : i < 8
      · simp [hlow, h i hlow]
      · simp [hlow, hi, show 8 + (i - 8) = i by omega]
    · intro i hi
      rw [BitVec.getLsbD_ushiftRight]
      exact BitVec.getLsbD_of_ge _ _ (by omega)
  have hzero : shiftBits 8 ((x <<< 56) ^^^ (shiftBits 8 (x <<< 56) >>> 8)) = 0#64 := by
    rw [shiftBits_xor, hsmall, BitVec.xor_self]
  have hsame := BitVec.xor_eq_zero_iff.mp (shiftBits_eq_zero hzero)
  apply BitVec.eq_of_getLsbD_eq
  intro i hi
  by_cases htop : i < 56
  · simp [htop]
  · rw [hsame, BitVec.getLsbD_ushiftRight, BitVec.getLsbD_zero]
    exact BitVec.getLsbD_of_ge _ _ (by omega)

/-! ## The table -/

/-- The byte at the top of a swapped register is the one that was at the bottom. -/
theorem swapBytes_top (x : BitVec 64) : (swapBytes x).toNat / 256 ^ 7 = x.toNat % 256 := by
  have hswap : (swapBytes x).toNat =
      ofLeBytes (leBytes 7 (x.toNat / 256)).reverse + 256 ^ 7 * (x.toNat % 256) := by
    have hlength : (toLeBytes 8 x).reverse.length = 8 := by
      rw [List.length_reverse, toLeBytes_length]
    have hlt := ofLeBytes_lt (toLeBytes 8 x).reverse
    rw [hlength] at hlt
    have hrest : (toLeBytes 8 x).reverse =
        (leBytes 7 (x.toNat / 256)).reverse ++ [UInt8.ofNat x.toNat] := List.reverse_cons
    unfold swapBytes fromLeBytes
    rw [BitVec.toNat_ofNat, show 2 ^ 64 = 256 ^ 8 from rfl, Nat.mod_eq_of_lt hlt, hrest, ofLeBytes_append, List.length_reverse,
      leBytes_length]
    show _ + 256 ^ 7 * ((UInt8.ofNat x.toNat).toNat + 256 * 0) = _
    rw [UInt8.toNat_ofNat', Nat.mul_zero, Nat.add_zero]
  have hlow := ofLeBytes_lt (leBytes 7 (x.toNat / 256)).reverse
  rw [List.length_reverse, leBytes_length] at hlow
  rw [hswap, Nat.add_mul_div_left _ _ (Nat.pow_pos (by decide)), Nat.div_eq_of_lt hlow,
    Nat.zero_add]

theorem swapBytes_injective {x y : BitVec 64} (h : swapBytes x = swapBytes y) : x = y := by
  unfold swapBytes at h
  have hbytes := congrArg (toLeBytes 8) h
  have hlength : ∀ z : BitVec 64, (toLeBytes 8 z).reverse.length = 8 := by
    intro z
    rw [List.length_reverse, toLeBytes_length]
  rw [toLeBytes_fromLeBytes rfl (hlength x), toLeBytes_fromLeBytes rfl (hlength y)] at hbytes
  have hsame := congrArg (fromLeBytes 64) (List.reverse_inj.mp hbytes)
  rwa [@fromLeBytes_toLeBytes 8 64 rfl x, @fromLeBytes_toLeBytes 8 64 rfl y] at hsame

/-- **The table is told by its last bytes**: entries with the same one are the same entry. -/
theorem table_top_injective {i j : Nat} (hi : i < 256) (hj : j < 256)
    (h : (table i).toNat / 256 ^ 7 = (table j).toNat / 256 ^ 7) : i = j := by
  unfold table at h
  rw [swapBytes_top, swapBytes_top] at h
  have hzero : (BitVec.ofNat 64 i ^^^ BitVec.ofNat 64 j) <<< 56 = 0#64 := by
    apply shiftBits_byte
    intro k hk
    have hbit := congrArg (fun n => n.testBit k) h
    have hmod : ∀ n : Nat, (n % 256).testBit k = n.testBit k := by
      intro n
      rw [show 256 = 2 ^ 8 from rfl, Nat.testBit_mod_two_pow, decide_eq_true hk, Bool.true_and]
    simp only [hmod] at hbit
    rw [BitVec.shiftLeft_xor_distrib, shiftBits_xor, BitVec.getLsbD_xor]
    exact bne_eq_false_iff_eq.mpr hbit
  rw [BitVec.shiftLeft_xor_distrib, BitVec.xor_eq_zero_iff] at hzero
  have hnat := congrArg BitVec.toNat hzero
  simp only [BitVec.toNat_shiftLeft, BitVec.toNat_ofNat, Nat.shiftLeft_eq] at hnat
  omega

/-! ## The register -/

/-- The entry that a step looks up. -/
def indexOf (register : BitVec 64) (byte : UInt8) : BitVec 64 :=
  (register ^^^ byte.toBitVec.setWidth 64) &&& 0xff

theorem indexOf_bit (register : BitVec 64) (byte : UInt8) {i : Nat} (hi : i < 8) :
    (indexOf register byte).getLsbD i = (register.getLsbD i ^^ byte.toBitVec.getLsbD i) := by
  have hmask : (0xff : BitVec 64).getLsbD i = true := by
    rw [show (0xff : BitVec 64) = BitVec.ofNat 64 (2 ^ 8 - 1) from rfl, BitVec.getLsbD_ofNat,
      Nat.testBit_two_pow_sub_one, decide_eq_true hi, decide_eq_true (show i < 64 by omega)]
    rfl
  unfold indexOf
  rw [BitVec.getLsbD_and, hmask, Bool.and_true, BitVec.getLsbD_xor, BitVec.getLsbD_setWidth,
    decide_eq_true (show i < 64 by omega), Bool.true_and]

theorem indexOf_lt (register : BitVec 64) (byte : UInt8) : (indexOf register byte).toNat < 256 := by
  unfold indexOf
  rw [BitVec.toNat_and]
  exact Nat.lt_of_le_of_lt Nat.and_le_right (by decide)

/-- The rest of the register does not reach the last byte of the entry. -/
theorem top_xor (entry register : BitVec 64) :
    (entry ^^^ (register >>> 8)).toNat / 256 ^ 7 = entry.toNat / 256 ^ 7 := by
  have hlt := register.isLt
  have hrest : (register >>> 8).toNat / 2 ^ 56 = 0 := by
    rw [BitVec.toNat_ushiftRight, Nat.shiftRight_eq_div_pow]
    omega
  rw [BitVec.toNat_xor, show 256 ^ 7 = 2 ^ 56 from rfl, Nat.xor_div_two_pow, hrest, Nat.xor_zero]

/-- A step can be undone: it is known which entry was looked up, and what the rest of the
register was. -/
theorem updateByte_eq {r r' : BitVec 64} {b b' : UInt8} (h : updateByte r b = updateByte r' b') :
    indexOf r b = indexOf r' b' ∧ r >>> 8 = r' >>> 8 := by
  have hsteps : table (indexOf r b).toNat ^^^ (r >>> 8) =
      table (indexOf r' b').toNat ^^^ (r' >>> 8) := h
  have htops := congrArg (fun x => x.toNat / 256 ^ 7) hsteps
  simp only [top_xor] at htops
  have hindex := table_top_injective (indexOf_lt r b) (indexOf_lt r' b') htops
  refine ⟨BitVec.eq_of_toNat_eq hindex, ?_⟩
  rw [hindex] at hsteps
  exact (BitVec.xor_right_inj _).mp hsteps

theorem updateByte_injective {r r' : BitVec 64} {b : UInt8}
    (h : updateByte r b = updateByte r' b) : r = r' := by
  obtain ⟨hindex, hrest⟩ := updateByte_eq h
  apply BitVec.eq_of_getLsbD_eq
  intro i hi
  by_cases hlow : i < 8
  · have hbit := congrArg (fun x => x.getLsbD i) hindex
    simp only [indexOf_bit _ _ hlow] at hbit
    exact Bool.xor_left_inj.mp hbit
  · have hbit := congrArg (fun x => x.getLsbD (i - 8)) hrest
    simp only [BitVec.getLsbD_ushiftRight] at hbit
    rwa [Nat.add_sub_cancel' (Nat.not_lt.mp hlow)] at hbit

theorem updateByte_byte_injective {r : BitVec 64} {b b' : UInt8}
    (h : updateByte r b = updateByte r b') : b = b' := by
  obtain ⟨hindex, _⟩ := updateByte_eq h
  apply UInt8.toBitVec_inj.mp
  apply BitVec.eq_of_getLsbD_eq
  intro i hi
  have hbit := congrArg (fun x => x.getLsbD i) hindex
  simp only [indexOf_bit _ _ hi] at hbit
  exact Bool.xor_right_inj.mp hbit

theorem update_injective {r r' : BitVec 64} {bytes : List UInt8}
    (h : update r bytes = update r' bytes) : r = r' := by
  induction bytes generalizing r r' with
  | nil => exact h
  | cons b bytes ih => exact updateByte_injective (ih h)

/-- **A changed byte changes the checksum**, wherever it is. -/
theorem checksum_ne (front back : List UInt8) {b b' : UInt8} (h : b ≠ b') :
    checksum (front ++ b :: back) ≠ checksum (front ++ b' :: back) := by
  intro hsame
  have hregister := swapBytes_injective hsame
  unfold update at hregister
  rw [List.foldl_append, List.foldl_append] at hregister
  exact h (updateByte_byte_injective (update_injective hregister))

end Crc64

end Bus
end Ytsaurus
