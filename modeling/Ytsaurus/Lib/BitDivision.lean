import Mathlib.Algebra.CharP.Two
import Mathlib.Algebra.Field.ZMod
import Mathlib.Algebra.Polynomial.Div
import Mathlib.Tactic.LinearCombination

/-!
# `Lib/BitDivision.lean` — polynomial division over the bits

A register of `w` bits is a polynomial of degree less than `w` over the field of two elements,
and a string of bits, most significant first, is a polynomial too. `remainder tail bits` is the
schoolbook division by `X ^ w + tail`, one bit at a time in a register of `w` bits; what stays
in the register is the remainder of `bits` times `X ^ w` (`toPoly_remainder`).

`steps_topBits` is for those who divide several bits at once: the top bits of a word may be put
into the register before its shifts or between them.
-/

set_option autoImplicit false

namespace BitDivision

open Polynomial

variable {w : Nat}

/-! ## The register -/

/-- What goes back into the register when this bit comes out at the top. -/
def feedback (tail : BitVec w) (out : Bool) : BitVec w := if out then tail else 0#w

/-- One bit of the division: the bit that leaves the register and the next bit of the dividend
decide whether the divisor is subtracted. -/
def step (tail : BitVec w) (register : BitVec w) (bit : Bool) : BitVec w :=
  (register <<< 1) ^^^ feedback tail (register.getLsbD (w - 1) ^^ bit)

/-- The register after these bits. -/
def steps (tail : BitVec w) (register : BitVec w) (bits : List Bool) : BitVec w :=
  bits.foldl (step tail) register

/-- The remainder of `bits`, times `X ^ w`, by `X ^ w + tail`. -/
def remainder (tail : BitVec w) (bits : List Bool) : BitVec w := steps tail 0#w bits

theorem steps_append (tail register : BitVec w) (bits more : List Bool) :
    steps tail register (bits ++ more) = steps tail (steps tail register bits) more :=
  List.foldl_append

/-- The division without a dividend: the zeros behind it. -/
def shifts (tail : BitVec w) : Nat → BitVec w → BitVec w
  | 0, register => register
  | n + 1, register => shifts tail n (step tail register false)

theorem feedback_xor (tail : BitVec w) (a b : Bool) :
    feedback tail (a ^^ b) = feedback tail a ^^^ feedback tail b := by
  cases a
  · cases b
    · exact (BitVec.xor_zero).symm
    · exact (BitVec.zero_xor).symm
  · cases b
    · exact (BitVec.xor_zero).symm
    · exact (BitVec.xor_self).symm

/-- The first `n` bits of a word, most significant first. -/
def topBits : Nat → BitVec w → List Bool
  | 0, _ => []
  | n + 1, x => x.getLsbD (w - 1) :: topBits n (x <<< 1)

theorem step_xor (tail register x : BitVec w) :
    step tail (register ^^^ x) false =
      step tail register (x.getLsbD (w - 1)) ^^^ (x <<< 1) := by
  unfold step
  rw [BitVec.getLsbD_xor, BitVec.shiftLeft_xor_distrib, Bool.xor_false, feedback_xor]
  ac_rfl

/-- **Bits may be added to the register before they are divided**: what is left of the word
behind its first `n` bits has been shifted by `n`. -/
theorem steps_topBits (tail : BitVec w) (n : Nat) (register x : BitVec w) :
    steps tail register (topBits n x) ^^^ (x <<< n) = shifts tail n (register ^^^ x) := by
  induction n generalizing register x with
  | zero => rw [BitVec.shiftLeft_zero, topBits, steps, List.foldl_nil, shifts]
  | succ n ih =>
    have hrest := ih (step tail register (x.getLsbD (w - 1))) (x <<< 1)
    have hshift : x <<< (n + 1) = x <<< 1 <<< n := by rw [← BitVec.shiftLeft_add, Nat.add_comm]
    rw [shifts, step_xor, ← hrest, hshift]
    rfl

/-! ## Polynomials -/

/-- The polynomial whose coefficients are these bits. -/
noncomputable def toPoly (x : BitVec w) : (ZMod 2)[X] :=
  ∑ i ∈ Finset.range w, if x.getLsbD i then X ^ i else 0

/-- The polynomial that a string of bits spells, from the leading coefficient on. -/
noncomputable def ofBits (bits : List Bool) : (ZMod 2)[X] :=
  bits.foldl (fun p bit => X * p + if bit then 1 else 0) 0

/-- The divisor, whose leading coefficient the register has no place for. -/
noncomputable def divisor (tail : BitVec w) : (ZMod 2)[X] := X ^ w + toPoly tail

theorem coeff_toPoly (x : BitVec w) (i : Nat) :
    (toPoly x).coeff i = if x.getLsbD i then 1 else 0 := by
  have hterm : ∀ j, (if x.getLsbD j then X ^ j else 0 : (ZMod 2)[X]).coeff i
      = if i = j then (if x.getLsbD i then 1 else 0) else 0 := by
    intro j
    by_cases hij : i = j
    · subst hij
      by_cases hbit : x.getLsbD i = true <;> simp [hbit]
    · by_cases hbit : x.getLsbD j = true <;> simp [hbit, hij, coeff_X_pow]
  unfold toPoly
  rw [finsetSum_coeff]
  simp only [hterm, Finset.sum_ite_eq, Finset.mem_range]
  by_cases hi : i < w
  · rw [if_pos hi]
  · simp [hi, BitVec.getLsbD_of_ge x i (Nat.not_lt.mp hi)]

theorem degree_toPoly_lt (x : BitVec w) : (toPoly x).degree < w := by
  rw [degree_lt_iff_coeff_zero]
  intro i hi
  rw [coeff_toPoly, BitVec.getLsbD_of_ge x i hi]
  rfl

theorem toPoly_zero : toPoly 0#w = 0 := by
  ext i
  simp [coeff_toPoly]

theorem toPoly_xor (x y : BitVec w) : toPoly (x ^^^ y) = toPoly x + toPoly y := by
  ext i
  rw [coeff_add, coeff_toPoly, coeff_toPoly, coeff_toPoly, BitVec.getLsbD_xor]
  cases x.getLsbD i <;> cases y.getLsbD i
  · simp
  · simp
  · simp
  · exact (CharTwo.add_self_eq_zero 1).symm

theorem toPoly_feedback (tail : BitVec w) (out : Bool) :
    toPoly (feedback tail out) = if out then toPoly tail else 0 := by
  cases out
  · exact toPoly_zero
  · rfl

/-- A shift multiplies by `X`, but for the bit it drops. -/
theorem toPoly_shiftLeft (x : BitVec w) :
    toPoly (x <<< 1) + (if x.getLsbD (w - 1) then X ^ w else 0) = X * toPoly x := by
  ext i
  have hlead : (if x.getLsbD (w - 1) then X ^ w else 0 : (ZMod 2)[X]).coeff i
      = if i = w ∧ x.getLsbD (w - 1) = true then 1 else 0 := by
    by_cases hbit : x.getLsbD (w - 1) = true
    · simp [hbit, coeff_X_pow]
    · simp [hbit]
  rw [coeff_add, coeff_toPoly, hlead, BitVec.getLsbD_shiftLeft]
  cases i with
  | zero =>
    have hnone : ¬ (0 = w ∧ x.getLsbD (w - 1) = true) := by
      rintro ⟨rfl, hbit⟩
      exact Bool.false_ne_true ((BitVec.getLsbD_of_ge x _ (Nat.zero_le _)).symm.trans hbit)
    simp [hnone]
  | succ i =>
    rw [coeff_X_mul, coeff_toPoly, Nat.add_sub_cancel]
    by_cases hi : i + 1 < w
    · simp [hi, Nat.ne_of_lt hi]
    · by_cases hw : i + 1 = w
      · subst hw
        simp
      · have hbit := BitVec.getLsbD_of_ge x i (by omega)
        simp [hi, hw, hbit]

/-- Dividing one bit further multiplies by `X`, adds the bit and takes away the divisor or
not. -/
theorem toPoly_step (tail register : BitVec w) (bit : Bool) :
    ∃ q, toPoly (step tail register bit) + divisor tail * q
      = X * toPoly register + (if bit then 1 else 0) * X ^ w := by
  have hshift := toPoly_shiftLeft register
  have hdouble : ∀ p : (ZMod 2)[X], p + p = 0 := CharTwo.add_self_eq_zero
  refine ⟨if register.getLsbD (w - 1) ^^ bit then 1 else 0, ?_⟩
  rw [step, toPoly_xor, toPoly_feedback, divisor, ← hshift]
  cases register.getLsbD (w - 1)
  · cases bit
    · simp
    · simp only [Bool.false_xor, if_true, mul_one, one_mul, Bool.false_eq_true, if_false, add_zero]
      linear_combination hdouble (toPoly tail)
  · cases bit
    · simp only [Bool.true_xor, Bool.not_false, if_true, mul_one, Bool.false_eq_true, if_false,
        zero_mul, add_zero]
      linear_combination hdouble (toPoly tail)
    · simp only [Bool.true_xor, Bool.not_true, if_true, one_mul, Bool.false_eq_true, if_false,
        mul_zero, add_zero]
      linear_combination -(hdouble (X ^ w))

theorem monic_divisor (tail : BitVec w) : (divisor tail).Monic :=
  monic_X_pow_add (degree_toPoly_lt tail)

theorem degree_divisor (tail : BitVec w) : (divisor tail).degree = w := by
  have hdegree : (X ^ w : (ZMod 2)[X]).degree = w := degree_X_pow w
  unfold divisor
  rw [degree_add_eq_left_of_degree_lt, hdegree]
  rw [hdegree]
  exact degree_toPoly_lt tail

theorem ofBits_append (bits : List Bool) (bit : Bool) :
    ofBits (bits ++ [bit]) = X * ofBits bits + if bit then 1 else 0 := by
  unfold ofBits
  rw [List.foldl_append, List.foldl_cons, List.foldl_nil]

/-- The register and the dividend so far differ by a multiple of the divisor. -/
theorem remainder_congr (tail : BitVec w) (bits : List Bool) :
    ∃ q, toPoly (remainder tail bits) + divisor tail * q = ofBits bits * X ^ w := by
  induction bits using List.reverseRecOn with
  | nil =>
    refine ⟨0, ?_⟩
    rw [remainder, steps, List.foldl_nil, toPoly_zero, ofBits, List.foldl_nil]
    simp
  | append_singleton bits bit ih =>
    obtain ⟨q, hq⟩ := ih
    obtain ⟨r, hr⟩ := toPoly_step tail (remainder tail bits) bit
    refine ⟨r + X * q, ?_⟩
    have hstep : remainder tail (bits ++ [bit]) = step tail (remainder tail bits) bit :=
      steps_append _ _ _ _
    rw [hstep, ofBits_append]
    linear_combination hr + X * hq

/-- **The register holds the remainder.** -/
theorem toPoly_remainder (tail : BitVec w) (bits : List Bool) :
    toPoly (remainder tail bits) = (ofBits bits * X ^ w) %ₘ divisor tail := by
  obtain ⟨q, hq⟩ := remainder_congr tail bits
  have hlt : (toPoly (remainder tail bits)).degree < (divisor tail).degree := by
    rw [degree_divisor]
    exact degree_toPoly_lt _
  exact (div_modByMonic_unique q _ (monic_divisor tail) ⟨hq, hlt⟩).2.symm

end BitDivision
