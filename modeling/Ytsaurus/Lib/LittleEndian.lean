import Mathlib.Algebra.Group.Nat.Defs

/-!
# `Lib/LittleEndian.lean` — fixed-width little-endian numbers

`leBytes n v` is the low `n` bytes of `v`, least significant first, and `ofLeBytes` is the
number a byte string denotes. On `n` bytes the two are inverse to each other, in both
directions: no two byte strings of one width denote the same number.

A machine word is a `BitVec`; `toLeBytes` and `fromLeBytes` are the same pair at a word
whose width is a whole number of bytes.
-/

set_option autoImplicit false

namespace LittleEndian

def leBytes : Nat → Nat → List UInt8
  | 0, _ => []
  | n + 1, v => UInt8.ofNat v :: leBytes n (v / 256)

def ofLeBytes : List UInt8 → Nat
  | [] => 0
  | b :: bytes => b.toNat + 256 * ofLeBytes bytes

/-! ## Widths and bounds -/

@[simp] theorem leBytes_length (n v : Nat) : (leBytes n v).length = n := by
  induction n generalizing v with
  | zero => rfl
  | succ n ih => rw [leBytes, List.length_cons, ih]

theorem ofLeBytes_lt (bytes : List UInt8) : ofLeBytes bytes < 256 ^ bytes.length := by
  induction bytes with
  | nil => exact Nat.one_pos
  | cons b bytes ih =>
    have hb : b.toNat < 256 := b.toNat_lt
    rw [ofLeBytes, List.length_cons, Nat.pow_succ]
    omega

theorem ofLeBytes_append (bytes more : List UInt8) :
    ofLeBytes (bytes ++ more) = ofLeBytes bytes + 256 ^ bytes.length * ofLeBytes more := by
  induction bytes with
  | nil => rw [List.nil_append, List.length_nil, Nat.pow_zero, Nat.one_mul, ofLeBytes, Nat.zero_add]
  | cons b bytes ih =>
    rw [List.cons_append, ofLeBytes, ih, ofLeBytes, List.length_cons, Nat.pow_succ, Nat.mul_add,
      Nat.mul_comm (256 ^ bytes.length) 256, Nat.mul_assoc, Nat.add_assoc]

/-! ## The round trips -/

theorem ofLeBytes_leBytes {n v : Nat} (h : v < 256 ^ n) : ofLeBytes (leBytes n v) = v := by
  induction n generalizing v with
  | zero =>
    rw [Nat.pow_zero] at h
    exact (Nat.lt_one_iff.mp h).symm
  | succ n ih =>
    have hrest : v / 256 < 256 ^ n := by
      apply Nat.div_lt_of_lt_mul
      rwa [Nat.mul_comm, ← Nat.pow_succ]
    have hfirst : (UInt8.ofNat v).toNat = v % 256 := UInt8.toNat_ofNat'
    rw [leBytes, ofLeBytes, ih hrest, hfirst]
    exact Nat.mod_add_div v 256

theorem leBytes_ofLeBytes (bytes : List UInt8) : leBytes bytes.length (ofLeBytes bytes) = bytes := by
  induction bytes with
  | nil => rfl
  | cons b bytes ih =>
    have hb : b.toNat < 256 := b.toNat_lt
    have hfirst : UInt8.ofNat (b.toNat + 256 * ofLeBytes bytes) = b := by
      apply UInt8.toNat.inj
      rw [UInt8.toNat_ofNat']
      omega
    have hrest : (b.toNat + 256 * ofLeBytes bytes) / 256 = ofLeBytes bytes := by omega
    rw [List.length_cons, ofLeBytes, leBytes, hfirst, hrest, ih]

/-! ## Bits -/

theorem leBytes_getElem? {n k : Nat} (v : Nat) (hk : k < n) :
    (leBytes n v)[k]? = some (UInt8.ofNat (v / 256 ^ k)) := by
  induction n generalizing v k with
  | zero => exact absurd hk (Nat.not_lt_zero k)
  | succ n ih =>
    cases k with
    | zero => rw [leBytes, List.getElem?_cons_zero, Nat.pow_zero, Nat.div_one]
    | succ k =>
      rw [leBytes, List.getElem?_cons_succ, ih (v / 256) (Nat.lt_of_succ_lt_succ hk),
        Nat.div_div_eq_div_mul, Nat.pow_succ, Nat.mul_comm 256]

/-- A bit of the number is a bit of one of its bytes. -/
theorem testBit_ofLeBytes (bytes : List UInt8) (i : Nat) :
    (ofLeBytes bytes).testBit i = (bytes.getD (i / 8) 0).toNat.testBit (i % 8) := by
  induction bytes generalizing i with
  | nil => simp [ofLeBytes]
  | cons b bytes ih =>
    have hsum : ofLeBytes (b :: bytes) = 2 ^ 8 * ofLeBytes bytes + b.toNat := by
      rw [ofLeBytes, Nat.add_comm]
      rfl
    rw [hsum, Nat.testBit_two_pow_mul_add _ b.toNat_lt]
    by_cases hi : i < 8
    · rw [if_pos hi, Nat.div_eq_of_lt hi, Nat.mod_eq_of_lt hi]
      rfl
    · have hdiv : i / 8 = (i - 8) / 8 + 1 := by omega
      have hmod : i % 8 = (i - 8) % 8 := by omega
      rw [if_neg hi, ih, hdiv, hmod]
      rfl

/-! ## Machine words -/

/-- The `n` bytes of a word. -/
def toLeBytes (n : Nat) {w : Nat} (x : BitVec w) : List UInt8 := leBytes n x.toNat

/-- The word of width `w` that a byte string denotes. -/
def fromLeBytes (w : Nat) (bytes : List UInt8) : BitVec w := BitVec.ofNat w (ofLeBytes bytes)

@[simp] theorem toLeBytes_length (n : Nat) {w : Nat} (x : BitVec w) :
    (toLeBytes n x).length = n := leBytes_length n x.toNat

theorem two_pow_eight_mul (n : Nat) : 2 ^ (8 * n) = 256 ^ n := by
  rw [Nat.pow_mul]

theorem fromLeBytes_toLeBytes {n w : Nat} (hw : w = 8 * n) (x : BitVec w) :
    fromLeBytes w (toLeBytes n x) = x := by
  have hx : x.toNat < 256 ^ n := by
    rw [← two_pow_eight_mul, ← hw]
    exact x.isLt
  apply BitVec.eq_of_toNat_eq
  rw [fromLeBytes, toLeBytes, ofLeBytes_leBytes hx, BitVec.toNat_ofNat]
  exact Nat.mod_eq_of_lt x.isLt

theorem toLeBytes_fromLeBytes {n w : Nat} {bytes : List UInt8} (hw : w = 8 * n)
    (hn : bytes.length = n) : toLeBytes n (fromLeBytes w bytes) = bytes := by
  have hlt : ofLeBytes bytes < 2 ^ w := by
    rw [hw, two_pow_eight_mul, ← hn]
    exact ofLeBytes_lt bytes
  rw [toLeBytes, fromLeBytes, BitVec.toNat_ofNat, Nat.mod_eq_of_lt hlt, ← hn]
  exact leBytes_ofLeBytes bytes

end LittleEndian
