import Ytsaurus.Yson.Basic
import Mathlib.Tactic.Ring
import Mathlib.Tactic.NormNum

/-!
# `Yson/Varint.lean` — base-128 integers (`varint.rs`)

`read_uvarint`, `read_varint`, `write_uvarint`, `write_varint`, on machine words. The
lemmas say what the codec needs of them: reading what was written gives the value back and
consumes exactly what was written whatever follows, and a reader that succeeded saw only
the bytes it consumed.
-/

set_option autoImplicit false

namespace Ytsaurus.Yson

/-- The loop of `read_uvarint`, at byte `i` with the groups before it folded into `result`.
`full` is the length of the whole input, which the end-of-input error reports. -/
def readUvarintLoop (full : Nat) : List UInt8 → Nat → UInt64 → UInt64 → Except YsonError (UInt64 × Nat)
  | [], _, _, _ => .error (.unexpectedEof full)
  | byte :: rest, i, shift, result =>
    if i ≥ 10 then .error (.custom .varintTooLong)
    else
      let bits := (byte &&& 0x7F).toUInt64
      -- the tenth byte holds only the top bit of a `u64`
      if shift = 63 ∧ bits > 1 then .error (.custom .varintOverflow)
      else
        let result := result ||| (bits <<< shift)
        if byte &&& 0x80 = 0 then .ok (result, i + 1)
        else readUvarintLoop full rest (i + 1) (shift + 7) result

def readUvarint (input : List UInt8) : Except YsonError (UInt64 × Nat) :=
  readUvarintLoop input.length input 0 0 0

/-- The zigzag decoding of `read_varint`. -/
def unzigzag (u : UInt64) : Int64 := (u >>> 1).toInt64 ^^^ (-(u &&& 1).toInt64)

def readVarint (input : List UInt8) : Except YsonError (Int64 × Nat) :=
  (readUvarint input).map fun (u, consumed) => (unzigzag u, consumed)

/-- `while val >= 0x80`: at most ten groups for a 64-bit word, which is the fuel. -/
def writeUvarintLoop : Nat → UInt64 → List UInt8
  | 0, val => [val.toUInt8]
  | n + 1, val =>
    if val ≥ 0x80 then (val.toUInt8 ||| 0x80) :: writeUvarintLoop n (val >>> 7)
    else [val.toUInt8]

def writeUvarint (val : UInt64) : List UInt8 := writeUvarintLoop 10 val

def zigzag (val : Int64) : UInt64 := ((val <<< 1) ^^^ (val >>> 63)).toUInt64

def writeVarint (val : Int64) : List UInt8 := writeUvarint (zigzag val)

/-! ## Groups of seven bits -/

theorem payload_toNat (b : UInt8) : (b &&& 0x7F).toUInt64.toNat = b.toNat % 128 := by
  rw [UInt8.toNat_toUInt64, UInt8.toNat_and]
  exact Nat.and_two_pow_sub_one_eq_mod b.toNat 7

theorem and_top_bit : ∀ b : Fin 256, b.val &&& 128 = b.val / 128 * 128 := by decide +kernel

theorem continuation_iff (b : UInt8) : b &&& 0x80 = 0 ↔ b.toNat < 128 := by
  have hand : (b &&& 0x80).toNat = b.toNat / 128 * 128 := by
    rw [UInt8.toNat_and]
    exact and_top_bit ⟨b.toNat, b.toNat_lt⟩
  rw [← UInt8.toNat_inj, hand]
  have := b.toNat_lt
  simp only [UInt8.toNat_ofNat, Nat.reducePow, Nat.zero_mod]
  omega

theorem shiftRight_seven (v : UInt64) : (v >>> 7).toNat = v.toNat / 128 := by
  rw [UInt64.toNat_shiftRight]
  simp [Nat.shiftRight_eq_div_pow]

/-- A group written with the continuation bit keeps its payload and is not a last group. -/
theorem continued_group (v : UInt64) :
    ((v.toUInt8 ||| 0x80) &&& 0x7F).toUInt64.toNat = v.toNat % 128 ∧
      ¬ (v.toUInt8 ||| 0x80) &&& 0x80 = 0 := by
  have hor : ∀ b : Fin 256, (b.val ||| 128) % 128 = b.val % 128 ∧ 128 ≤ b.val ||| 128 := by
    decide +kernel
  obtain ⟨hlow, hhigh⟩ := hor ⟨v.toUInt8.toNat, v.toUInt8.toNat_lt⟩
  have hval : (v.toUInt8 ||| 0x80).toNat = v.toUInt8.toNat ||| 128 := UInt8.toNat_or _ _
  refine ⟨?_, ?_⟩
  · rw [payload_toNat, hval, hlow]
    simp only [UInt64.toNat_toUInt8]
    omega
  · rw [continuation_iff, hval, Nat.not_lt]
    simpa using hhigh

/-- Or-ing a group in above the bits already read is adding it there. -/
theorem or_group (bits : UInt64) {result shift : UInt64} {s : Nat} (hs : shift.toNat = s) (hlt : s < 64)
    (hr : result.toNat < 2 ^ s) (hfit : bits.toNat * 2 ^ s < 2 ^ 64) :
    (result ||| (bits <<< shift)).toNat = result.toNat + bits.toNat * 2 ^ s := by
  rw [UInt64.toNat_or, UInt64.toNat_shiftLeft, hs, Nat.mod_eq_of_lt hlt, Nat.shiftLeft_eq,
    Nat.mod_eq_of_lt hfit, Nat.or_comm, Nat.mul_comm, ← Nat.two_pow_add_eq_or_of_lt hr]
  omega

/-! ## Reading what was written -/

/-- The reader, positioned after `i` groups whose value is `result`, reads the groups of `v`
and returns their sum. `k` is the writer's remaining fuel: enough groups for `v`. -/
theorem readUvarintLoop_write (full : Nat) (tail : List UInt8) : ∀ (k i : Nat) (v shift result : UInt64),
    i + k = 10 → shift.toNat = 7 * i → result.toNat < 2 ^ (7 * i) →
    v.toNat * 2 ^ (7 * i) < 2 ^ 64 → i < 10 →
    ∃ r : UInt64, r.toNat = result.toNat + v.toNat * 2 ^ (7 * i) ∧
      readUvarintLoop full (writeUvarintLoop k v ++ tail) i shift result
        = .ok (r, i + (writeUvarintLoop k v).length) := by
  intro k
  induction k with
  | zero => intro i v shift result hik _ _ _ hi; omega
  | succ k ih =>
    intro i v shift result hik hshift hres hfit hi
    have hpow : 0 < 2 ^ (7 * i) := Nat.two_pow_pos _
    by_cases hbig : v ≥ 0x80
    · have hv : 128 ≤ v.toNat := by simpa [UInt64.le_iff_toNat_le] using hbig
      obtain ⟨hbits, hcont⟩ := continued_group v
      have hi9 : i < 9 := by
        by_contra hcon
        obtain rfl : i = 9 := by omega
        have : 128 * 2 ^ 63 ≤ v.toNat * 2 ^ 63 := Nat.mul_le_mul_right _ hv
        omega
      have hle : v.toNat % 128 * 2 ^ (7 * i) ≤ v.toNat * 2 ^ (7 * i) :=
        Nat.mul_le_mul_right _ (Nat.mod_le _ _)
      have hor := or_group ((v.toUInt8 ||| 0x80) &&& 0x7F).toUInt64 hshift
        (by omega) hres (by rw [hbits]; omega)
      rw [hbits] at hor
      have hstep : 2 ^ (7 * (i + 1)) = 128 * 2 ^ (7 * i) := by
        rw [show 7 * (i + 1) = 7 * i + 7 by ring, pow_add]; ring
      have hsplit : v.toNat = v.toNat % 128 + 128 * (v.toNat / 128) := by omega
      have hsum : v.toNat % 128 * 2 ^ (7 * i) + v.toNat / 128 * (128 * 2 ^ (7 * i))
          = v.toNat * 2 ^ (7 * i) := by
        conv_rhs => rw [hsplit]
        ring
      have hmod : v.toNat % 128 * 2 ^ (7 * i) ≤ 127 * 2 ^ (7 * i) :=
        Nat.mul_le_mul_right _ (by omega)
      obtain ⟨r, hr, hread⟩ := ih (i + 1) (v >>> 7) (shift + 7)
        (result ||| (((v.toUInt8 ||| 0x80) &&& 0x7F).toUInt64 <<< shift)) (by omega)
        (by rw [UInt64.toNat_add, hshift]; simp; omega) (by rw [hor, hstep]; omega)
        (by rw [shiftRight_seven, hstep]; omega) (by omega)
      refine ⟨r, by rw [hr, hor, shiftRight_seven, hstep]; omega, ?_⟩
      have hshift63 : ¬ (shift = 63 ∧ ((v.toUInt8 ||| 0x80) &&& 0x7F).toUInt64 > 1) := by
        rintro ⟨rfl, -⟩
        simp at hshift
        omega
      simp only [writeUvarintLoop, if_pos hbig, List.cons_append, readUvarintLoop,
        ge_iff_le, Nat.not_le.mpr hi, if_false, if_neg hshift63, if_neg hcont, hread,
        List.length_cons]
      congr 2
      omega
    · have hv : v.toNat < 128 := by
        simpa [UInt64.le_iff_toNat_le, Nat.not_le] using hbig
      have hb : v.toUInt8.toNat = v.toNat := by
        simp only [UInt64.toNat_toUInt8]
        omega
      have hbits : (v.toUInt8 &&& 0x7F).toUInt64.toNat = v.toNat := by
        rw [payload_toNat, hb]
        omega
      have hor := or_group (v.toUInt8 &&& 0x7F).toUInt64 hshift (by omega) hres
        (by rw [hbits]; omega)
      have hover : ¬ (shift = 63 ∧ (v.toUInt8 &&& 0x7F).toUInt64 > 1) := by
        rintro ⟨rfl, hgt⟩
        have hgt' : 1 < v.toNat := by
          have := UInt64.lt_iff_toNat_lt.mp hgt
          rwa [hbits] at this
        have hi9 : 7 * i = 63 := by simpa using hshift.symm
        rw [hi9] at hfit
        have : 2 * 2 ^ 63 ≤ v.toNat * 2 ^ 63 := Nat.mul_le_mul_right _ hgt'
        omega
      refine ⟨_, by rw [hor, hbits], ?_⟩
      have hlast : v.toUInt8 &&& 0x80 = 0 := by rw [continuation_iff, hb]; exact hv
      simp only [writeUvarintLoop, if_neg hbig, List.cons_append, readUvarintLoop,
        ge_iff_le, Nat.not_le.mpr hi, if_false, if_neg hover, if_pos hlast,
        List.length_cons, List.length_nil]

theorem readUvarint_write (v : UInt64) (tail : List UInt8) :
    readUvarint (writeUvarint v ++ tail) = .ok (v, (writeUvarint v).length) := by
  have hv := v.toNat_lt
  obtain ⟨r, hr, hread⟩ := readUvarintLoop_write (writeUvarint v ++ tail).length tail 10 0 v 0 0
    (by omega) (by simp) (by simp) (by simpa using hv) (by omega)
  have : r = v := UInt64.toNat_inj.mp (by simpa using hr)
  rw [readUvarint]
  simpa [writeUvarint, this] using hread

/-! ## Zigzag -/

/-- An arithmetic shift by 63 fills the word with the sign. -/
theorem sign_fill (x : BitVec 64) :
    x.sshiftRight 63 = if x.msb then BitVec.allOnes 64 else 0#64 := by
  ext i hi
  simp only [BitVec.getElem_sshiftRight]
  split
  · obtain rfl : i = 0 := by omega
    cases h : x.msb <;> simp_all [BitVec.msb_eq_getLsbD_last]
  · cases h : x.msb <;>
      simp only [if_true, if_false, BitVec.getElem_allOnes, BitVec.getElem_zero,
        Bool.false_eq_true]

theorem bitVec_zigzag (x : BitVec 64) :
    (((x <<< 1) ^^^ (x.sshiftRight 63)) >>> 1)
      ^^^ (-(((x <<< 1) ^^^ (x.sshiftRight 63)) &&& 1#64)) = x := by
  rw [sign_fill]
  cases h : x.msb with
  | false =>
    have hlow : (x <<< 1 ^^^ 0#64) &&& 1#64 = 0#64 := by
      ext i hi
      by_cases h0 : i = 0 <;> simp [h0, BitVec.getElem_one]
    simp only [Bool.false_eq_true, if_false]
    rw [hlow]
    ext i hi
    rcases Nat.lt_or_ge i 63 with h0 | h0
    · simp [BitVec.getLsbD_eq_getElem hi]
      omega
    · obtain rfl : i = 63 := by omega
      simp_all [BitVec.msb_eq_getLsbD_last]
  | true =>
    have hlow : (x <<< 1 ^^^ BitVec.allOnes 64) &&& 1#64 = 1#64 := by
      ext i hi
      by_cases h0 : i = 0 <;> simp [h0, BitVec.getElem_one]
    have hneg : -(1#64) = BitVec.allOnes 64 := by decide
    simp only [if_true]
    rw [hlow, hneg]
    apply BitVec.eq_of_getLsbD_eq
    intro i hi
    simp only [BitVec.getLsbD_xor, BitVec.getLsbD_ushiftRight, BitVec.getLsbD_shiftLeft,
      BitVec.getLsbD_allOnes]
    rcases Nat.lt_or_ge i 63 with h0 | h0
    · simp [show 1 + i < 64 by omega, hi]
    · obtain rfl : i = 63 := by omega
      simpa [BitVec.msb_eq_getLsbD_last] using h

theorem unzigzag_zigzag (v : Int64) : unzigzag (zigzag v) = v := by
  have := bitVec_zigzag v.toBitVec
  apply Int64.toBitVec_inj.mp
  simpa [unzigzag, zigzag, Int64.toBitVec_shiftRight, Int64.toBitVec_shiftLeft] using this

theorem readVarint_write (v : Int64) (tail : List UInt8) :
    readVarint (writeVarint v ++ tail) = .ok (v, (writeVarint v).length) := by
  rw [readVarint, writeVarint, readUvarint_write]
  simp [Except.map, unzigzag_zigzag]

/-! ## A successful read saw only what it consumed -/

theorem readUvarintLoop_ok {full : Nat} : ∀ {input : List UInt8} {i : Nat} {shift result v : UInt64}
    {n : Nat}, readUvarintLoop full input i shift result = .ok (v, n) →
    ∃ k, n = i + k ∧ 0 < k ∧ k ≤ input.length ∧ ∀ (full' : Nat) (tail : List UInt8),
      readUvarintLoop full' (input.take k ++ tail) i shift result = .ok (v, n) := by
  intro input
  induction input with
  | nil => intro i shift result v n h; simp [readUvarintLoop] at h
  | cons byte rest ih =>
    intro i shift result v n h
    simp only [readUvarintLoop] at h
    split at h
    · cases h
    · split at h
      · cases h
      · rename_i hi hover
        split at h
        · rename_i hlast
          cases h
          refine ⟨1, rfl, by omega, by simp, fun full' tail => ?_⟩
          simp only [List.take_succ_cons, List.take_zero, List.cons_append, List.nil_append,
            readUvarintLoop, if_neg hi, if_neg hover, if_pos hlast]
        · rename_i hlast
          obtain ⟨k, hn, hpos, hle, hlocal⟩ := ih h
          refine ⟨k + 1, by omega, by omega, by simpa using hle, fun full' tail => ?_⟩
          simp only [List.take_succ_cons, List.cons_append, readUvarintLoop, if_neg hi,
            if_neg hover, if_neg hlast]
          exact hlocal full' tail

theorem readUvarint_ok {x : List UInt8} {v : UInt64} {n : Nat} (h : readUvarint x = .ok (v, n)) :
    0 < n ∧ n ≤ x.length ∧ ∀ z, readUvarint (x.take n ++ z) = .ok (v, n) := by
  obtain ⟨k, hn, hpos, hle, hlocal⟩ := readUvarintLoop_ok h
  obtain rfl : n = k := by omega
  exact ⟨hpos, hle, fun z => hlocal _ z⟩

theorem readVarint_ok {x : List UInt8} {v : Int64} {n : Nat} (h : readVarint x = .ok (v, n)) :
    0 < n ∧ n ≤ x.length ∧ ∀ z, readVarint (x.take n ++ z) = .ok (v, n) := by
  rw [readVarint] at h
  cases hu : readUvarint x with
  | error e => simp [hu, Except.map] at h
  | ok p =>
    obtain ⟨u, k⟩ := p
    simp only [hu, Except.map, Except.ok.injEq, Prod.mk.injEq] at h
    obtain ⟨rfl, rfl⟩ := h
    obtain ⟨hpos, hle, hlocal⟩ := readUvarint_ok hu
    exact ⟨hpos, hle, fun z => by rw [readVarint, hlocal z]; rfl⟩

/-! ## A failed read failed on what it saw, or ran out of bytes -/

theorem readUvarintLoop_error {full : Nat} : ∀ {input : List UInt8} {i : Nat} {shift result : UInt64}
    {e : YsonError}, readUvarintLoop full input i shift result = .error e →
    e.isEof = true ∨ ∀ (full' : Nat) (tail : List UInt8),
      readUvarintLoop full' (input ++ tail) i shift result = .error e := by
  intro input
  induction input with
  | nil =>
    intro i shift result e h
    simp only [readUvarintLoop, Except.error.injEq] at h
    exact Or.inl (h ▸ rfl)
  | cons byte rest ih =>
    intro i shift result e h
    simp only [readUvarintLoop] at h
    split at h
    · rename_i hi
      exact Or.inr fun full' tail => by simpa [readUvarintLoop, hi] using h
    · rename_i hi
      split at h
      · rename_i hover
        exact Or.inr fun full' tail => by
          simpa only [List.cons_append, readUvarintLoop, if_neg hi, if_pos hover] using h
      · rename_i hover
        split at h
        · cases h
        · rename_i hlast
          rcases ih h with heof | hlocal
          · exact Or.inl heof
          · exact Or.inr fun full' tail => by
              simpa only [List.cons_append, readUvarintLoop, if_neg hi, if_neg hover,
                if_neg hlast] using hlocal full' tail

theorem readUvarint_error {x : List UInt8} {e : YsonError} (h : readUvarint x = .error e) :
    e.isEof = true ∨ ∀ z, readUvarint (x ++ z) = .error e :=
  (readUvarintLoop_error h).imp id fun hlocal z => hlocal _ z

theorem readVarint_error {x : List UInt8} {e : YsonError} (h : readVarint x = .error e) :
    e.isEof = true ∨ ∀ z, readVarint (x ++ z) = .error e := by
  rw [readVarint] at h
  cases hu : readUvarint x with
  | ok p => simp [hu, Except.map] at h
  | error e' =>
    simp only [hu, Except.map, Except.error.injEq] at h
    subst h
    exact (readUvarint_error hu).imp id fun hlocal z => by rw [readVarint, hlocal z]; rfl

end Ytsaurus.Yson
