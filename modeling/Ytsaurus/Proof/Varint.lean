import Ytsaurus.Yson.Varint

/-!
# `Proof/Varint.lean` — which byte strings are varints

A varint is a run of seven-bit groups, the lowest first, that ends at the first byte without
the continuation bit. `IsVarint input v n` says that the first `n` bytes of the input are such a
run and that its groups add up to `v`, as numbers; the reader accepts exactly that, as long as
the run has at most ten bytes and the sum fits a word (`readUvarint_iff`). The loop is compared
with it group by group: `result` is the sum so far, and the rest of the input counts from the
place of the next group on.

The reader works on machine words. It shifts a group to its place and or-s it in, and it has to
notice before the tenth group that the shift would push bits out: the tenth may hold one bit only.
In the relation there are no words, so overflow is the plain fact that the sum does not fit, and
encodings that are longer than they need be are accepted as the code accepts them.

For signed numbers there is the zigzag on top, a bijection of the words. What was written reads
back, from any input that begins with it, and a proper prefix of it ends too early.
-/

set_option autoImplicit false

namespace Ytsaurus.Yson

/-- The last byte of a varint has no continuation bit. -/
def isLastGroup (b : UInt8) : Bool := decide (b.toNat < 128)

/-- The exact sum of the seven-bit groups, the lowest first. -/
def groupSum : List UInt8 → Nat
  | [] => 0
  | b :: bytes => b.toNat % 128 + 128 * groupSum bytes

/-- The first `n` bytes are the groups of `v`, up to the byte that ends them. -/
def IsVarint (input : List UInt8) (v n : Nat) : Prop :=
  ∃ k, input.findIdx? isLastGroup = some k ∧ n = k + 1 ∧ v = groupSum (input.take n)

namespace IsVarint

theorem nil {v n : Nat} : ¬ IsVarint [] v n := by
  rintro ⟨k, hfind, _⟩
  cases hfind

theorem last {b : UInt8} (hb : b.toNat < 128) (rest : List UInt8) {v n : Nat} :
    IsVarint (b :: rest) v n ↔ v = b.toNat ∧ n = 1 := by
  have hfind : (b :: rest).findIdx? isLastGroup = some 0 := by
    simp [List.findIdx?_cons, isLastGroup, hb]
  have hsum : groupSum [b] = b.toNat := by
    rw [groupSum, groupSum, Nat.mul_zero, Nat.add_zero, Nat.mod_eq_of_lt hb]
  constructor
  · rintro ⟨k, hk, rfl, rfl⟩
    rw [hfind] at hk
    cases hk
    exact ⟨hsum, rfl⟩
  · rintro ⟨rfl, rfl⟩
    exact ⟨0, hfind, rfl, hsum.symm⟩

theorem continued {b : UInt8} (hb : ¬ b.toNat < 128) {rest : List UInt8} {v n : Nat} :
    IsVarint (b :: rest) v n ↔
      ∃ v' n', IsVarint rest v' n' ∧ v = b.toNat % 128 + 128 * v' ∧ n = n' + 1 := by
  have hfind : (b :: rest).findIdx? isLastGroup =
      (rest.findIdx? isLastGroup).map (· + 1) := by
    simp [List.findIdx?_cons, isLastGroup, hb]
  constructor
  · rintro ⟨k, hk, rfl, rfl⟩
    rw [hfind, Option.map_eq_some_iff] at hk
    obtain ⟨j, hj, rfl⟩ := hk
    exact ⟨_, j + 1, ⟨j, hj, rfl, rfl⟩, rfl, rfl⟩
  · rintro ⟨_, _, ⟨j, hj, rfl, rfl⟩, rfl, rfl⟩
    exact ⟨j + 1, by rw [hfind, hj]; rfl, rfl, rfl⟩

end IsVarint

/-! ## The loop, group by group -/

/-- The place of the next group, as the word that shifts it. -/
theorem shift_next {shift : UInt64} {i : Nat} (hi : i < 10) (hshift : shift.toNat = 7 * i) :
    (shift + 7).toNat = 7 * (i + 1) := by
  rw [UInt64.toNat_add, hshift]
  show (7 * i + 7) % 2 ^ 64 = _
  omega

/-- The tenth group has one bit. -/
theorem overflow_iff {shift bits : UInt64} {i : Nat} (hi : i < 10) (hshift : shift.toNat = 7 * i)
    (hbits : bits.toNat < 128) :
    shift = 63 ∧ bits > 1 ↔ ¬ bits.toNat * 2 ^ (7 * i) < 2 ^ 64 := by
  have hplace : shift = 63 ↔ i = 9 := by
    rw [← UInt64.toNat_inj, hshift]
    show 7 * i = 63 ↔ i = 9
    omega
  have hmany : bits > 1 ↔ 1 < bits.toNat := UInt64.lt_iff_toNat_lt
  rw [hplace, hmany]
  by_cases hlast : i = 9
  · subst hlast
    simp only [true_and]
    omega
  · have hle : 2 ^ (7 * i) ≤ 2 ^ 56 := Nat.pow_le_pow_right (by decide) (by omega)
    have hmul : bits.toNat * 2 ^ (7 * i) ≤ 127 * 2 ^ 56 := Nat.mul_le_mul (by omega) hle
    simp only [hlast, false_and, false_iff]
    omega

/-- **What the loop accepts**: groups whose sum, on top of what has been read, fits a word. -/
theorem readUvarintLoop_iff {full : Nat} {input : List UInt8} {i : Nat} {shift result : UInt64}
    (hi : i ≤ 10) (hshift : shift.toNat = 7 * i) (hresult : result.toNat < 2 ^ (7 * i))
    {v : UInt64} {n : Nat} :
    readUvarintLoop full input i shift result = .ok (v, n) ↔
      ∃ u m, IsVarint input u m ∧ n = i + m ∧ n ≤ 10 ∧ v.toNat = result.toNat + u * 2 ^ (7 * i) := by
  induction input generalizing i shift result with
  | nil =>
    constructor
    · intro h
      cases h
    · rintro ⟨u, m, h, _⟩
      exact absurd h IsVarint.nil
  | cons byte rest ih =>
    rw [readUvarintLoop]
    by_cases hend : i ≥ 10
    · rw [if_pos hend]
      constructor
      · intro h
        cases h
      · rintro ⟨u, m, ⟨k, _, rfl, _⟩, rfl, hn, _⟩
        omega
    rw [if_neg hend]
    have hlt : i < 10 := Nat.not_le.mp hend
    have hbits : (byte &&& 0x7F).toUInt64.toNat = byte.toNat % 128 := payload_toNat byte
    have hsmall : (byte &&& 0x7F).toUInt64.toNat < 128 := by omega
    -- the value has the group in it, whether or not more follow
    have hgroup : ∀ u m, IsVarint (byte :: rest) u m → byte.toNat % 128 ≤ u := by
      intro u m h
      by_cases hlast : byte.toNat < 128
      · obtain ⟨rfl, _⟩ := (IsVarint.last hlast rest).mp h
        exact Nat.mod_le _ _
      · obtain ⟨v', n', _, rfl, _⟩ := (IsVarint.continued hlast).mp h
        exact Nat.le_add_right _ _
    by_cases hover : shift = 63 ∧ (byte &&& 0x7F).toUInt64 > 1
    · rw [if_pos hover]
      have hlarge := (overflow_iff hlt hshift hsmall).mp hover
      rw [hbits] at hlarge
      constructor
      · intro h
        cases h
      · rintro ⟨u, m, h, _, _, hv⟩
        have hle := Nat.mul_le_mul_right (2 ^ (7 * i)) (hgroup u m h)
        have hword := v.toNat_lt
        omega
    · rw [if_neg hover]
      have hfit : byte.toNat % 128 * 2 ^ (7 * i) < 2 ^ 64 := by
        rw [← hbits]
        exact Classical.not_not.mp (mt (overflow_iff hlt hshift hsmall).mpr hover)
      have hor := or_group (byte &&& 0x7F).toUInt64 hshift (by omega) hresult (by rwa [hbits])
      rw [hbits] at hor
      dsimp only
      by_cases hlast : byte.toNat < 128
      · rw [if_pos ((continuation_iff byte).mpr hlast)]
        rw [Nat.mod_eq_of_lt hlast] at hor
        constructor
        · intro h
          cases h
          exact ⟨_, 1, (IsVarint.last hlast rest).mpr ⟨rfl, rfl⟩, rfl, hlt, hor⟩
        · rintro ⟨u, m, h, rfl, _, hv⟩
          obtain ⟨rfl, rfl⟩ := (IsVarint.last hlast rest).mp h
          rw [UInt64.toNat_inj.mp (hor.trans hv.symm)]
      · rw [if_neg (mt (continuation_iff byte).mp hlast)]
        have hpow : 2 ^ (7 * (i + 1)) = 128 * 2 ^ (7 * i) := by
          rw [Nat.mul_succ, Nat.pow_add, Nat.mul_comm]
        have hle : byte.toNat % 128 * 2 ^ (7 * i) ≤ 127 * 2 ^ (7 * i) :=
          Nat.mul_le_mul_right _ (by omega)
        rw [ih (Nat.succ_le_of_lt hlt) (shift_next hlt hshift) (by rw [hor, hpow]; omega), hor, hpow]
        have hsum : ∀ u, byte.toNat % 128 * 2 ^ (7 * i) + u * (128 * 2 ^ (7 * i))
            = (byte.toNat % 128 + 128 * u) * 2 ^ (7 * i) := by
          intro u
          ring
        constructor
        · rintro ⟨u, m, h, rfl, hn, hv⟩
          refine ⟨_, m + 1, (IsVarint.continued hlast).mpr ⟨u, m, h, rfl, rfl⟩, by omega, hn, ?_⟩
          rw [hv, Nat.add_assoc, hsum]
        · rintro ⟨_, _, h, rfl, hn, hv⟩
          obtain ⟨u, m, hrest, rfl, rfl⟩ := (IsVarint.continued hlast).mp h
          refine ⟨u, m, hrest, by omega, hn, ?_⟩
          rw [hv, Nat.add_assoc, hsum]

/-- **Which inputs are read, and as what.** -/
theorem readUvarint_iff (input : List UInt8) (v : UInt64) (n : Nat) :
    readUvarint input = .ok (v, n) ↔ IsVarint input v.toNat n ∧ n ≤ 10 := by
  rw [readUvarint, readUvarintLoop_iff (i := 0) (by decide) rfl (by decide)]
  constructor
  · rintro ⟨u, m, h, rfl, hn, hv⟩
    rw [show v.toNat = u by simpa using hv, Nat.zero_add]
    exact ⟨h, by rwa [Nat.zero_add] at hn⟩
  · rintro ⟨h, hn⟩
    refine ⟨v.toNat, n, h, (Nat.zero_add n).symm, hn, ?_⟩
    simp

/-! ## Prefixes of what was written -/

theorem readUvarintLoop_eof {full : Nat} {input : List UInt8} {i : Nat} {shift result : UInt64}
    {e : YsonError} (h : readUvarintLoop full input i shift result = .error e)
    (heof : e.isEof = true) : e = .unexpectedEof full := by
  induction input generalizing i shift result with
  | nil =>
    cases h
    rfl
  | cons byte rest ih =>
    rw [readUvarintLoop] at h
    split at h
    · cases h
      cases heof
    dsimp only at h
    split at h
    · cases h
      cases heof
    split at h
    · cases h
    · exact ih h

/-- **A proper prefix of an encoding ends too early**, and nothing else is wrong with it. -/
theorem readUvarint_write_take (v : UInt64) {k : Nat} (hk : k < (writeUvarint v).length) :
    readUvarint ((writeUvarint v).take k) = .error (.unexpectedEof k) := by
  have hlength : ((writeUvarint v).take k).length = k := by
    rw [List.length_take, Nat.min_eq_left (Nat.le_of_lt hk)]
  have hwhole : readUvarint ((writeUvarint v).take k ++ (writeUvarint v).drop k)
      = .ok (v, (writeUvarint v).length) := by
    have hread := readUvarint_write v []
    rw [List.take_append_drop]
    rwa [List.append_nil] at hread
  cases hrun : readUvarint ((writeUvarint v).take k) with
  | ok r =>
    -- what the prefix gives is what the whole encoding gives, with its length
    obtain ⟨u, n⟩ := r
    obtain ⟨_, hn, hlocal⟩ := readUvarint_ok hrun
    have hsame := hlocal (((writeUvarint v).take k).drop n ++ (writeUvarint v).drop k)
    rw [← List.append_assoc, List.take_append_drop, hwhole] at hsame
    cases hsame
    omega
  | error e =>
    rcases readUvarint_error hrun with heof | hlocal
    · rw [readUvarintLoop_eof hrun heof, hlength]
    · rw [hlocal] at hwhole
      cases hwhole

theorem readVarint_write_take (v : Int64) {k : Nat} (hk : k < (writeVarint v).length) :
    readVarint ((writeVarint v).take k) = .error (.unexpectedEof k) := by
  rw [readVarint, writeVarint, readUvarint_write_take (zigzag v) hk]
  rfl

/-! ## Exactness -/

/-- **Varints are exact**: what was written is read back with its length whatever follows; what
is read is a run of at most ten groups and its sum, all such runs whose sum is a word are read;
and an encoding that is cut short has ended too early. -/
theorem varints_exact :
    (∀ v tail, readUvarint (writeUvarint v ++ tail) = .ok (v, (writeUvarint v).length)) ∧
    (∀ v tail, readVarint (writeVarint v ++ tail) = .ok (v, (writeVarint v).length)) ∧
    (∀ input, ((readUvarint input).isOk ↔ ∃ n v, IsVarint input v n ∧ n ≤ 10 ∧ v < 2 ^ 64) ∧
      ∀ v n, readUvarint input = .ok (v, n) ↔ IsVarint input v.toNat n ∧ n ≤ 10) ∧
    (∀ v k, k < (writeUvarint v).length →
      readUvarint ((writeUvarint v).take k) = .error (.unexpectedEof k)) ∧
    ∀ v k, k < (writeVarint v).length →
      readVarint ((writeVarint v).take k) = .error (.unexpectedEof k) := by
  refine ⟨readUvarint_write, readVarint_write, fun input => ⟨?_, readUvarint_iff input⟩,
    fun v k => readUvarint_write_take v, fun v k => readVarint_write_take v⟩
  constructor
  · intro hok
    cases hrun : readUvarint input with
    | error e =>
      rw [hrun] at hok
      cases hok
    | ok r =>
      obtain ⟨h, hn⟩ := (readUvarint_iff input r.1 r.2).mp hrun
      exact ⟨r.2, r.1.toNat, h, hn, r.1.toNat_lt⟩
  · rintro ⟨n, v, h, hn, hv⟩
    have hword : (UInt64.ofNat v).toNat = v := UInt64.toNat_ofNat_of_lt hv
    have hread := (readUvarint_iff input (UInt64.ofNat v) n).mpr ⟨by rwa [hword], hn⟩
    rw [hread]
    rfl

end Ytsaurus.Yson
