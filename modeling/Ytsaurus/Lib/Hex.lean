import Mathlib.Algebra.Group.Nat.Defs
import Mathlib.Data.List.Induction
import Ytsaurus.Lib.IpAddr

/-!
# `Lib/Hex.lean` — numbers in hexadecimal

`value` is the number that hexadecimal digits spell, `Nat.toDigits 16` spells one, and
`fromStrRadix` is the parser of the standard library for unsigned types: digits, or digits
behind a plus sign, of a number below a bound. `fromStrRadix_iff` says which texts it takes.
-/

set_option autoImplicit false

namespace Hex

open IpAddr (hexDigit)

/-- One digit or more, and nothing else. -/
def IsDigits (text : List Char) : Prop := text ≠ [] ∧ ∀ c ∈ text, (hexDigit c).isSome

instance (text : List Char) : Decidable (IsDigits text) :=
  inferInstanceAs (Decidable (_ ∧ _))

theorem not_isDigits_of_mem {text : List Char} {c : Char} (hmem : c ∈ text)
    (hc : hexDigit c = none) : ¬ IsDigits text := by
  intro h
  have hsome := h.2 c hmem
  rw [hc] at hsome
  cases hsome

/-- The number the digits spell. -/
def value (text : List Char) : Nat :=
  text.foldl (fun value c => 16 * value + (hexDigit c).getD 0) 0

/-- The digits of a `from_str_radix`, on top of a number read so far. -/
def accumulate (bound : Nat) : List Char → Nat → Option Nat
  | [], value => some value
  | c :: text, value =>
    match hexDigit c with
    | none => none
    | some d => if 16 * value + d < bound then accumulate bound text (16 * value + d) else none

/-- `from_str_radix(_, 16)` of an unsigned type. -/
def fromStrRadix (bound : Nat) : List Char → Option Nat
  | [] => none
  | ['+'] => none
  | ['-'] => none
  | '+' :: digits => accumulate bound digits 0
  | digits => accumulate bound digits 0

/-- `{:0width$x}`: at least that many digits, in lower case. -/
def padded (width n : Nat) : List Char :=
  List.replicate (width - (Nat.toDigits 16 n).length) '0' ++ Nat.toDigits 16 n

/-! ## Digits -/

/-- What a digit is: its value, and that it is none of the marks around it. -/
theorem hexDigit_spec {c : Char} {d : Nat} (h : hexDigit c = some d) :
    d < 16 ∧ c.utf8Size = 1 ∧ c ≠ '-' ∧ c ≠ '+' := by
  have hmarks : c ≠ '-' ∧ c ≠ '+' := by
    constructor
    · rintro rfl
      cases h
    · rintro rfl
      cases h
  unfold hexDigit at h
  rw [Char.utf8Size_eq_one_iff]
  by_cases hdigit : c.isDigit = true
  · rw [if_pos hdigit] at h
    cases h
    simp only [Char.isDigit, Bool.and_eq_true, decide_eq_true_eq, ge_iff_le,
      UInt32.le_iff_toNat_le] at hdigit
    have hlow : (0x30 : Nat) ≤ c.val.toNat := hdigit.1
    have hhigh : c.val.toNat ≤ 0x39 := hdigit.2
    refine ⟨?_, UInt32.le_iff_toNat_le.mpr ?_, hmarks⟩
    · show c.val.toNat - 0x30 < 16
      omega
    · show c.val.toNat ≤ 127
      omega
  rw [if_neg hdigit] at h
  by_cases hlower : 'a' ≤ c ∧ c ≤ 'f'
  · rw [if_pos hlower] at h
    cases h
    have hlow : (0x61 : Nat) ≤ c.val.toNat := UInt32.le_iff_toNat_le.mp hlower.1
    have hhigh : c.val.toNat ≤ 0x66 := UInt32.le_iff_toNat_le.mp hlower.2
    refine ⟨?_, UInt32.le_iff_toNat_le.mpr ?_, hmarks⟩
    · show c.val.toNat - 0x61 + 10 < 16
      omega
    · show c.val.toNat ≤ 127
      omega
  rw [if_neg hlower] at h
  by_cases hupper : 'A' ≤ c ∧ c ≤ 'F'
  · rw [if_pos hupper] at h
    cases h
    have hlow : (0x41 : Nat) ≤ c.val.toNat := UInt32.le_iff_toNat_le.mp hupper.1
    have hhigh : c.val.toNat ≤ 0x46 := UInt32.le_iff_toNat_le.mp hupper.2
    refine ⟨?_, UInt32.le_iff_toNat_le.mpr ?_, hmarks⟩
    · show c.val.toNat - 0x41 + 10 < 16
      omega
    · show c.val.toNat ≤ 127
      omega
  rw [if_neg hupper] at h
  cases h

theorem hexDigit_digitChar {d : Nat} (h : d < 16) : hexDigit (Nat.digitChar d) = some d := by
  have hall : ∀ d : Fin 16, hexDigit (Nat.digitChar d.val) = some d.val := by decide
  exact hall ⟨d, h⟩

theorem IsDigits.not_mem {text : List Char} (h : IsDigits text) : '-' ∉ text ∧ '+' ∉ text := by
  constructor
  · intro hmem
    exact absurd (h.2 _ hmem) (by decide)
  · intro hmem
    exact absurd (h.2 _ hmem) (by decide)

/-! ## Values -/

theorem value_append (text : List Char) (c : Char) :
    value (text ++ [c]) = 16 * value text + (hexDigit c).getD 0 := by
  unfold value
  rw [List.foldl_append, List.foldl_cons, List.foldl_nil]

theorem foldl_value (text : List Char) (v : Nat) :
    text.foldl (fun value c => 16 * value + (hexDigit c).getD 0) v =
      v * 16 ^ text.length + value text := by
  induction text generalizing v with
  | nil => simp [value]
  | cons c text ih =>
    rw [List.foldl_cons, ih]
    conv => rhs; rw [value, List.foldl_cons, ih]
    rw [List.length_cons, Nat.pow_succ, Nat.mul_zero, Nat.zero_add, Nat.add_mul, Nat.mul_comm 16 v,
      Nat.mul_assoc, Nat.mul_comm 16 (16 ^ text.length), Nat.add_assoc]

theorem value_cons (c : Char) (text : List Char) :
    value (c :: text) = (hexDigit c).getD 0 * 16 ^ text.length + value text := by
  have hfold := foldl_value text ((hexDigit c).getD 0)
  rw [value, List.foldl_cons, Nat.mul_zero, Nat.zero_add]
  exact hfold

theorem value_lt {text : List Char} (h : ∀ c ∈ text, (hexDigit c).isSome) :
    value text < 16 ^ text.length := by
  induction text with
  | nil => exact Nat.one_pos
  | cons c text ih =>
    have hrest := ih fun b hb => h b (List.mem_cons_of_mem c hb)
    obtain ⟨d, hd⟩ := Option.isSome_iff_exists.mp (h c List.mem_cons_self)
    have hlt : d < 16 := (hexDigit_spec hd).1
    have hle : d * 16 ^ text.length ≤ 15 * 16 ^ text.length :=
      Nat.mul_le_mul_right _ (Nat.le_of_lt_succ hlt)
    rw [value_cons, hd, Option.getD_some, List.length_cons, Nat.pow_succ]
    omega

theorem toDigits_isDigits (n : Nat) : IsDigits (Nat.toDigits 16 n) := by
  refine ⟨Nat.toDigits_ne_nil, ?_⟩
  induction n using Nat.strongRecOn with
  | ind n ih =>
    rw [Nat.toDigits_eq_if (by decide)]
    by_cases hn : n < 16
    · rw [if_pos hn]
      intro c hc
      rw [List.mem_singleton] at hc
      rw [hc, hexDigit_digitChar hn]
      rfl
    · rw [if_neg hn]
      intro c hc
      rcases List.mem_append.mp hc with hfront | hlast
      · exact ih (n / 16) (by omega) c hfront
      · rw [List.mem_singleton] at hlast
        rw [hlast, hexDigit_digitChar (Nat.mod_lt n (by decide))]
        rfl

/-- **Printed digits spell the number.** -/
theorem value_toDigits (n : Nat) : value (Nat.toDigits 16 n) = n := by
  induction n using Nat.strongRecOn with
  | ind n ih =>
    rw [Nat.toDigits_eq_if (by decide)]
    by_cases hn : n < 16
    · rw [if_pos hn, value, List.foldl_cons, List.foldl_nil, hexDigit_digitChar hn]
      exact Nat.zero_add n
    · rw [if_neg hn, value_append, ih (n / 16) (by omega),
        hexDigit_digitChar (Nat.mod_lt n (by decide))]
      exact Nat.div_add_mod n 16

/-! ## A fixed width -/

theorem padded_digits (width n : Nat) : ∀ c ∈ padded width n, (hexDigit c).isSome := by
  intro c hc
  unfold padded at hc
  rcases List.mem_append.mp hc with hc | hc
  · rw [List.eq_of_mem_replicate hc]
    rfl
  · exact (toDigits_isDigits n).2 c hc

theorem value_zeros (count : Nat) (text : List Char) :
    value (List.replicate count '0' ++ text) = value text := by
  induction count with
  | zero => rfl
  | succ count ih =>
    rw [List.replicate_succ, List.cons_append, value_cons, ih]
    show 0 * _ + _ = _
    rw [Nat.zero_mul, Nat.zero_add]

@[simp] theorem value_padded (width n : Nat) : value (padded width n) = n :=
  (value_zeros _ _).trans (value_toDigits n)

/-- What is digits in lower case stays so in lower case. -/
theorem lower_cases (n : Fin 128) : (hexDigit (Char.ofNat n)).isSome →
    (hexDigit (Char.ofNat n).toLower).isSome ∧
      (Char.ofNat n).toLower.toLower = (Char.ofNat n).toLower ∧
      Nat.digitChar ((hexDigit (Char.ofNat n)).getD 0) = (Char.ofNat n).toLower := by
  revert n
  decide

theorem digit_lt {c : Char} (h : (hexDigit c).isSome) : c.toNat < 128 := by
  obtain ⟨d, hd⟩ := Option.isSome_iff_exists.mp h
  have hsize := (hexDigit_spec hd).2.1
  exact Nat.lt_succ_of_le (UInt32.le_iff_toNat_le.mp (Char.utf8Size_eq_one_iff.mp hsize))

theorem lower_digit {c : Char} (h : (hexDigit c).isSome) :
    (hexDigit c.toLower).isSome ∧ c.toLower.toLower = c.toLower ∧
      Nat.digitChar ((hexDigit c).getD 0) = c.toLower := by
  have hcases := lower_cases ⟨c.toNat, digit_lt h⟩
  rw [Char.ofNat_toNat] at hcases
  exact hcases h

theorem toLower_digit {c : Char} (h : (hexDigit c).isSome) :
    (hexDigit c.toLower).isSome ∧ c.toLower.toLower = c.toLower :=
  ⟨(lower_digit h).1, (lower_digit h).2.1⟩

theorem toDigits_length_le {width n : Nat} (hwidth : 0 < width) (h : n < 16 ^ width) :
    (Nat.toDigits 16 n).length ≤ width := by
  induction width generalizing n with
  | zero => cases hwidth
  | succ width ih =>
    rw [Nat.toDigits_eq_if (by decide)]
    by_cases hn : n < 16
    · rw [if_pos hn]
      exact Nat.succ_le_succ (Nat.zero_le _)
    · rw [if_neg hn, List.length_append]
      have hpositive : 0 < width := by
        apply Nat.pos_of_ne_zero
        intro hzero
        rw [hzero] at h
        exact hn h
      have hdiv : n / 16 < 16 ^ width := by
        rw [Nat.pow_succ] at h
        exact Nat.div_lt_of_lt_mul (by omega)
      exact Nat.succ_le_succ (ih hpositive hdiv)

theorem padded_length {width n : Nat} (hwidth : 0 < width) (h : n < 16 ^ width) :
    (padded width n).length = width := by
  unfold padded
  rw [List.length_append, List.length_replicate]
  have hle := toDigits_length_le hwidth h
  omega

/-- One more digit. -/
theorem padded_succ {width v d : Nat} (hwidth : 0 < width) (hd : d < 16) :
    padded (width + 1) (16 * v + d) = padded width v ++ [Nat.digitChar d] := by
  unfold padded
  cases v with
  | zero =>
    have hdigits : Nat.toDigits 16 (16 * 0 + d) = [Nat.digitChar d] := by
      rw [Nat.mul_zero, Nat.zero_add, Nat.toDigits_eq_if (by decide), if_pos hd]
    have hzero : Nat.toDigits 16 0 = ['0'] := rfl
    rw [hdigits, hzero]
    obtain ⟨w, rfl⟩ := Nat.exists_eq_succ_of_ne_zero (Nat.ne_of_gt hwidth)
    show List.replicate (w + 1) '0' ++ _ = List.replicate w '0' ++ ['0'] ++ _
    rw [List.replicate_succ']
  | succ v =>
    have hdigits : Nat.toDigits 16 (16 * (v + 1) + d) =
        Nat.toDigits 16 (v + 1) ++ [Nat.digitChar d] := by
      have hdiv : (16 * (v + 1) + d) / 16 = v + 1 := by omega
      have hmod : (16 * (v + 1) + d) % 16 = d := by omega
      rw [Nat.toDigits_eq_if (by decide), if_neg (by omega), hdiv, hmod]
    rw [hdigits, List.length_append, List.length_singleton, Nat.add_sub_add_right,
      List.append_assoc]

/-- **Digits of a width are what their value is printed as**, in lower case. -/
theorem padded_value {text : List Char} (hne : text ≠ [])
    (h : ∀ c ∈ text, (hexDigit c).isSome) :
    padded text.length (value text) = text.map Char.toLower := by
  induction text using List.reverseRecOn with
  | nil => exact absurd rfl hne
  | append_singleton text c ih =>
    have hc := lower_digit (h c (List.mem_append_right _ List.mem_cons_self))
    obtain ⟨d, hd⟩ := Option.isSome_iff_exists.mp (h c (List.mem_append_right _ List.mem_cons_self))
    have hlt : d < 16 := (hexDigit_spec hd).1
    rw [hd] at hc
    rw [List.length_append, List.length_singleton, value_append, hd, Option.getD_some,
      List.map_append, List.map_singleton, ← hc.2.2, Option.getD_some]
    cases text with
    | nil =>
      show padded 1 (16 * 0 + d) = _
      unfold padded
      rw [Nat.mul_zero, Nat.zero_add, Nat.toDigits_eq_if (by decide), if_pos hlt]
      rfl
    | cons b text =>
      have hfront := ih (List.cons_ne_nil _ _) fun c hc => h c (List.mem_append_left _ hc)
      have hlength : 0 < (b :: text).length := Nat.succ_pos _
      rw [padded_succ hlength hlt, hfront]

theorem padded_lower {width n : Nat} {c : Char} (hc : c ∈ padded width n) : c.toLower = c := by
  have hdigit (d : Fin 16) : (Nat.digitChar d).toLower = Nat.digitChar d := by
    revert d
    decide
  have hall : ∀ n, ∀ c ∈ Nat.toDigits 16 n, c.toLower = c := by
    intro n
    induction n using Nat.strongRecOn with
    | ind n ih =>
      rw [Nat.toDigits_eq_if (by decide)]
      by_cases hn : n < 16
      · rw [if_pos hn]
        intro c hc
        rw [List.mem_singleton.mp hc]
        exact hdigit ⟨n, hn⟩
      · rw [if_neg hn]
        intro c hc
        rcases List.mem_append.mp hc with hc | hc
        · exact ih (n / 16) (by omega) c hc
        · rw [List.mem_singleton.mp hc]
          exact hdigit ⟨n % 16, Nat.mod_lt n (by decide)⟩
  unfold padded at hc
  rcases List.mem_append.mp hc with hc | hc
  · rw [List.eq_of_mem_replicate hc]
    rfl
  · exact hall n c hc

/-- Digits spell zero when each of them is. -/
theorem value_eq_zero_iff {text : List Char} (h : ∀ c ∈ text, (hexDigit c).isSome) :
    value text = 0 ↔ ∀ c ∈ text, c = '0' := by
  have hzero {c : Char} (hc : (hexDigit c).isSome) : (hexDigit c).getD 0 = 0 ↔ c = '0' := by
    constructor
    · intro hd
      have hlower := (lower_digit hc).2.2
      rw [hd] at hlower
      -- no other character is `0` in lower case
      obtain ⟨d, hsome⟩ := Option.isSome_iff_exists.mp hc
      rw [hsome, Option.getD_some] at hd
      rw [hd] at hsome
      unfold hexDigit at hsome
      split at hsome
      · rename_i hdigit
        rw [Option.some.injEq] at hsome
        have hrange := Char.isDigit_iff_toNat.mp hdigit
        have hcode : c.toNat = '0'.toNat := by
          have hlow : 48 ≤ c.toNat := hrange.1
          show c.toNat = 48
          omega
        exact Char.toNat_inj.mp hcode
      · split at hsome
        · simp at hsome
        · split at hsome
          · simp at hsome
          · cases hsome
    · intro hc
      rw [hc]
      rfl
  induction text with
  | nil => simp [value]
  | cons c text ih =>
    have hrest : value text = 0 ↔ ∀ c ∈ text, c = '0' :=
      ih fun b hb => h b (List.mem_cons_of_mem c hb)
    have hpow : 0 < 16 ^ text.length := Nat.pow_pos (by decide)
    rw [value_cons, Nat.add_eq_zero_iff, Nat.mul_eq_zero, or_iff_left (Nat.ne_of_gt hpow),
      hzero (h c List.mem_cons_self), List.forall_mem_cons, hrest]

/-- Printed digits do not begin with a zero. -/
theorem head_toDigits {n : Nat} (hn : 0 < n) :
    ∃ c rest, Nat.toDigits 16 n = c :: rest ∧ c ≠ '0' := by
  induction n using Nat.strongRecOn with
  | ind n ih =>
    rw [Nat.toDigits_eq_if (by decide)]
    by_cases hlt : n < 16
    · rw [if_pos hlt]
      refine ⟨_, _, rfl, ?_⟩
      have hdigit (d : Fin 16) : 0 < d.val → Nat.digitChar d ≠ '0' := by
        revert d
        decide
      exact hdigit ⟨n, hlt⟩ hn
    · rw [if_neg hlt]
      obtain ⟨c, rest, hdigits, hc⟩ := ih (n / 16) (by omega) (by omega)
      rw [hdigits]
      exact ⟨c, _, rfl, hc⟩

theorem dropWhile_replicate {p : Char → Bool} {c : Char} (hc : p c = true) (count : Nat)
    (text : List Char) : (List.replicate count c ++ text).dropWhile p = text.dropWhile p := by
  induction count with
  | zero => rfl
  | succ count ih => rw [List.replicate_succ, List.cons_append, List.dropWhile_cons_of_pos hc, ih]

/-- **Without the leading zeros of a fixed width.** -/
theorem dropWhile_padded (width n : Nat) :
    (padded width n).dropWhile (· == '0') = if n = 0 then [] else Nat.toDigits 16 n := by
  unfold padded
  rw [dropWhile_replicate rfl]
  by_cases hn : n = 0
  · rw [if_pos hn, hn]
    rfl
  · rw [if_neg hn]
    obtain ⟨c, rest, hdigits, hc⟩ := head_toDigits (Nat.pos_of_ne_zero hn)
    rw [hdigits]
    exact List.dropWhile_cons_of_neg (by simpa using hc)

/-! ## Parsing -/

theorem accumulate_iff {bound : Nat} {text : List Char} {v w : Nat} (hv : v < bound) :
    accumulate bound text v = some w ↔
      (∀ c ∈ text, (hexDigit c).isSome) ∧ w = v * 16 ^ text.length + value text ∧ w < bound := by
  induction text generalizing v with
  | nil =>
    rw [accumulate, Option.some.injEq]
    constructor
    · rintro rfl
      exact ⟨fun c hc => absurd hc List.not_mem_nil, by simp [value], hv⟩
    · rintro ⟨_, rfl, _⟩
      simp [value]
  | cons c text ih =>
    rw [accumulate]
    cases hd : hexDigit c with
    | none =>
      constructor
      · intro h
        cases h
      · rintro ⟨hall, _⟩
        have hsome := hall c List.mem_cons_self
        rw [hd] at hsome
        cases hsome
    | some d =>
      have hsum : v * 16 ^ (c :: text).length + value (c :: text)
          = (16 * v + d) * 16 ^ text.length + value text := by
        rw [value_cons, hd, Option.getD_some, List.length_cons, Nat.pow_succ, Nat.add_mul,
          Nat.mul_comm 16 v, Nat.mul_assoc, Nat.mul_comm 16, Nat.add_assoc]
      have hall : (∀ b ∈ c :: text, (hexDigit b).isSome) ↔ ∀ b ∈ text, (hexDigit b).isSome := by
        rw [List.forall_mem_cons, hd]
        exact ⟨fun h => h.2, fun h => ⟨rfl, h⟩⟩
      rw [hsum, hall]
      dsimp only
      by_cases hlt : 16 * v + d < bound
      · rw [if_pos hlt]
        exact ih hlt
      · rw [if_neg hlt]
        constructor
        · intro h
          cases h
        · rintro ⟨_, rfl, hbound⟩
          have hle := Nat.le_mul_of_pos_right (16 * v + d) (Nat.pow_pos (n := text.length)
            (show 0 < 16 by decide))
          omega

/-- A text without a plus sign in front of it. -/
def withoutPlus : List Char → List Char
  | '+' :: text => text
  | text => text

/-- Only the sign is taken off. -/
theorem withoutPlus_cases (text : List Char) :
    text = '+' :: withoutPlus text ∨ text = withoutPlus text := by
  unfold withoutPlus
  split
  · exact Or.inl rfl
  · exact Or.inr rfl

theorem withoutPlus_of_head {text : List Char} (h : text.head? ≠ some '+') :
    withoutPlus text = text := by
  rcases withoutPlus_cases text with hplus | hsame
  · rw [hplus] at h
    exact absurd rfl h
  · exact hsame.symm

/-- **What the parser takes**: digits behind at most one plus sign, of a number below the
bound. -/
theorem fromStrRadix_iff {bound : Nat} {text : List Char} {w : Nat} (hbound : 0 < bound) :
    fromStrRadix bound text = some w ↔
      IsDigits (withoutPlus text) ∧ w = value (withoutPlus text) ∧ w < bound := by
  have hdigits : ∀ digits : List Char, digits ≠ [] →
      (accumulate bound digits 0 = some w ↔ IsDigits digits ∧ w = value digits ∧ w < bound) := by
    intro digits hne
    rw [accumulate_iff hbound, Nat.zero_mul, Nat.zero_add, IsDigits, and_assoc]
    exact ⟨fun h => ⟨hne, h⟩, fun h => h.2⟩
  unfold fromStrRadix
  split
  · simp [withoutPlus, IsDigits]
  · simp [withoutPlus, IsDigits]
  · have hminus : ¬ IsDigits ['-'] := not_isDigits_of_mem List.mem_cons_self rfl
    simp [withoutPlus, hminus]
  · rename_i digits hne
    rw [withoutPlus]
    exact hdigits digits fun hnil => hne (by rw [hnil])
  · rename_i hne _ _ hnot
    have hhead : text.head? ≠ some '+' := by
      intro hhead
      obtain ⟨digits, rfl⟩ := List.head?_eq_some_iff.mp hhead
      exact hnot digits rfl
    rw [withoutPlus_of_head hhead]
    exact hdigits text hne

end Hex
