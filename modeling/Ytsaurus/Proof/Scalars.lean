import Ytsaurus.Proof.Tokens
import Ytsaurus.Yson.Ser

/-!
# `Proof/Scalars.lean` — what the serializer writes, the lexer reads

`Writes isBinary ts bs`: wherever the bytes `bs` stand, followed by a delimiter or by the
end of the input, the lexer reads them as exactly the tokens `ts`. Each scalar the
serializer writes is one token in this sense (`writes_*`); punctuation needs no delimiter
behind it (`Writes.punctuation`), and runs are put together with `Writes.append`.

The condition about the delimiter is there for text: a number or a bare word goes on as long as
the next byte belongs to it. The serializer writes a punctuation byte behind every scalar, so it
is met wherever runs are put together, and at the end of the input there is nothing to meet.
The statement speaks of every place a run may stand at, and of every budget that reaches; this is
what makes `append` go through without knowing what is in front.

Most of the module is about strings in text. The serializer escapes by the byte and the lexer
unescapes in two passes, one for the closing quote and one for the escapes, so an escaped string
is followed byte by byte through both (`Escapes`, `unescapeLoop_escaped`). Bytes of every value
survive, UTF-8 or not.
Doubles are the exception: their text is a parameter of the model, of which only the round trip is
assumed (`FloatText.Inverse`), and a NaN comes back as the NaN the lexer knows.
-/

set_option autoImplicit false

namespace Ytsaurus.Yson

/-! ## Delimiters -/

/-- The bytes the serializer puts behind a scalar: `;`, `=`, `]`, `}` and `>`. -/
def isDelimiter (b : UInt8) : Bool :=
  b == 0x3B || b == 0x3D || b == 0x5D || b == 0x7D || b == 0x3E

/-- The input ends here, or a delimiter stands here. -/
def Delimited : List UInt8 → Prop
  | [] => True
  | b :: _ => isDelimiter b

theorem Delimited.append {x y : List UInt8} (hx : Delimited x) (hy : Delimited y) :
    Delimited (x ++ y) := by
  cases x with
  | nil => exact hy
  | cons b x => exact hx

theorem isDelimiter_cases {b : UInt8} (h : isDelimiter b) :
    b = 0x3B ∨ b = 0x3D ∨ b = 0x5D ∨ b = 0x7D ∨ b = 0x3E := by
  simpa [isDelimiter, or_assoc] using h

theorem Delimited.numberLen {x : List UInt8} (h : Delimited x) :
    numberLen x = (0, false, false) := by
  cases x with
  | nil => rfl
  | cons b x =>
    rcases isDelimiter_cases h with rfl | rfl | rfl | rfl | rfl <;>
      simp [Yson.numberLen, isDigit, isFloatMark]

theorem Delimited.takeWhile {x : List UInt8} (h : Delimited x) :
    x.takeWhile isUnquotedChar = [] := by
  cases x with
  | nil => rfl
  | cons b x =>
    rcases isDelimiter_cases h with rfl | rfl | rfl | rfl | rfl <;>
      simp [isUnquotedChar, isAlpha, isDigit]

/-- A property of bytes, checked on all of them. -/
theorem forall_byte {p : UInt8 → Bool} (h : ∀ n : Fin 256, p (UInt8.ofNat n.val)) (b : UInt8) :
    p b := by
  simpa using h ⟨b.toNat, b.toNat_lt⟩

/-! ## Digits -/

theorem digit_toNat {n : Nat} (h : n < 10) : (UInt8.ofNat (0x30 + n)).toNat = 0x30 + n := by
  rw [UInt8.toNat_ofNat']
  omega

theorem isDigit_iff {b : UInt8} : isDigit b ↔ 0x30 ≤ b.toNat ∧ b.toNat ≤ 0x39 := by
  simp [isDigit, UInt8.le_iff_toNat_le]

theorem isDigit_digit {n : Nat} (h : n < 10) : isDigit (UInt8.ofNat (0x30 + n)) := by
  rw [isDigit_iff, digit_toNat h]
  omega

theorem decimalLoop_digits (fuel n : Nat) : ∀ b ∈ decimalLoop fuel n, isDigit b := by
  fun_induction decimalLoop fuel n with
  | case1 => simp
  | case2 fuel n h => simpa using isDigit_digit h
  | case3 fuel n h ih =>
    intro b hb
    rcases List.mem_append.mp hb with hb | hb
    · exact ih b hb
    · rw [List.mem_singleton.mp hb]
      exact isDigit_digit (Nat.mod_lt _ (by decide))

theorem decimalLoop_ne_nil {fuel : Nat} (n : Nat) (h : 0 < fuel) : decimalLoop fuel n ≠ [] := by
  cases fuel with
  | zero => omega
  | succ fuel => rw [decimalLoop]; split <;> simp

theorem digitsValue_append (x y : List UInt8) (acc : Nat) :
    digitsValue acc (x ++ y) = (digitsValue acc x).bind fun acc => digitsValue acc y := by
  induction x generalizing acc with
  | nil => rfl
  | cons b x ih =>
    rw [List.cons_append, digitsValue, digitsValue]
    split
    · exact ih _
    · rfl

theorem digitsValue_digit {n : Nat} (h : n < 10) (acc : Nat) :
    digitsValue acc [UInt8.ofNat (0x30 + n)] = some (acc * 10 + n) := by
  rw [digitsValue, if_pos (isDigit_digit h), digitsValue, digit_toNat h, Nat.add_sub_cancel_left]

theorem digitsValue_decimalLoop {fuel n : Nat} (h : n < 10 ^ fuel) (hf : 0 < fuel) :
    digitsValue 0 (decimalLoop fuel n) = some n := by
  fun_induction decimalLoop fuel n with
  | case1 => omega
  | case2 fuel n hn => rw [digitsValue_digit hn, Nat.zero_mul, Nat.zero_add]
  | case3 fuel n hn ih =>
    have hfuel : 0 < fuel := by
      rcases Nat.eq_zero_or_pos fuel with rfl | hpos
      · exact absurd h (by omega)
      · exact hpos
    have hdiv : n / 10 < 10 ^ fuel := by
      rw [Nat.pow_succ] at h
      omega
    rw [digitsValue_append, ih hdiv hfuel]
    simp only [Option.bind_some]
    rw [digitsValue_digit (Nat.mod_lt _ (by decide))]
    congr 1
    omega

theorem decimal_digits (n : Nat) : ∀ b ∈ decimal n, isDigit b := decimalLoop_digits _ _

theorem decimal_cons (n : Nat) : ∃ b x, decimal n = b :: x ∧ isDigit b := by
  cases h : decimal n with
  | nil => exact absurd h (decimalLoop_ne_nil n (by decide))
  | cons b x => exact ⟨b, x, rfl, decimal_digits n b (by rw [h]; exact List.mem_cons_self)⟩

theorem parseNat_decimal {n : Nat} (h : n < 10 ^ 20) : parseNat (decimal n) = some n := by
  obtain ⟨b, x, heq, _⟩ := decimal_cons n
  have hvalue := digitsValue_decimalLoop h (by decide)
  rw [show decimalLoop 20 n = decimal n from rfl, heq] at hvalue
  rw [heq, parseNat]
  · exact hvalue
  · simp

theorem parseI64_negative {v : Int64} (h : v < 0) :
    parseI64 (0x2D :: decimal v.toInt.natAbs) = some v := by
  have hneg : v.toInt < 0 := by simpa [Int64.lt_iff_toInt_lt] using h
  have hle := v.le_toInt
  have hback : Int64.ofInt (-(v.toInt.natAbs : Int)) = v := by
    rw [show -(v.toInt.natAbs : Int) = v.toInt by omega, Int64.ofInt_toInt]
  rw [parseI64, parseNat_decimal (by omega), Option.bind_some, if_pos (by omega), hback]

theorem parseI64_nonneg {v : Int64} (h : ¬ v < 0) :
    parseI64 (decimal v.toInt.natAbs) = some v := by
  have hpos : 0 ≤ v.toInt := by simpa [Int64.lt_iff_toInt_lt] using h
  have hlt := v.toInt_lt
  have hback : Int64.ofInt (v.toInt.natAbs : Int) = v := by
    rw [show (v.toInt.natAbs : Int) = v.toInt by omega, Int64.ofInt_toInt]
  have hparse := parseNat_decimal (n := v.toInt.natAbs) (by omega)
  obtain ⟨b, x, hdec, hb⟩ := decimal_cons v.toInt.natAbs
  rw [hdec] at hparse ⊢
  unfold parseI64
  split
  · rename_i heq
    rw [(List.cons.inj heq).1] at hb
    cases hb
  · rename_i heq
    rw [(List.cons.inj heq).1] at hb
    cases hb
  · rw [hparse, Option.bind_some, if_pos (by omega), hback]

theorem parseU64_decimal (v : UInt64) : parseU64 (decimal v.toNat) = some v := by
  have hlt := v.toNat_lt
  have hparse := parseNat_decimal (n := v.toNat) (by omega)
  obtain ⟨b, x, hdec, hb⟩ := decimal_cons v.toNat
  rw [hdec] at hparse ⊢
  unfold parseU64
  simp only
  split
  · rename_i heq
    rw [(List.cons.inj heq).1] at hb
    cases hb
  · rw [hparse, Option.bind_some, if_pos hlt, UInt64.ofNat_toNat]

/-- The largest number. -/
example : parseU64 (decimal 18446744073709551615) = some 18446744073709551615 := by
  decide +kernel

/-! ## A text for doubles -/

/-- The bit pattern as a decimal number and a point. `ryu` prints fewer digits; what the
crate relies on holds of both, and this one can be run. -/
@[reducible] def plainFloatText : FloatText where
  format d := decimal d.bits.toNat ++ [0x2E]
  parse s := if s.getLast? = some 0x2E then (parseU64 s.dropLast).map F64.mk else none

theorem plainFloatText_inverse : @FloatText.Inverse plainFloatText := by
  let _ : FloatText := plainFloatText
  constructor
  · intro d _
    simp [FloatText.parse, FloatText.format, parseU64_decimal]
  · intro d _ b hb
    rcases List.mem_append.mp hb with hb | hb
    · exact .inl (decimal_digits _ b hb)
    · rw [List.mem_singleton.mp hb]
      exact .inr (.inr (.inr rfl))
  · intro d _
    obtain ⟨b, x, heq, hb⟩ := decimal_cons d.bits.toNat
    exact ⟨b, x ++ [0x2E], by simp [FloatText.format, heq], .inl hb⟩
  · intro d _
    simp [FloatText.format, isFloatMark]

/-! ## The characters of a number -/

/-- A digit, a sign or a float mark. -/
def isNumberChar (b : UInt8) : Bool := isDigit b || b == 0x2D || b == 0x2B || isFloatMark b

theorem isDigit_not_mark {b : UInt8} (h : isDigit b || b == 0x2D || b == 0x2B) :
    isFloatMark b = false := by
  simp only [Bool.or_eq_true, beq_iff_eq] at h
  rcases h with (h | rfl) | rfl
  · obtain ⟨h₁, h₂⟩ := isDigit_iff.mp h
    simp only [isFloatMark, Bool.or_eq_false_iff, beq_eq_false_iff_ne, ne_eq]
    refine ⟨⟨?_, ?_⟩, ?_⟩ <;> rintro rfl <;> simp at h₁ h₂
  · rfl
  · rfl

theorem numberLen_append {x : List UInt8} (h : ∀ b ∈ x, isNumberChar b) (y : List UInt8) :
    numberLen (x ++ y) = (x.length + (numberLen y).1, x.any isFloatMark || (numberLen y).2.1,
      (numberLen y).2.2) := by
  induction x with
  | nil => simp
  | cons b x ih =>
    have hb := h b List.mem_cons_self
    rw [List.cons_append, numberLen, ih fun b hb => h b (List.mem_cons_of_mem _ hb)]
    split
    · rename_i hdigit
      simp [isDigit_not_mark hdigit, Nat.add_right_comm]
    · rename_i hdigit
      have hmark : isFloatMark b := by simpa [isNumberChar, hdigit] using hb
      simp [hmark, Nat.add_right_comm]

theorem isNumberChar_digits {x : List UInt8} (h : ∀ b ∈ x, isDigit b) :
    ∀ b ∈ x, isNumberChar b := fun b hb => by simp [isNumberChar, h b hb]

theorem any_mark_digits {x : List UInt8} (h : ∀ b ∈ x, isDigit b) : x.any isFloatMark = false := by
  rw [List.any_eq_false]
  intro b hb
  simp [isDigit_not_mark (b := b) (by simp [h b hb])]

/-! ## Little-endian doubles -/

theorem fromLeBytes_foldr {l : List UInt8} (h : l.length ≤ 8) :
    (l.foldr (fun b (acc : UInt64) => (acc <<< 8) ||| b.toUInt64) 0).toNat
      = l.foldr (fun b acc => b.toNat + 256 * acc) 0
    ∧ l.foldr (fun b acc => b.toNat + 256 * acc) 0 < 256 ^ l.length := by
  induction l with
  | nil => exact ⟨rfl, by decide⟩
  | cons b l ih =>
    obtain ⟨heq, hlt⟩ := ih (Nat.le_of_succ_le h)
    have hb := b.toNat_lt
    have hpow : (256 : Nat) ^ l.length ≤ 256 ^ 7 :=
      Nat.pow_le_pow_right (by decide) (Nat.le_of_succ_le_succ h)
    simp only [List.foldr_cons, List.length_cons, Nat.pow_succ]
    refine ⟨?_, by omega⟩
    have hfit : (l.foldr (fun b (acc : UInt64) => (acc <<< 8) ||| b.toUInt64) 0).toNat * 2 ^ 8
        < 2 ^ 64 := by
      rw [heq]
      omega
    have hshift : (8 : UInt64).toNat = 8 := rfl
    rw [UInt64.or_comm, or_group _ hshift (by decide) (by simpa using hb) hfit, heq]
    simp
    omega

theorem F64.fromLeBytes_toLeBytes (d : F64) : F64.fromLeBytes d.toLeBytes = d := by
  have hlt := d.bits.toNat_lt
  have hlen : d.toLeBytes.length ≤ 8 := by simp [F64.toLeBytes]
  have hvalue := (fromLeBytes_foldr hlen).1
  obtain ⟨bits⟩ := d
  simp only [F64.fromLeBytes, F64.mk.injEq]
  apply UInt64.toNat_inj.mp
  rw [hvalue]
  simp [F64.toLeBytes, List.range_succ, UInt64.toNat_shiftRight, Nat.shiftRight_eq_div_pow]
  simp only at hlt
  omega

/-! ## Escapes -/

/-- In a quoted string the bytes `e` stand for the byte `c`. -/
def Escapes (e : List UInt8) (c : UInt8) : Prop :=
  ∃ b x, e = b :: x ∧ b ≠ 0x22 ∧
    ∀ (pos : Nat) (rest : List UInt8), unescapeStep pos b (x ++ rest) = .ok (c, e.length)

theorem hexPair_hexChar (b : UInt8) :
    hexPair (hexChar (b >>> 4)) (hexChar (b &&& 0x0F)) = some b := by
  have := forall_byte (p := fun b => hexPair (hexChar (b >>> 4)) (hexChar (b &&& 0x0F)) == some b)
    (by decide +kernel) b
  simpa using this

theorem escapes_hex (b : UInt8) : Escapes (hexEscape b) b :=
  ⟨0x5C, _, rfl, by decide, fun _ _ => unescapeStep_hex (hexPair_hexChar b) _⟩

theorem escapes_plain {b : UInt8} (hq : b ≠ 0x22) (hb : b ≠ 0x5C) : Escapes [b] b :=
  ⟨b, [], rfl, hq, fun _ _ => unescapeStep_plain hb _⟩

theorem escapes_common {b : UInt8} {e : List UInt8} (h : commonEscape b = some e) :
    Escapes e b := by
  unfold commonEscape at h
  split at h <;> cases h <;>
    exact ⟨0x5C, _, rfl, by decide, fun _ _ => unescapeStep_simple (by decide) (by decide) _⟩

theorem commonEscape_none {b : UInt8} (h : commonEscape b = none) : b ≠ 0x22 ∧ b ≠ 0x5C := by
  constructor <;> rintro rfl <;> cases h

theorem escapes_escapeStr (b : UInt8) : Escapes (escapeStr b) b := by
  unfold escapeStr
  split
  · rename_i h
    exact escapes_common h
  · rename_i h
    split
    · exact escapes_hex b
    · exact escapes_plain (commonEscape_none h).1 (commonEscape_none h).2

theorem escapes_escapeBytes (b : UInt8) : Escapes (escapeBytes b) b := by
  unfold escapeBytes
  split
  · rename_i h
    exact escapes_common h
  · rename_i h
    split
    · exact escapes_plain (commonEscape_none h).1 (commonEscape_none h).2
    · exact escapes_hex b

variable {escape : UInt8 → List UInt8}

theorem findQuote_escaped (hesc : ∀ b, Escapes (escape b) b) (v rest : List UInt8) :
    (findQuote (v.flatMap escape ++ 0x22 :: rest)).1 = (v.flatMap escape).length := by
  induction v with
  | nil => rfl
  | cons c v ih =>
    obtain ⟨b, x, heq, hq, hstep⟩ := hesc c
    rw [List.flatMap_cons, List.append_assoc, heq, List.cons_append]
    rw [findQuote_step hq (hstep 0 _), heq, ← List.cons_append, List.drop_left, ih,
      List.length_append, Nat.add_comm]

theorem unescapeLoop_escaped (hesc : ∀ b, Escapes (escape b) b) (rest : List UInt8) :
    ∀ (v : List UInt8) (fuel pos : Nat), (v.flatMap escape).length < fuel →
      unescapeLoop fuel pos (v.flatMap escape ++ 0x22 :: rest)
        = .ok (v, (v.flatMap escape).length + 1) := by
  intro v
  induction v with
  | nil =>
    intro fuel pos hfuel
    obtain ⟨fuel, rfl⟩ : ∃ k, fuel = k + 1 := ⟨fuel - 1, by omega⟩
    simp [unescapeLoop]
  | cons c v ih =>
    intro fuel pos hfuel
    obtain ⟨fuel, rfl⟩ : ∃ k, fuel = k + 1 := ⟨fuel - 1, by omega⟩
    obtain ⟨b, x, heq, hq, hstep⟩ := hesc c
    have hlen : (v.flatMap escape).length < fuel := by
      rw [List.flatMap_cons, List.length_append, heq, List.length_cons] at hfuel
      omega
    rw [List.flatMap_cons, List.append_assoc, heq, List.cons_append, unescapeLoop, if_neg hq,
      hstep, heq, ← List.cons_append]
    simp only [bind, Except.bind, List.drop_left, ih fuel _ hlen, List.length_append, Nat.add_assoc]

/-- Where no escape was seen, the second pass would find what the slice holds. -/
theorem unescapeLoop_unescaped {x : List UInt8} (hplain : (findQuote x).2 = false) :
    ∀ {fuel pos : Nat}, (findQuote x).1 < x.length → (findQuote x).1 < fuel →
      unescapeLoop fuel pos x = .ok (x.take (findQuote x).1, (findQuote x).1 + 1) := by
  fun_induction findQuote x with
  | case1 => intro _ _ h; simp at h
  | case2 x =>
    intro fuel pos _ hfuel
    obtain ⟨fuel, rfl⟩ : ∃ k, fuel = k + 1 := ⟨fuel - 1, by omega⟩
    simp [unescapeLoop]
  | case3 => cases hplain
  | case4 => cases hplain
  | case5 b x hq hb hb' ih =>
    intro fuel pos hlen hfuel
    obtain ⟨fuel, rfl⟩ : ∃ k, fuel = k + 1 := ⟨fuel - 1, by omega⟩
    have hne : b ≠ 0x5C := by
      rintro rfl
      cases x with
      | nil => exact hb rfl rfl
      | cons c x => exact hb' c x rfl rfl
    have hlen' : (findQuote x).1 < x.length := by simpa using hlen
    have hrest : unescapeLoop fuel (pos + 1) x = .ok (x.take (findQuote x).1, (findQuote x).1 + 1) :=
      ih hplain hlen' (by simpa using hfuel)
    rw [unescapeLoop, if_neg hq, unescapeStep_plain hne]
    simp only [bind, Except.bind, List.drop_one, List.tail_cons, hrest, List.take_succ_cons,
      Nat.add_comm 1]

theorem parseTextQuotedString_quoted (hesc : ∀ b, Escapes (escape b) b) (v rest : List UInt8)
    (pos : Nat) :
    parseTextQuotedString pos (v.flatMap escape ++ 0x22 :: rest)
      = .ok (.string v, (v.flatMap escape).length + 1) := by
  have hquote := findQuote_escaped hesc v rest
  have hin : (v.flatMap escape).length < (v.flatMap escape ++ 0x22 :: rest).length := by
    rw [List.length_append, List.length_cons]
    omega
  have hloop := unescapeLoop_escaped hesc rest v
    ((v.flatMap escape ++ 0x22 :: rest).length + 1) pos (Nat.lt_succ_of_lt hin)
  have hslice := unescapeLoop_unescaped (x := v.flatMap escape ++ 0x22 :: rest)
  rw [hquote] at hslice
  rw [parseTextQuotedString]
  simp only [hquote]
  rw [if_neg (Nat.not_le_of_lt hin)]
  cases hplain : (findQuote (v.flatMap escape ++ 0x22 :: rest)).2 with
  | true => simp only [hloop, bind, Except.bind, Bool.not_true, Bool.false_eq_true, if_false]
  | false =>
    have heq := (hslice hplain hin (Nat.lt_succ_of_lt hin)).symm.trans hloop
    simp only [Except.ok.injEq, Prod.mk.injEq] at heq
    simp only [Bool.not_false, if_true, heq.1]

/-- An infinity is one of two bit patterns. -/
theorem F64.infinite_cases {d : F64} (h : d.isInfinite) :
    d = if d.isSignNegative then .NEG_INFINITY else .INFINITY := by
  obtain ⟨bits⟩ := d
  have hlt := bits.toNat_lt
  simp only [isInfinite, isSpecial, Bool.and_eq_true, beq_iff_eq, ← UInt64.toNat_inj,
    UInt64.toNat_and, UInt64.toNat_shiftRight] at h
  obtain ⟨hexp, hfrac⟩ := h
  have hexp' : bits.toNat / 2 ^ 52 % 2 ^ 11 = 2047 := by
    rw [← Nat.shiftRight_eq_div_pow, ← Nat.and_two_pow_sub_one_eq_mod]
    exact hexp
  have hfrac' : bits.toNat % 2 ^ 52 = 0 := by
    rw [← Nat.and_two_pow_sub_one_eq_mod]
    exact hfrac
  have hsign : (bits >>> 63).toNat = bits.toNat / 2 ^ 63 := by
    rw [UInt64.toNat_shiftRight, ← Nat.shiftRight_eq_div_pow]
    rfl
  split
  · rename_i hneg
    simp only [isSignNegative, beq_iff_eq, ← UInt64.toNat_inj, hsign] at hneg
    simp only [NEG_INFINITY, F64.mk.injEq, ← UInt64.toNat_inj]
    have : bits.toNat / 2 ^ 63 = 1 := hneg
    show bits.toNat = 0xFFF0000000000000
    omega
  · rename_i hneg
    simp only [isSignNegative, beq_iff_eq, ← UInt64.toNat_inj, hsign] at hneg
    simp only [INFINITY, F64.mk.injEq, ← UInt64.toNat_inj]
    have : ¬ bits.toNat / 2 ^ 63 = 1 := hneg
    show bits.toNat = 0x7FF0000000000000
    omega

/-! ## Runs of written tokens -/

theorem specials_eq : specials =
    [([0x74, 0x72, 0x75, 0x65], .boolean true), ([0x66, 0x61, 0x6C, 0x73, 0x65], .boolean false),
     ([0x6E, 0x61, 0x6E], .double .NAN), ([0x69, 0x6E, 0x66], .double .INFINITY),
     ([0x2D, 0x69, 0x6E, 0x66], .double .NEG_INFINITY)] := by decide +kernel

/-- A byte of a class that no punctuation belongs to is not punctuation. -/
theorem punctuation_eq_none {p : UInt8 → Bool} {b : UInt8} (h : p b)
    (hp : ([0x23, 0x3C, 0x3E, 0x5B, 0x5D, 0x7B, 0x7D, 0x3D, 0x3B] : List UInt8).all fun c => !p c) :
    punctuation b = none := by
  cases hpunct : punctuation b with
  | none => rfl
  | some t =>
    have hlead := punctuation_eq_some.mp hpunct
    cases t <;> simp only [Token.lead, Option.some.injEq, reduceCtorEq] at hlead <;>
      subst hlead <;> simp [h] at hp

theorem skipIgnored_significant {b : UInt8} (hw : isAsciiWhitespace b = false) (hs : b ≠ 0x2F)
    (x : List UInt8) (pos : Nat) (isBinary : Bool) :
    (⟨b :: x, pos, isBinary⟩ : YsonIterator).skipIgnored = ⟨b :: x, pos, isBinary⟩ := by
  cases isBinary with
  | true => rfl
  | false =>
    have hlen : skipIgnoredLen .between (b :: x) = 0 := by
      unfold skipIgnoredLen
      split <;> simp_all
    simp [YsonIterator.skipIgnored, hlen, YsonIterator.advance]

theorem lead_significant {b : UInt8} {t : Token} (h : t.lead = some b) :
    isAsciiWhitespace b = false ∧ b ≠ 0x2F := by
  cases t <;> simp only [Token.lead, Option.some.injEq, reduceCtorEq] at h <;> subst h <;> decide

/-- No special spelling starts another, so what follows one does not matter. -/
theorem parseTextSpecialValue_append {name : List UInt8} {t : Token} (h : (name, t) ∈ specials)
    (rest : List UInt8) : parseTextSpecialValue (name ++ rest) = .ok (t, name.length) := by
  rw [specials_eq] at h
  simp only [List.mem_cons, Prod.mk.injEq, List.not_mem_nil, or_false] at h
  rw [parseTextSpecialValue, specials_eq]
  rcases h with ⟨rfl, rfl⟩ | ⟨rfl, rfl⟩ | ⟨rfl, rfl⟩ | ⟨rfl, rfl⟩ | ⟨rfl, rfl⟩ <;>
    simp [List.find?, List.isPrefixOf]

variable [FloatText]

/-- The bytes read as these tokens, wherever they stand with a delimiter behind them. -/
def Writes (isBinary : Bool) (ts : List Token) (bs : List UInt8) : Prop :=
  ∀ (rest : List UInt8) (pos : Nat), Delimited rest →
    Lexes ⟨bs ++ rest, pos, isBinary⟩ ts ⟨rest, pos + bs.length, isBinary⟩

variable {isBinary : Bool} {t : Token} {ts us : List Token} {bs cs : List UInt8}

theorem Writes.nil : Writes isBinary [] [] := fun _ _ _ => .nil _

theorem Writes.append (h : Writes isBinary ts bs) (h' : Writes isBinary us cs)
    (hcs : Delimited cs) : Writes isBinary (ts ++ us) (bs ++ cs) := by
  intro rest pos hrest
  have h₁ := h (cs ++ rest) pos (hcs.append hrest)
  have h₂ := h' rest (pos + bs.length) hrest
  rw [← List.append_assoc] at h₁
  rw [Nat.add_assoc, ← List.length_append] at h₂
  exact h₁.append h₂

/-- Punctuation is read as such whatever follows it. -/
theorem Writes.punctuation {b : UInt8} (ht : t.lead = some b) (h : Writes isBinary ts bs) :
    Writes isBinary (t :: ts) (b :: bs) := by
  intro rest pos hrest
  have hskip := skipIgnored_significant (lead_significant ht).1 (lead_significant ht).2
    (bs ++ rest) pos isBinary
  refine .cons (nextToken_of_lead (by rw [List.cons_append, hskip]) ht) ?_
  rw [List.cons_append, hskip]
  have := h rest (pos + 1) hrest
  simpa [YsonIterator.advance, Nat.add_assoc, Nat.add_comm 1] using this

/-- A written run is what the input spells. -/
theorem Writes.spells {f : YsonFormat} (h : Writes f.isBinary ts bs) :
    ∃ it, Lexes (.new bs f.isBinary) ts it ∧ it.rest = [] := by
  have := h [] 0 trivial
  rw [List.append_nil] at this
  exact ⟨_, this, rfl⟩

/-! ## Binary scalars -/

theorem writes_binary {bs : List UInt8}
    (h : ∀ (rest : List UInt8) (pos : Nat),
      parseBinaryToken pos (bs ++ rest) = .ok (t, bs.length)) :
    Writes true [t] bs := by
  intro rest pos _
  refine .single ?_
  rw [nextToken, skipIgnored_binary rfl]
  simp [parseToken, h, Except.map, YsonIterator.advance]

theorem writes_binary_string {s : List UInt8} (h : s.length ≤ isizeMax) :
    Writes true [.string s] (0x01 :: (writeVarint (lenAsI64 s) ++ s)) := by
  refine writes_binary fun rest pos => ?_
  have hlen : (lenAsI64 s).toInt = s.length := by
    rw [lenAsI64, Int64.toInt_ofNat_of_lt]
    have : isizeMax < 2 ^ 63 := by decide
    omega
  have hneg : ¬ lenAsI64 s < 0 := by
    rw [Int64.lt_iff_toInt_lt, hlen]
    simp
  simp only [List.cons_append, List.append_assoc, parseBinaryToken, parseBinaryPayload,
    parseBinaryString, readVarint_write, if_neg hneg, hlen]
  rw [if_pos (by simp)]
  simp [Except.map]

theorem writes_binary_bool (v : Bool) :
    Writes true [.boolean v] (Serializer.encodeBool true v) :=
  writes_binary fun rest pos => by cases v <;> rfl

theorem writes_binary_i64 (v : Int64) :
    Writes true [.int64 v] (Serializer.encodeI64 true v) :=
  writes_binary fun rest pos => by
    simp [Serializer.encodeI64, parseBinaryToken, parseBinaryPayload, readVarint_write, Except.map]

theorem writes_binary_u64 (v : UInt64) :
    Writes true [.uint64 v] (Serializer.encodeU64 true v) :=
  writes_binary fun rest pos => by
    simp [Serializer.encodeU64, parseBinaryToken, parseBinaryPayload, readUvarint_write, Except.map]

theorem writes_binary_f64 (v : F64) :
    Writes true [.double v] (Serializer.encodeF64 true v) :=
  writes_binary fun rest pos => by
    have hlen : v.toLeBytes.length = 8 := by simp [F64.toLeBytes]
    have htake : (v.toLeBytes ++ rest).take 8 = v.toLeBytes := by
      rw [← hlen, List.take_left]
    simp [Serializer.encodeF64, parseBinaryToken, parseBinaryPayload, parseBinaryDouble, hlen,
      htake, F64.fromLeBytes_toLeBytes, Except.map]

/-! ## Text scalars -/

/-- What starts a token is neither whitespace nor the start of a comment. -/
theorem parseTextToken_significant {b : UInt8} {x : List UInt8} {pos : Nat} {r : Token × Nat}
    (h : parseTextToken pos (b :: x) = .ok r) : isAsciiWhitespace b = false ∧ b ≠ 0x2F := by
  constructor
  · by_contra hw
    simp only [isAsciiWhitespace, Bool.not_eq_false, Bool.or_eq_true, beq_iff_eq] at hw
    rcases hw with (((rfl | rfl) | rfl) | rfl) | rfl <;>
      simp [parseTextToken, Yson.punctuation, isDigit, isAlpha] at h
  · rintro rfl
    simp [parseTextToken, Yson.punctuation, isDigit, isAlpha] at h

theorem writes_text {b : UInt8} {x : List UInt8}
    (h : ∀ (rest : List UInt8) (pos : Nat), Delimited rest →
      parseTextToken pos (b :: (x ++ rest)) = .ok (t, x.length + 1)) :
    Writes false [t] (b :: x) := by
  intro rest pos hrest
  have hparse := h rest pos hrest
  obtain ⟨hw, hs⟩ := parseTextToken_significant hparse
  refine .single ?_
  rw [nextToken, List.cons_append, skipIgnored_significant hw hs]
  simp [parseToken, hparse, Except.map, YsonIterator.advance]

/-- A byte that starts a number starts nothing else. -/
theorem parseTextToken_number {b : UInt8} (hb : isDigit b || b == 0x2D || b == 0x2B)
    (x : List UInt8) (pos : Nat) : parseTextToken pos (b :: x) = parseTextNumber (b :: x) := by
  have hpunct : punctuation b = none :=
    punctuation_eq_none (p := fun b => isDigit b || b == 0x2D || b == 0x2B) hb (by decide)
  have hq : b ≠ 0x22 := by
    rintro rfl
    simp [isDigit] at hb
  simp only [parseTextToken, hpunct]
  rw [if_neg hq, if_pos hb]

theorem writes_number {s tail : List UInt8} (hne : ∃ b x, s = b :: x ∧
      (isDigit b || b == 0x2D || b == 0x2B))
    (hs : ∀ b ∈ s, isNumberChar b) (isUnsigned : Bool)
    (htail : tail = if isUnsigned then [0x75] else [])
    (ht : numberToken (s ++ tail) (s.any isFloatMark) isUnsigned = .ok t) :
    Writes false [t] (s ++ tail) := by
  obtain ⟨b, x, rfl, hb⟩ := hne
  refine writes_text fun rest pos hrest => ?_
  have hlen : numberLen (tail ++ rest) = (tail.length, false, isUnsigned) := by
    cases isUnsigned with
    | true => simp [htail, numberLen, isDigit, isFloatMark]
    | false => simpa [htail] using hrest.numberLen
  have hnumber : numberLen (b :: ((x ++ tail) ++ rest))
      = ((x ++ tail).length + 1, (b :: x).any isFloatMark, isUnsigned) := by
    have := numberLen_append hs (tail ++ rest)
    simpa [hlen, List.append_assoc, Nat.add_right_comm] using this
  have htake : (b :: ((x ++ tail) ++ rest)).take ((x ++ tail).length + 1) = b :: (x ++ tail) := by
    rw [List.take_succ_cons, List.take_left]
  show parseTextToken pos (b :: ((x ++ tail) ++ rest)) = .ok (t, (x ++ tail).length + 1)
  rw [parseTextToken_number hb, parseTextNumber, hnumber]
  simp only [htake]
  rw [← List.cons_append, ht]
  rfl

theorem writes_text_i64 (v : Int64) : Writes false [.int64 v] (itoaI64 v) := by
  have hdigits := decimal_digits v.toInt.natAbs
  have hnumber := isNumberChar_digits hdigits
  have hmark := any_mark_digits hdigits
  rw [← List.append_nil (itoaI64 v), itoaI64]
  split
  · rename_i hv
    refine writes_number ⟨_, _, rfl, by decide⟩ ?_ false rfl ?_
    · intro b hb
      rcases List.mem_cons.mp hb with rfl | hb
      · rfl
      · exact hnumber b hb
    · rw [List.append_nil, List.any_cons, hmark]
      simp [numberToken, parseI64_negative hv, isFloatMark]
  · rename_i hv
    obtain ⟨b, x, hdec, hb⟩ := decimal_cons v.toInt.natAbs
    refine writes_number ⟨b, x, hdec, by simp [hb]⟩ hnumber false rfl ?_
    rw [List.append_nil, hmark]
    simp [numberToken, parseI64_nonneg hv]

theorem writes_text_u64 (v : UInt64) : Writes false [.uint64 v] (itoaU64 v ++ [0x75]) := by
  obtain ⟨b, x, hdec, hb⟩ := decimal_cons v.toNat
  refine writes_number ⟨b, x, hdec, by simp [hb]⟩ (isNumberChar_digits (decimal_digits _)) true
    rfl ?_
  simp [numberToken, itoaU64, parseU64_decimal]

/-- What is read of a number marked with a `u`. -/
example : parseU64 (itoaU64 18446744073709551615 ++ [0x75]).dropLast =
    some 18446744073709551615 := by
  decide +kernel

theorem writes_special {name : List UInt8} (h : (name, t) ∈ specials) :
    Writes false [t] (0x25 :: name) :=
  writes_text fun rest pos _ => by
    simp [parseTextToken, Yson.punctuation, isDigit, parseTextSpecialValue_append h, Except.map]

theorem writes_text_bool (v : Bool) :
    Writes false [.boolean v] (Serializer.encodeBool false v) := by
  have hspell : Serializer.encodeBool false v
      = 0x25 :: (if v then ascii "true" else ascii "false") := by
    cases v <;> decide +kernel
  rw [hspell]
  cases v with
  | false => exact writes_special (by decide +kernel)
  | true => exact writes_special (by decide +kernel)

theorem writes_text_f64 (hfloat : FloatText.Inverse) {v : F64} (hnan : v.isNan = false) :
    Writes false [.double v] (Serializer.encodeF64 false v) := by
  rw [Serializer.encodeF64, if_neg (by decide), if_neg (by simp [hnan])]
  split
  · rename_i hinf
    have hv := F64.infinite_cases hinf
    split
    · rename_i hneg
      rw [if_pos hneg] at hv
      rw [hv, show ascii "%-inf" = 0x25 :: ascii "-inf" by decide +kernel]
      exact writes_special (by decide +kernel)
    · rename_i hneg
      rw [if_neg hneg] at hv
      rw [hv, show ascii "%inf" = 0x25 :: ascii "inf" by decide +kernel]
      exact writes_special (by decide +kernel)
  · rename_i hinf
    have hfinite : v.isSpecial = false := by
      simp only [F64.isNan, F64.isInfinite] at hnan hinf
      cases h : v.isSpecial with
      | false => rfl
      | true => simp_all
    have hmark := hfloat.mark v hfinite
    obtain ⟨b, x, heq, hb⟩ := hfloat.head v hfinite
    simp only [if_pos hmark]
    rw [← List.append_nil (FloatText.format v)]
    refine writes_number ⟨b, x, heq, ?_⟩ ?_ false rfl ?_
    · rcases hb with hb | rfl
      · simp [hb]
      · rfl
    · intro b hb
      rcases hfloat.chars v hfinite b hb with h | rfl | rfl | h
      · simp [isNumberChar, h]
      · rfl
      · rfl
      · simp [isNumberChar, h]
    · simp [numberToken, hmark, hfloat.parse_format v hfinite]

theorem writes_unquoted {s : List UInt8} (h : isSafeUnquoted s) : Writes false [.string s] s := by
  cases s with
  | nil => cases h
  | cons b x =>
    simp only [isSafeUnquoted, Bool.and_eq_true] at h
    obtain ⟨hb, hall⟩ := h
    refine writes_text fun rest pos hrest => ?_
    have htake : (b :: (x ++ rest)).takeWhile isUnquotedChar = b :: x := by
      rw [← List.cons_append, List.takeWhile_append_of_pos (List.all_eq_true.mp hall),
        hrest.takeWhile, List.append_nil]
    have hne : ∀ c : UInt8, (isAlpha c || c == 0x5F) = false → b ≠ c := by
      rintro c hc rfl
      rw [hb] at hc
      cases hc
    have hdigit : (isDigit b || b == 0x2D || b == 0x2B) = false := by
      have := forall_byte (p := fun b => !(isAlpha b || b == 0x5F) ||
        !(isDigit b || b == 0x2D || b == 0x2B)) (by decide +kernel) b
      simpa [hb] using this
    have hpunct : punctuation b = none :=
      punctuation_eq_none (p := fun b => isAlpha b || b == 0x5F) hb (by decide)
    simp only [parseTextToken, hpunct, if_neg (hne 0x22 (by decide)),
      hdigit, if_neg (hne 0x25 (by decide)), hb, if_true, Bool.false_eq_true, if_false,
      parseTextUnquotedString, htake, List.isEmpty_cons, List.length_cons]

theorem writes_quoted {escape : UInt8 → List UInt8} (hesc : ∀ b, Escapes (escape b) b)
    (s : List UInt8) : Writes false [.string s] (quoted escape s) := by
  refine writes_text fun rest pos _ => ?_
  have := parseTextQuotedString_quoted hesc s rest (pos + 1)
  rw [List.append_assoc, List.singleton_append]
  simp [parseTextToken, Yson.punctuation, this, Except.map]

/-! ## Either encoding -/

theorem writes_bool (v : Bool) : Writes isBinary [.boolean v] (Serializer.encodeBool isBinary v) := by
  cases isBinary with
  | true => exact writes_binary_bool v
  | false => exact writes_text_bool v

theorem writes_i64 (v : Int64) : Writes isBinary [.int64 v] (Serializer.encodeI64 isBinary v) := by
  cases isBinary with
  | true => exact writes_binary_i64 v
  | false => exact writes_text_i64 v

theorem writes_u64 (v : UInt64) : Writes isBinary [.uint64 v] (Serializer.encodeU64 isBinary v) := by
  cases isBinary with
  | true => exact writes_binary_u64 v
  | false => exact writes_text_u64 v

/-- In text a NaN loses its payload. -/
theorem writes_f64 {v : F64} (h : isBinary = false → FloatText.Inverse ∧ v.isNan = false) :
    Writes isBinary [.double v] (Serializer.encodeF64 isBinary v) := by
  cases isBinary with
  | true => exact writes_binary_f64 v
  | false =>
    obtain ⟨hfloat, hnan⟩ := h rfl
    exact writes_text_f64 hfloat hnan

/-- Text has one spelling for every NaN. -/
theorem writes_text_nan {v : F64} (hnan : v.isNan) :
    Writes false [.double .NAN] (Serializer.encodeF64 false v) := by
  rw [Serializer.encodeF64, if_neg (by decide), if_pos hnan,
    show ascii "%nan" = 0x25 :: ascii "nan" by decide +kernel]
  exact writes_special (by decide +kernel)

theorem writes_str {s : List UInt8} (h : s.length ≤ isizeMax) :
    Writes isBinary [.string s] (Serializer.encodeStr isBinary s) := by
  cases isBinary with
  | true => exact writes_binary_string h
  | false =>
    rw [Serializer.encodeStr, if_neg (by decide)]
    split
    · rename_i hsafe
      exact writes_unquoted hsafe
    · exact writes_quoted escapes_escapeStr s

theorem writes_bytes {s : List UInt8} (h : s.length ≤ isizeMax) :
    Writes isBinary [.string s] (Serializer.encodeBytes isBinary s) := by
  cases isBinary with
  | true => exact writes_binary_string h
  | false => exact writes_quoted escapes_escapeBytes s

/-! ## Strings in text -/

/-- What reads as one token wherever a delimiter or the end follows is read by one call. -/
theorem Writes.nextToken (h : Writes isBinary [t] bs) {rest : List UInt8} (hrest : Delimited rest)
    (pos : Nat) :
    Yson.nextToken ⟨bs ++ rest, pos, isBinary⟩ = .ok (t, ⟨rest, pos + bs.length, isBinary⟩) := by
  obtain ⟨it, hnext, hrun⟩ := Lexes.cons_iff.mp (h rest pos hrest)
  rw [hnext, Lexes.nil_iff.mp hrun]

/-- **Strings survive the text lexer**, bare or quoted, in both spellings the serializer has. -/
theorem text_strings_survive (s : List UInt8) {rest : List UInt8} (hrest : Delimited rest)
    (pos : Nat) :
    Yson.nextToken ⟨Serializer.encodeStr false s ++ rest, pos, false⟩ =
      .ok (.string s, ⟨rest, pos + (Serializer.encodeStr false s).length, false⟩) ∧
    Yson.nextToken ⟨Serializer.encodeBytes false s ++ rest, pos, false⟩ =
      .ok (.string s, ⟨rest, pos + (Serializer.encodeBytes false s).length, false⟩) := by
  have hstr : Writes false [.string s] (Serializer.encodeStr false s) := by
    show Writes false _ (if isSafeUnquoted s then s else quoted escapeStr s)
    by_cases hsafe : isSafeUnquoted s = true
    · rw [if_pos hsafe]
      exact writes_unquoted hsafe
    · rw [if_neg hsafe]
      exact writes_quoted escapes_escapeStr s
  have hbytes : Writes false [.string s] (Serializer.encodeBytes false s) :=
    writes_quoted escapes_escapeBytes s
  exact ⟨hstr.nextToken hrest pos, hbytes.nextToken hrest pos⟩

omit [FloatText] in
/-- A control byte and a digit that could belong to its escape, before a separator. -/
theorem text_strings_survive_escape :
    @Yson.nextToken plainFloatText
        ⟨Serializer.encodeStr false [0x01, 0x37] ++ [0x3B, 0x37], 0, false⟩ =
      .ok (.string [0x01, 0x37], ⟨[0x3B, 0x37], 7, false⟩) :=
  (@text_strings_survive plainFloatText [0x01, 0x37] [0x3B, 0x37] rfl 0).1

/-- The escape is not cut short in front of the digit. -/
example : Serializer.encodeStr false [0x01, 0x37] =
    [0x22, 0x5C, 0x78, 0x30, 0x31, 0x37, 0x22] := by
  decide +kernel

end Ytsaurus.Yson
