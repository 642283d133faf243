import Mathlib.Data.List.TakeWhile
import Ytsaurus.Lib.ExceptList
import Ytsaurus.Yson.Lexer

/-!
# `Proof/Lexer.lean` — what one token depends on

A token that was read is determined by the bytes it spans: cutting the input anywhere after
it changes nothing, and in binary neither does appending to it. This is what lets a record
be measured on one buffer and decoded on another. In binary an error that is not about
missing bytes survives more bytes too.

Binary tokens carry their length, so there the statements are about `take` and `++`
(`parseBinaryPayload_ok`, `parseBinaryToken_error`). In text a token ends where the next byte does
not belong to it, and the end of the buffer counts as such a byte; so cutting behind the token
is harmless and appending to it is not, and the second half is left to `Proof/TextExtend.lean`,
which has to say when the lexer saw the end.

The one token that is read twice is the quoted string: `findQuote` looks for the closing quote
and a second pass unescapes up to it. The two passes share no code, and what is proved of them is
that they see the same characters (`findQuote_step`), so the second ends where the first said it
would and looks at nothing behind it (`unescapeLoop_ok`).

The last part is about `peek_byte`, with which both parsers decide what to do before they take a
token. `Leads b t` says what the byte tells of the token: punctuation is its own byte, and
no other token starts with one of those. Whoever has peeked therefore knows which token comes,
as far as it matters, and `peekByte_of_nextToken` is the form in which the parsers use it.
-/

set_option autoImplicit false

namespace Ytsaurus.Yson

/-! ## Ignored text -/

theorem skipIgnoredLen_le (mode : SkipMode) (x : List UInt8) : skipIgnoredLen mode x ≤ x.length := by
  fun_induction skipIgnoredLen mode x <;> simp <;> omega

/-- Skipping stops where there is nothing left to skip. -/
theorem skipIgnoredLen_drop (mode : SkipMode) (x : List UInt8) :
    skipIgnoredLen .between (x.drop (skipIgnoredLen mode x)) = 0 := by
  fun_induction skipIgnoredLen mode x with
  | case1 => simp [skipIgnoredLen]
  | case2 rest ih => simpa [Nat.add_comm 2] using ih
  | case3 rest ih => simpa [Nat.add_comm 2] using ih
  | case4 b rest _ _ hws ih => simpa [Nat.add_comm 1] using ih
  | case5 b rest hl hb hws => simp_all [skipIgnoredLen]
  | case6 rest ih => simpa [Nat.add_comm 1] using ih
  | case7 b rest _ ih => simpa [Nat.add_comm 1] using ih
  | case8 rest ih => simpa [Nat.add_comm 2] using ih
  | case9 b rest _ ih => simpa [Nat.add_comm 1] using ih

theorem skipIgnoredLen_take (mode : SkipMode) {x : List UInt8} {m : Nat}
    (h : skipIgnoredLen mode x ≤ m) :
    skipIgnoredLen mode (x.take m) = skipIgnoredLen mode x := by
  fun_induction skipIgnoredLen mode x generalizing m with
  | case1 => simp [skipIgnoredLen]
  | case2 rest ih =>
    obtain ⟨m, rfl⟩ : ∃ k, m = k + 2 := ⟨m - 2, by omega⟩
    simp only [List.take_succ_cons, skipIgnoredLen]
    rw [ih (by omega)]
  | case3 rest ih =>
    obtain ⟨m, rfl⟩ : ∃ k, m = k + 2 := ⟨m - 2, by omega⟩
    simp only [List.take_succ_cons, skipIgnoredLen]
    rw [ih (by omega)]
  | case4 b rest _ _ hws ih =>
    obtain ⟨m, rfl⟩ : ∃ k, m = k + 1 := ⟨m - 1, by omega⟩
    have hslash : b ≠ 0x2F := by rintro rfl; simp [isAsciiWhitespace] at hws
    rw [List.take_succ_cons, skipIgnoredLen, if_pos hws, ih (by omega)]
    · exact fun _ hb => absurd hb hslash
    · exact fun _ hb => absurd hb hslash
  | case5 b rest hl hb hws =>
    -- the byte after `b` may be cut off, and then `b` opens no comment either
    cases m with
    | zero => simp [skipIgnoredLen]
    | succ m =>
      rw [List.take_succ_cons, skipIgnoredLen, if_neg hws]
      · rintro r rfl htake
        cases rest with
        | nil => simp at htake
        | cons c rest =>
          cases m with
          | zero => simp at htake
          | succ m => exact hl rest rfl (by simpa using (List.cons.inj htake).1)
      · rintro r rfl htake
        cases rest with
        | nil => simp at htake
        | cons c rest =>
          cases m with
          | zero => simp at htake
          | succ m => exact hb rest rfl (by simpa using (List.cons.inj htake).1)
  | case6 rest ih =>
    obtain ⟨m, rfl⟩ : ∃ k, m = k + 1 := ⟨m - 1, by omega⟩
    rw [List.take_succ_cons, skipIgnoredLen, if_pos rfl, ih (by omega)]
  | case7 b rest hnl ih =>
    obtain ⟨m, rfl⟩ : ∃ k, m = k + 1 := ⟨m - 1, by omega⟩
    rw [List.take_succ_cons, skipIgnoredLen, if_neg hnl, ih (by omega)]
  | case8 rest ih =>
    obtain ⟨m, rfl⟩ : ∃ k, m = k + 2 := ⟨m - 2, by omega⟩
    simp only [List.take_succ_cons, skipIgnoredLen]
    rw [ih (by omega)]
  | case9 b rest hend ih =>
    obtain ⟨m, rfl⟩ : ∃ k, m = k + 1 := ⟨m - 1, by omega⟩
    rw [List.take_succ_cons, skipIgnoredLen, ih (by omega)]
    rintro r rfl htake
    cases rest with
    | nil => simp at htake
    | cons c rest =>
      cases m with
      | zero => simp at htake
      | succ m => exact hend rest rfl (by simpa using (List.cons.inj htake).1)

/-! ## Binary tokens -/

/-- The `l` bytes after the first `r` survive a cut behind them. -/
theorem take_drop_take_append {x : List UInt8} {r l : Nat} (hr : r ≤ x.length)
    (hl : l ≤ x.length - r) (z : List UInt8) :
    ((x.take (r + l) ++ z).drop r).take l = (x.drop r).take l := by
  have hdata : l ≤ ((x.drop r).take l).length := by simp; omega
  rw [List.take_add, List.append_assoc, List.drop_left' (by simp; omega),
    List.take_append_of_le_length hdata, List.take_take, Nat.min_self]

theorem parseBinaryString_ok {pos : Nat} {x : List UInt8} {t : Token} {n : Nat}
    (h : parseBinaryString pos x = .ok (t, n)) :
    n ≤ x.length ∧ ∀ pos' z, parseBinaryString pos' (x.take n ++ z) = .ok (t, n) := by
  rw [parseBinaryString] at h
  split at h
  · cases h
  · rename_i len read hread
    obtain ⟨_, hle, hlocal⟩ := readVarint_ok hread
    split at h
    · cases h
    · rename_i hneg
      split at h
      · rename_i hfit
        cases h
        refine ⟨by omega, fun pos' z => ?_⟩
        have hread' : readVarint (x.take (read + len.toInt.toNat) ++ z) = .ok (len, read) := by
          rw [List.take_add, List.append_assoc]
          exact hlocal _
        have hfit' : len.toInt.toNat ≤ (x.take (read + len.toInt.toNat) ++ z).length - read := by
          rw [List.length_append, List.length_take]
          omega
        rw [parseBinaryString, hread']
        simp only [if_neg hneg, if_pos hfit', take_drop_take_append hle hfit z]
      · cases h

/-- **A binary token is determined by its own bytes.** -/
theorem parseBinaryPayload_ok {pos : Nat} {byte : UInt8} {x : List UInt8} {t : Token} {n : Nat}
    (h : parseBinaryPayload pos byte x = .ok (t, n)) :
    n ≤ x.length ∧ ∀ pos' z, parseBinaryPayload pos' byte (x.take n ++ z) = .ok (t, n) := by
  unfold parseBinaryPayload at h
  split at h
  · exact parseBinaryString_ok h
  · obtain ⟨⟨v, k⟩, hv, heq⟩ := ExceptList.map_eq_ok.mp h
    cases heq
    obtain ⟨_, hle, hlocal⟩ := readVarint_ok hv
    exact ⟨hle, fun _ z => ExceptList.map_eq_ok.mpr ⟨_, hlocal z, rfl⟩⟩
  · rw [parseBinaryDouble] at h
    split at h
    · rename_i hlen
      cases h
      refine ⟨hlen, fun pos' z => ?_⟩
      have hlen' : 8 ≤ (x.take 8 ++ z).length := by simp; omega
      rw [parseBinaryPayload, parseBinaryDouble, if_pos hlen',
        List.take_append_of_le_length (by simp; omega), List.take_take, Nat.min_self]
    · cases h
  · cases h
    exact ⟨Nat.zero_le _, fun _ _ => rfl⟩
  · cases h
    exact ⟨Nat.zero_le _, fun _ _ => rfl⟩
  · obtain ⟨⟨v, k⟩, hv, heq⟩ := ExceptList.map_eq_ok.mp h
    cases heq
    obtain ⟨_, hle, hlocal⟩ := readUvarint_ok hv
    exact ⟨hle, fun _ z => ExceptList.map_eq_ok.mpr ⟨_, hlocal z, rfl⟩⟩
  · split at h
    · rename_i u hu
      cases h
      refine ⟨Nat.zero_le _, fun pos' z => ?_⟩
      unfold parseBinaryPayload
      split <;> simp_all
    · cases h

theorem parseBinaryToken_ok {pos : Nat} {x : List UInt8} {t : Token} {n : Nat}
    (h : parseBinaryToken pos x = .ok (t, n)) :
    0 < n ∧ n ≤ x.length ∧ ∀ pos' z, parseBinaryToken pos' (x.take n ++ z) = .ok (t, n) := by
  cases x with
  | nil => simp [parseBinaryToken] at h
  | cons byte rest =>
    obtain ⟨⟨u, k⟩, hu, heq⟩ := ExceptList.map_eq_ok.mp h
    cases heq
    obtain ⟨hle, hlocal⟩ := parseBinaryPayload_ok hu
    refine ⟨by omega, by simpa using hle, fun pos' z => ?_⟩
    rw [List.take_succ_cons, List.cons_append, parseBinaryToken, hlocal]
    rfl

/-- **An error of a binary token that is not about missing bytes does not depend on what
comes after.** -/
theorem parseBinaryToken_error {pos : Nat} {x : List UInt8} {e : YsonError}
    (h : parseBinaryToken pos x = .error e) :
    e.isEof = true ∨ ∀ z, parseBinaryToken pos (x ++ z) = .error e := by
  cases x with
  | nil =>
    cases h
    exact Or.inl rfl
  | cons byte rest =>
    rw [parseBinaryToken, ExceptList.map_eq_error] at h
    simp only [List.cons_append, parseBinaryToken, ExceptList.map_eq_error]
    unfold parseBinaryPayload at h
    split at h
    · rw [parseBinaryString] at h
      split at h
      · rename_i e' hread
        cases h
        refine (readVarint_error hread).imp id fun hlocal z => ?_
        rw [parseBinaryPayload, parseBinaryString, hlocal z]
      · rename_i len read hread
        split at h
        · rename_i hneg
          cases h
          refine Or.inr fun z => ?_
          obtain ⟨_, hle, hlocal⟩ := readVarint_ok hread
          have hread' : readVarint (rest ++ z) = .ok (len, read) := by
            have := hlocal (rest.drop read ++ z)
            rwa [← List.append_assoc, List.take_append_drop] at this
          rw [parseBinaryPayload, parseBinaryString, hread']
          simp only [if_pos hneg]
        · split at h
          · cases h
          · cases h
            exact Or.inl rfl
    · refine (readVarint_error (ExceptList.map_eq_error.mp h)).imp id fun hlocal z => ?_
      rw [parseBinaryPayload, hlocal z]
      rfl
    · rw [parseBinaryDouble] at h
      split at h
      · cases h
      · cases h
        exact Or.inl rfl
    · cases h
    · cases h
    · refine (readUvarint_error (ExceptList.map_eq_error.mp h)).imp id fun hlocal z => ?_
      rw [parseBinaryPayload, hlocal z]
      rfl
    · split at h
      · cases h
      · rename_i hnone
        cases h
        refine Or.inr fun z => ?_
        unfold parseBinaryPayload
        split <;> simp_all

/-! ## Quoted strings -/

/-- A quote that was found is found again when the input is cut behind it. -/
theorem findQuote_take {x : List UInt8} {m : Nat} (h : (findQuote x).1 < m) :
    findQuote (x.take m) = findQuote x := by
  fun_induction findQuote x generalizing m with
  | case1 => simp [findQuote]
  | case2 rest =>
    obtain ⟨m, rfl⟩ : ∃ k, m = k + 1 := ⟨m - 1, by omega⟩
    rfl
  | case3 =>
    obtain ⟨m, rfl⟩ : ∃ k, m = k + 2 := ⟨m - 2, by omega⟩
    rfl
  | case4 c rest ih =>
    obtain ⟨m, rfl⟩ : ∃ k, m = k + 2 := ⟨m - 2, by omega⟩
    rw [List.take_succ_cons, List.take_succ_cons, findQuote, ih (by omega)]
  | case5 b rest hq hb1 hb2 ih =>
    obtain ⟨m, rfl⟩ : ∃ k, m = k + 1 := ⟨m - 1, by omega⟩
    rw [List.take_succ_cons, findQuote, ih (by omega)]
    · exact hq
    · rintro rfl -
      cases rest with
      | nil => exact hb1 rfl rfl
      | cons c rest => exact hb2 c rest rfl rfl
    · rintro c r rfl htake
      cases rest with
      | nil => simp at htake
      | cons c' rest => exact hb2 c' rest rfl rfl

theorem octalEscape_alone {d d1 : UInt8} (h : isOctal d1 = false) (x : List UInt8) :
    octalEscape d (d1 :: x) = (d - 0x30, 0) := by
  cases x <;> simp [octalEscape, h]

theorem octalEscape_take {d : UInt8} {x : List UInt8} (z : List UInt8)
    (h : (octalEscape d x).2 < x.length) :
    octalEscape d (x.take ((octalEscape d x).2 + 1) ++ z) = octalEscape d x := by
  cases x with
  | nil => simp [octalEscape] at h
  | cons d1 x =>
    cases h1 : isOctal d1 with
    | false => rw [octalEscape_alone h1, List.take_succ_cons, List.cons_append, octalEscape_alone h1]
    | true =>
      cases x with
      | nil => simp [octalEscape, h1] at h
      | cons d2 x =>
        -- one or two more digits: either way the two bytes looked at are kept
        have hshape : ∃ k, (octalEscape d (d1 :: d2 :: x)).2 = k + 1 := by
          simp only [octalEscape, h1, if_true]
          split <;> [split; skip] <;> exact ⟨_, rfl⟩
        obtain ⟨k, hk⟩ := hshape
        rw [hk, List.take_succ_cons, List.take_succ_cons]
        rfl

theorem unescapeStep_plain {pos : Nat} {b : UInt8} (hb : b ≠ 0x5C) (x : List UInt8) :
    unescapeStep pos b x = .ok (b, 1) := by
  simp [unescapeStep, hb]

theorem unescapeStep_hex {pos : Nat} {h l byte : UInt8} (hhex : hexPair h l = some byte)
    (x : List UInt8) : unescapeStep pos 0x5C (0x78 :: h :: l :: x) = .ok (byte, 4) := by
  simp [unescapeStep, hhex]

theorem unescapeStep_octal {pos : Nat} {d : UInt8} (hd : isOctal d) (x : List UInt8) :
    unescapeStep pos 0x5C (d :: x) = .ok ((octalEscape d x).1, (octalEscape d x).2 + 2) := by
  have hx : d ≠ 0x78 := by rintro rfl; simp [isOctal] at hd
  unfold unescapeStep
  split
  · contradiction
  · split <;> simp_all [Nat.add_comm]

theorem unescapeStep_simple {pos : Nat} {c : UInt8} (hx : c ≠ 0x78) (ho : isOctal c = false)
    (x : List UInt8) : unescapeStep pos 0x5C (c :: x) = .ok (simpleEscape c, 2) := by
  unfold unescapeStep
  split
  · contradiction
  · split <;> simp_all

/-- The four spellings of a character. -/
theorem unescapeStep_cases {pos : Nat} {b : UInt8} {x : List UInt8} {c : UInt8} {used : Nat}
    (h : unescapeStep pos b x = .ok (c, used)) :
    (b ≠ 0x5C ∧ c = b ∧ used = 1) ∨
    (b = 0x5C ∧ ∃ h l r, x = 0x78 :: h :: l :: r ∧ hexPair h l = some c ∧ used = 4) ∨
    (b = 0x5C ∧ ∃ d r, x = d :: r ∧ isOctal d ∧ (c, used) = ((octalEscape d r).1, (octalEscape d r).2 + 2)) ∨
    (b = 0x5C ∧ ∃ e r, x = e :: r ∧ e ≠ 0x78 ∧ isOctal e = false ∧ c = simpleEscape e ∧ used = 2) := by
  by_cases hb : b = 0x5C
  · subst hb
    refine Or.inr ?_
    match x with
    | [] => simp [unescapeStep] at h
    | e :: r =>
      by_cases hx : e = 0x78
      · subst hx
        match r with
        | [] | [_] => simp [unescapeStep] at h
        | h' :: l :: r =>
          cases hhex : hexPair h' l with
          | none => simp [unescapeStep, hhex] at h
          | some byte =>
            rw [unescapeStep_hex hhex] at h
            cases h
            exact Or.inl ⟨rfl, h', l, r, rfl, hhex, rfl⟩
      · cases ho : isOctal e with
        | true =>
          rw [unescapeStep_octal ho] at h
          exact Or.inr (Or.inl ⟨rfl, e, r, rfl, ho, (Except.ok.inj h).symm⟩)
        | false =>
          rw [unescapeStep_simple hx ho] at h
          cases h
          exact Or.inr (Or.inr ⟨rfl, e, r, rfl, hx, ho, rfl, rfl⟩)
  · rw [unescapeStep_plain hb] at h
    cases h
    exact Or.inl ⟨hb, rfl, rfl⟩

/-- A character of the second pass depends on its bytes and the one after them. -/
theorem unescapeStep_ok {pos : Nat} {b : UInt8} {x : List UInt8} {c : UInt8} {used : Nat}
    (h : unescapeStep pos b x = .ok (c, used)) (hlen : used ≤ x.length) :
    0 < used ∧ ∀ pos' z, unescapeStep pos' b (x.take used ++ z) = .ok (c, used) := by
  rcases unescapeStep_cases h with ⟨hb, rfl, rfl⟩ | ⟨rfl, h', l, r, rfl, hhex, rfl⟩ |
    ⟨rfl, d, r, rfl, hd, heq⟩ | ⟨rfl, e, r, rfl, hx, ho, rfl, rfl⟩
  · exact ⟨by omega, fun _ _ => unescapeStep_plain hb _⟩
  · exact ⟨by omega, fun _ _ => unescapeStep_hex hhex _⟩
  · cases heq
    refine ⟨by omega, fun pos' z => ?_⟩
    rw [List.take_succ_cons, List.cons_append, unescapeStep_octal hd,
      octalEscape_take z (by simp at hlen; omega)]
  · exact ⟨by omega, fun _ _ => unescapeStep_simple hx ho _⟩

theorem findQuote_plain {b : UInt8} (hq : b ≠ 0x22) (hb : b ≠ 0x5C) (x : List UInt8) :
    (findQuote (b :: x)).1 = (findQuote x).1 + 1 := by
  rw [findQuote]
  · exact hq
  · exact fun h => absurd h hb
  · exact fun _ _ h => absurd h hb

theorem hexDigit_plain {b c : UInt8} (h : hexDigit b = some c) : b ≠ 0x22 ∧ b ≠ 0x5C := by
  constructor <;> rintro rfl <;> simp [hexDigit] at h

theorem isOctal_plain {b : UInt8} (h : isOctal b) : b ≠ 0x22 ∧ b ≠ 0x5C := by
  constructor <;> rintro rfl <;> simp [isOctal] at h

theorem findQuote_octal {d : UInt8} {x : List UInt8} :
    (findQuote x).1 = (findQuote (x.drop (octalEscape d x).2)).1 + (octalEscape d x).2 := by
  cases x with
  | nil => simp [octalEscape]
  | cons d1 x =>
    cases h1 : isOctal d1 with
    | false => simp [octalEscape_alone h1]
    | true =>
      have hd1 := findQuote_plain (isOctal_plain h1).1 (isOctal_plain h1).2 x
      cases x with
      | nil => simpa [octalEscape, h1] using hd1
      | cons d2 x =>
        simp only [octalEscape, h1, if_true]
        split
        · rename_i h2
          split
          · simp only [hd1, findQuote_plain (isOctal_plain h2).1 (isOctal_plain h2).2,
              List.drop_succ_cons, List.drop_zero]
          · simpa using hd1
        · simpa using hd1

/-- Both passes see the same character: the first skips exactly what the second reads. -/
theorem findQuote_step {pos : Nat} {b : UInt8} {x : List UInt8} {c : UInt8} {used : Nat}
    (hq : b ≠ 0x22) (h : unescapeStep pos b x = .ok (c, used)) :
    (findQuote (b :: x)).1 = (findQuote ((b :: x).drop used)).1 + used := by
  rcases unescapeStep_cases h with ⟨hb, rfl, rfl⟩ | ⟨rfl, h', l, r, rfl, hhex, rfl⟩ |
    ⟨rfl, d, r, rfl, hd, heq⟩ | ⟨rfl, e, r, rfl, hx, ho, rfl, rfl⟩
  · simpa using findQuote_plain hq hb x
  · have hplain : (h' ≠ 0x22 ∧ h' ≠ 0x5C) ∧ l ≠ 0x22 ∧ l ≠ 0x5C := by
      unfold hexPair at hhex
      split at hhex
      · rename_i hplus
        exact ⟨by subst hplus; decide, hexDigit_plain hhex⟩
      · split at hhex
        · rename_i hh hl
          exact ⟨hexDigit_plain hh, hexDigit_plain hl⟩
        · cases hhex
    simp only [findQuote, List.drop_succ_cons, List.drop_zero,
      findQuote_plain hplain.1.1 hplain.1.2, findQuote_plain hplain.2.1 hplain.2.2]
  · cases heq
    simp only [findQuote, List.drop_succ_cons]
    rw [findQuote_octal (d := d) (x := r)]
    omega
  · simp [findQuote]

/-- **The second pass depends only on the bytes up to the closing quote**, which is the one
the first pass found. -/
theorem unescapeLoop_ok {fuel pos : Nat} {x buf : List UInt8} {n : Nat}
    (h : unescapeLoop fuel pos x = .ok (buf, n)) :
    n = (findQuote x).1 + 1 ∧ n ≤ x.length ∧ ∀ fuel' pos' z, n ≤ fuel' →
      unescapeLoop fuel' pos' (x.take n ++ z) = .ok (buf, n) := by
  induction fuel generalizing pos x buf n with
  | zero => simp [unescapeLoop] at h
  | succ fuel ih =>
    cases x with
    | nil => simp [unescapeLoop] at h
    | cons b x =>
      rw [unescapeLoop] at h
      split at h
      · rename_i hq
        cases h
        subst hq
        refine ⟨rfl, by simp, fun fuel' pos' z hfuel => ?_⟩
        obtain ⟨fuel', rfl⟩ : ∃ k, fuel' = k + 1 := ⟨fuel' - 1, by omega⟩
        rfl
      · rename_i hq
        cases hstep : unescapeStep pos b x with
        | error e => simp [hstep, bind, Except.bind] at h
        | ok p =>
          obtain ⟨c, used⟩ := p
          simp only [hstep, bind, Except.bind] at h
          cases hrest : unescapeLoop fuel (pos + used) ((b :: x).drop used) with
          | error e => simp [hrest] at h
          | ok q =>
            obtain ⟨tail, k⟩ := q
            simp only [hrest, Except.ok.injEq, Prod.mk.injEq] at h
            obtain ⟨rfl, rfl⟩ := h
            obtain ⟨hk, hle, hlocal⟩ := ih hrest
            simp only [List.length_drop, List.length_cons] at hle
            obtain ⟨hpos, hstep'⟩ := unescapeStep_ok hstep (by omega)
            refine ⟨by rw [findQuote_step hq hstep]; omega, by simp; omega, ?_⟩
            intro fuel' pos' z hfuel
            obtain ⟨m, rfl⟩ : ∃ m, fuel' = m + 1 := ⟨fuel' - 1, by omega⟩
            obtain ⟨u, rfl⟩ : ∃ u, used = u + 1 := ⟨used - 1, by omega⟩
            obtain ⟨j, rfl⟩ : ∃ j, k = j + 1 := ⟨k - 1, by omega⟩
            have hhead : unescapeStep pos' b (x.take (u + (j + 1)) ++ z) = .ok (c, u + 1) := by
              rw [← Nat.add_assoc, Nat.add_right_comm, List.take_add, List.append_assoc]
              exact hstep' pos' _
            have htail : unescapeLoop m (pos' + (u + 1)) ((x.take (u + (j + 1)) ++ z).drop u)
                = .ok (tail, j + 1) := by
              rw [List.take_add, List.append_assoc, List.drop_left' (by simp; omega)]
              exact hlocal _ _ z (by omega)
            rw [Nat.add_right_comm u 1, List.take_succ_cons, List.cons_append, unescapeLoop, if_neg hq]
            simp only [hhead, bind, Except.bind, List.drop_succ_cons, htail]
            congr 2
            omega

theorem parseTextQuotedString_ok {pos : Nat} {x : List UInt8} {t : Token} {n : Nat}
    (h : parseTextQuotedString pos x = .ok (t, n)) :
    0 < n ∧ n ≤ x.length ∧ ∀ m, n ≤ m → ∀ pos', parseTextQuotedString pos' (x.take m) = .ok (t, n) := by
  rw [parseTextQuotedString] at h
  simp only at h
  split at h
  · cases h
  · rename_i hfound
    split at h
    · rename_i hesc
      cases h
      refine ⟨by omega, by omega, fun m hm pos' => ?_⟩
      have hfound' : ¬ (x.take m).length ≤ (findQuote x).1 := by simp; omega
      simp only [parseTextQuotedString, findQuote_take (x := x) (m := m) (by omega), if_neg hfound',
        if_pos hesc, List.take_take, Nat.min_eq_left (show (findQuote x).1 ≤ m by omega)]
    · rename_i hesc
      cases hloop : unescapeLoop (x.length + 1) pos x with
      | error e => simp [hloop, bind, Except.bind] at h
      | ok p =>
        obtain ⟨buf, k⟩ := p
        simp only [hloop, bind, Except.bind, Except.ok.injEq, Prod.mk.injEq] at h
        obtain ⟨rfl, rfl⟩ := h
        obtain ⟨hk, hle, hlocal⟩ := unescapeLoop_ok hloop
        refine ⟨by omega, hle, fun m hm pos' => ?_⟩
        have hfound' : ¬ (x.take m).length ≤ (findQuote x).1 := by simp; omega
        have hsplit : x.take m = x.take k ++ (x.drop k).take (m - k) := by
          rw [← List.take_add, Nat.add_sub_cancel' hm]
        have hloop' : unescapeLoop ((x.take m).length + 1) pos' (x.take m) = .ok (buf, k) := by
          conv_lhs => rw [hsplit]
          exact hlocal _ _ _ (by simp; omega)
        simp only [parseTextQuotedString, findQuote_take (x := x) (m := m) (by omega), if_neg hfound',
          if_neg hesc, hloop', bind, Except.bind]

/-! ## The other text tokens -/

theorem numberLen_take {x : List UInt8} {m : Nat} (h : (numberLen x).1 ≤ m) :
    numberLen (x.take m) = numberLen x := by
  fun_induction numberLen x generalizing m with
  | case1 => simp [numberLen]
  | case2 b rest hd ih =>
    obtain ⟨m, rfl⟩ : ∃ k, m = k + 1 := ⟨m - 1, by omega⟩
    rw [List.take_succ_cons, numberLen, if_pos hd, ih (by omega)]
  | case3 b rest hd hmark ih =>
    obtain ⟨m, rfl⟩ : ∃ k, m = k + 1 := ⟨m - 1, by omega⟩
    rw [List.take_succ_cons, numberLen, if_neg hd, if_pos hmark, ih (by omega)]
  | case4 b rest hd hmark hu =>
    obtain ⟨m, rfl⟩ : ∃ k, m = k + 1 := ⟨m - 1, by omega⟩
    rw [List.take_succ_cons, numberLen, if_neg hd, if_neg hmark, if_pos hu]
  | case5 b rest hd hmark hu =>
    cases m with
    | zero => rfl
    | succ m => rw [List.take_succ_cons, numberLen, if_neg hd, if_neg hmark, if_neg hu]

theorem numberLen_le (x : List UInt8) : (numberLen x).1 ≤ x.length := by
  fun_induction numberLen x <;> simp <;> omega

/-- Narrowing a search keeps the first hit, if it still is one. -/
theorem find_narrow {α : Type} {p q : α → Bool} {l : List α} {a : α} (h : l.find? p = some a)
    (hqp : ∀ b, q b → p b) (hq : q a) : l.find? q = some a := by
  induction l with
  | nil => cases h
  | cons b l ih =>
    cases hp : p b with
    | true =>
      obtain rfl : b = a := by simpa [List.find?, hp] using h
      simp [List.find?, hq]
    | false =>
      have hqb : q b = false := Bool.eq_false_iff.mpr fun hqb => by simp [hqp b hqb] at hp
      rw [List.find?, hqb]
      exact ih (by simpa [List.find?, hp] using h)

theorem takeWhile_take {α : Type} {p : α → Bool} {x : List α} {m : Nat}
    (h : (x.takeWhile p).length ≤ m) : (x.take m).takeWhile p = x.takeWhile p := by
  induction x generalizing m with
  | nil => simp
  | cons b x ih =>
    cases hb : p b with
    | false => cases m <;> simp [hb]
    | true =>
      simp only [List.takeWhile_cons, hb, if_true, List.length_cons] at h ⊢
      obtain ⟨m, rfl⟩ : ∃ k, m = k + 1 := ⟨m - 1, by omega⟩
      simp [hb, ih (m := m) (by omega)]

theorem parseTextSpecialValue_ok {x : List UInt8} {t : Token} {n : Nat}
    (h : parseTextSpecialValue x = .ok (t, n)) :
    n ≤ x.length ∧ ∀ m, n ≤ m → parseTextSpecialValue (x.take m) = .ok (t, n) := by
  rw [parseTextSpecialValue] at h
  split at h
  · rename_i name u hfind
    cases h
    have hfirst := List.find?_some hfind
    have hpre : name <+: x := List.isPrefixOf_iff_prefix.mp hfirst
    refine ⟨hpre.length_le, fun m hm => ?_⟩
    rw [parseTextSpecialValue, find_narrow hfind]
    · intro b hb
      exact List.isPrefixOf_iff_prefix.mpr
        ((List.isPrefixOf_iff_prefix.mp hb).trans (List.take_prefix m x))
    · exact List.isPrefixOf_iff_prefix.mpr (List.prefix_take_iff.mpr ⟨hpre, hm⟩)
  · cases h

theorem parseTextUnquotedString_ok {x : List UInt8} {t : Token} {n : Nat}
    (h : parseTextUnquotedString x = .ok (t, n)) :
    0 < n ∧ n ≤ x.length ∧ ∀ m, n ≤ m → parseTextUnquotedString (x.take m) = .ok (t, n) := by
  simp only [parseTextUnquotedString] at h
  split at h
  · cases h
  · rename_i hne
    cases h
    refine ⟨List.length_pos_iff.mpr (by simpa using hne), (List.takeWhile_prefix _).length_le, ?_⟩
    intro m hm
    simp only [parseTextUnquotedString, takeWhile_take hm, if_neg hne]

/-! ## The cursor and the first byte -/

@[simp] theorem skipIgnored_isBinary (it : YsonIterator) :
    it.skipIgnored.isBinary = it.isBinary := by
  unfold YsonIterator.skipIgnored
  split <;> rfl

@[simp] theorem skipIgnored_skipIgnored (it : YsonIterator) :
    it.skipIgnored.skipIgnored = it.skipIgnored := by
  cases hb : it.isBinary with
  | true => simp [YsonIterator.skipIgnored, hb]
  | false =>
    simp only [YsonIterator.skipIgnored, hb, YsonIterator.advance, Bool.false_eq_true, if_false,
      skipIgnoredLen_drop, List.drop_zero, Nat.add_zero]

/-- The byte of a punctuation token. -/
def Token.lead : Token → Option UInt8
  | .beginAttributes => some 0x3C
  | .endAttributes => some 0x3E
  | .beginList => some 0x5B
  | .endList => some 0x5D
  | .beginMap => some 0x7B
  | .endMap => some 0x7D
  | .entity => some 0x23
  | .keyValueSeparator => some 0x3D
  | .itemSeparator => some 0x3B
  | _ => none

theorem punctuation_eq_some {b : UInt8} {t : Token} : punctuation b = some t ↔ t.lead = some b := by
  constructor
  · intro h
    unfold punctuation at h
    split at h <;> cases h <;> rfl
  · intro h
    cases t <;> simp only [Token.lead, Option.some.injEq, reduceCtorEq] at h <;> subst h <;> rfl

/-- `b` is the first byte of token `t`: a punctuation token is its byte, and no other token
starts with one of those. -/
def Leads (b : UInt8) (t : Token) : Prop :=
  t.lead = some b ∨ t.lead = none ∧ punctuation b = none

theorem Leads.eq_iff {b c : UInt8} {t u : Token} (h : Leads b t) (hu : u.lead = some c) :
    b = c ↔ t = u := by
  constructor
  · rintro rfl
    rcases h with h | ⟨_, h⟩
    · exact Option.some.inj ((punctuation_eq_some.mpr h).symm.trans (punctuation_eq_some.mpr hu))
    · rw [punctuation_eq_some.mpr hu] at h
      cases h
  · rintro rfl
    rcases h with h | ⟨h, _⟩ <;> rw [hu] at h
    · exact (Option.some.inj h).symm
    · cases h

@[simp] theorem peekByte_skipIgnored (it : YsonIterator) :
    peekByte it.skipIgnored = peekByte it := by
  simp [peekByte]

theorem parseBinaryToken_leads {pos : Nat} {b : UInt8} {x : List UInt8} {t : Token} {n : Nat}
    (h : parseBinaryToken pos (b :: x) = .ok (t, n)) : Leads b t := by
  obtain ⟨⟨u, k⟩, hk, heq⟩ := ExceptList.map_eq_ok.mp h
  cases heq
  unfold parseBinaryPayload at hk
  split at hk
  · rw [parseBinaryString] at hk
    split at hk
    · cases hk
    · split at hk
      · cases hk
      · split at hk <;> cases hk
        exact Or.inr ⟨rfl, rfl⟩
  · obtain ⟨_, _, heq⟩ := ExceptList.map_eq_ok.mp hk
    cases heq
    exact Or.inr ⟨rfl, rfl⟩
  · rw [parseBinaryDouble] at hk
    split at hk <;> cases hk
    exact Or.inr ⟨rfl, rfl⟩
  · cases hk
    exact Or.inr ⟨rfl, rfl⟩
  · cases hk
    exact Or.inr ⟨rfl, rfl⟩
  · obtain ⟨_, _, heq⟩ := ExceptList.map_eq_ok.mp hk
    cases heq
    exact Or.inr ⟨rfl, rfl⟩
  · split at hk
    · rename_i hu
      cases hk
      exact Or.inl (punctuation_eq_some.mp hu)
    · cases hk

/-! ## Text tokens -/

variable [FloatText]

theorem parseTextNumber_ok {x : List UInt8} {t : Token} {n : Nat}
    (h : parseTextNumber x = .ok (t, n)) :
    n = (numberLen x).1 ∧ ∀ m, n ≤ m → parseTextNumber (x.take m) = .ok (t, n) := by
  rw [parseTextNumber] at h
  cases htok : numberToken (x.take (numberLen x).1) (numberLen x).2.1 (numberLen x).2.2 with
  | error e => simp [htok, bind, Except.bind] at h
  | ok u =>
    simp only [htok, bind, Except.bind, Except.ok.injEq, Prod.mk.injEq] at h
    obtain ⟨rfl, rfl⟩ := h
    refine ⟨rfl, fun m hm => ?_⟩
    rw [parseTextNumber, numberLen_take hm]
    simp only [List.take_take, Nat.min_eq_left hm, htok, bind, Except.bind]

/-- **A text token is read the same when the input is cut behind it.** -/
theorem parseTextToken_ok {pos : Nat} {x : List UInt8} {t : Token} {n : Nat}
    (h : parseTextToken pos x = .ok (t, n)) :
    0 < n ∧ n ≤ x.length ∧ ∀ m, n ≤ m → ∀ pos', parseTextToken pos' (x.take m) = .ok (t, n) := by
  cases x with
  | nil => cases h
  | cons byte rest =>
    rw [parseTextToken] at h
    split at h
    · rename_i u hu
      cases h
      refine ⟨by omega, by simp, fun m hm pos' => ?_⟩
      obtain ⟨m, rfl⟩ : ∃ k, m = k + 1 := ⟨m - 1, by omega⟩
      rw [List.take_succ_cons, parseTextToken, hu]
    · rename_i hnone
      split at h
      · rename_i hq
        obtain ⟨⟨u, k⟩, hk, heq⟩ := ExceptList.map_eq_ok.mp h
        cases heq
        obtain ⟨hpos, hle, hlocal⟩ := parseTextQuotedString_ok hk
        refine ⟨by omega, by simpa using hle, fun m hm pos' => ?_⟩
        obtain ⟨m, rfl⟩ : ∃ k, m = k + 1 := ⟨m - 1, by omega⟩
        rw [List.take_succ_cons, parseTextToken, hnone]
        simp only [if_pos hq, hlocal m (by omega), Except.map]
      · rename_i hq
        split at h
        · rename_i hnum
          obtain ⟨rfl, hlocal⟩ := parseTextNumber_ok h
          have hpos : 0 < (numberLen (byte :: rest)).1 := by
            rw [numberLen, if_pos hnum]
            omega
          refine ⟨hpos, numberLen_le _, fun m hm pos' => ?_⟩
          have := hlocal m hm
          obtain ⟨m, rfl⟩ : ∃ k, m = k + 1 := ⟨m - 1, by omega⟩
          rw [List.take_succ_cons] at this ⊢
          rw [parseTextToken, hnone]
          simp only [if_neg hq, if_pos hnum, this]
        · rename_i hnum
          split at h
          · rename_i hspec
            obtain ⟨⟨u, k⟩, hk, heq⟩ := ExceptList.map_eq_ok.mp h
            cases heq
            obtain ⟨hle, hlocal⟩ := parseTextSpecialValue_ok hk
            refine ⟨by omega, by simpa using hle, fun m hm pos' => ?_⟩
            obtain ⟨m, rfl⟩ : ∃ k, m = k + 1 := ⟨m - 1, by omega⟩
            rw [List.take_succ_cons, parseTextToken, hnone]
            simp only [if_neg hq, if_neg hnum, if_pos hspec, hlocal m (by omega), Except.map]
          · rename_i hspec
            split at h
            · rename_i hun
              obtain ⟨hpos, hle, hlocal⟩ := parseTextUnquotedString_ok h
              refine ⟨hpos, hle, fun m hm pos' => ?_⟩
              have := hlocal m hm
              obtain ⟨m, rfl⟩ : ∃ k, m = k + 1 := ⟨m - 1, by omega⟩
              rw [List.take_succ_cons] at this ⊢
              rw [parseTextToken, hnone]
              simp only [if_neg hq, if_neg hnum, if_neg hspec, if_pos hun, this]
            · cases h

/-! ## Tokens of either encoding -/

theorem parseToken_ok {isBinary : Bool} {pos : Nat} {x : List UInt8} {t : Token} {n : Nat}
    (h : parseToken isBinary pos x = .ok (t, n)) :
    0 < n ∧ n ≤ x.length ∧ ∀ m, n ≤ m → ∀ pos', parseToken isBinary pos' (x.take m) = .ok (t, n) := by
  cases isBinary with
  | false => exact parseTextToken_ok h
  | true =>
    obtain ⟨hpos, hle, hlocal⟩ := parseBinaryToken_ok h
    refine ⟨hpos, hle, fun m hm pos' => ?_⟩
    have hsplit : x.take m = x.take n ++ (x.drop n).take (m - n) := by
      rw [← List.take_add, Nat.add_sub_cancel' hm]
    rw [hsplit]
    exact hlocal pos' _

theorem numberToken_lead {s : List UInt8} {f u : Bool} {t : Token}
    (h : numberToken s f u = .ok t) : t.lead = none := by
  unfold numberToken at h
  split at h <;> [skip; split at h] <;> split at h <;> cases h <;> rfl

theorem parseTextToken_leads {pos : Nat} {b : UInt8} {x : List UInt8} {t : Token} {n : Nat}
    (h : parseTextToken pos (b :: x) = .ok (t, n)) : Leads b t := by
  rw [parseTextToken] at h
  split at h
  · rename_i u hu
    cases h
    exact Or.inl (punctuation_eq_some.mp hu)
  · rename_i hnone
    refine Or.inr ⟨?_, hnone⟩
    split at h
    · obtain ⟨⟨u, k⟩, hk, heq⟩ := ExceptList.map_eq_ok.mp h
      cases heq
      simp only [parseTextQuotedString] at hk
      split at hk
      · cases hk
      · split at hk
        · cases hk
          rfl
        · cases hloop : unescapeLoop (x.length + 1) (pos + 1) x with
          | error e => simp [hloop, bind, Except.bind] at hk
          | ok p =>
            simp only [hloop, bind, Except.bind] at hk
            cases hk
            rfl
    · split at h
      · rw [parseTextNumber] at h
        cases htok : numberToken ((b :: x).take (numberLen (b :: x)).1) (numberLen (b :: x)).2.1
            (numberLen (b :: x)).2.2 with
        | error e => simp [htok, bind, Except.bind] at h
        | ok u =>
          simp only [htok, bind, Except.bind] at h
          cases h
          exact numberToken_lead htok
      · split at h
        · obtain ⟨⟨u, k⟩, hk, heq⟩ := ExceptList.map_eq_ok.mp h
          cases heq
          rw [parseTextSpecialValue] at hk
          split at hk
          · rename_i name u hfind
            cases hk
            have hmem := List.mem_of_find?_eq_some hfind
            simp only [specials, List.mem_cons, Prod.mk.injEq, List.not_mem_nil, or_false] at hmem
            rcases hmem with ⟨_, rfl⟩ | ⟨_, rfl⟩ | ⟨_, rfl⟩ | ⟨_, rfl⟩ | ⟨_, rfl⟩ <;> rfl
          · cases hk
        · split at h
          · simp only [parseTextUnquotedString] at h
            split at h <;> cases h
            rfl
          · cases h

theorem parseToken_leads {isBinary : Bool} {pos : Nat} {b : UInt8} {x : List UInt8} {t : Token}
    {n : Nat} (h : parseToken isBinary pos (b :: x) = .ok (t, n)) : Leads b t := by
  cases isBinary with
  | false => exact parseTextToken_leads h
  | true => exact parseBinaryToken_leads h

theorem parseToken_punctuation {b : UInt8} {t : Token} (h : t.lead = some b) (isBinary : Bool)
    (pos : Nat) (x : List UInt8) : parseToken isBinary pos (b :: x) = .ok (t, 1) := by
  have hp := punctuation_eq_some.mpr h
  cases isBinary with
  | false => simp [parseToken, parseTextToken, hp]
  | true =>
    simp only [parseToken, if_true, parseBinaryToken, parseBinaryPayload]
    split <;> simp_all [punctuation, Except.map]

@[simp] theorem nextToken_skipIgnored (it : YsonIterator) :
    nextToken it.skipIgnored = nextToken it := by
  simp [nextToken]

/-- **A token that can be read announces itself to `peek_byte`**, which leaves it there. -/
theorem peekByte_of_nextToken {it it' : YsonIterator} {t : Token} (h : nextToken it = .ok (t, it')) :
    ∃ b, peekByte it = .ok (b, it.skipIgnored) ∧ Leads b t := by
  obtain ⟨⟨u, n⟩, hu, heq⟩ := ExceptList.map_eq_ok.mp h
  cases heq
  cases hrest : it.skipIgnored.rest with
  | nil =>
    rw [hrest] at hu
    obtain ⟨hpos, hle, _⟩ := parseToken_ok hu
    simp only [List.length_nil] at hle
    omega
  | cons b x =>
    rw [hrest] at hu
    exact ⟨b, by simp [peekByte, hrest], parseToken_leads hu⟩

theorem nextToken_of_lead {it : YsonIterator} {b : UInt8} {x : List UInt8} {t : Token}
    (hrest : it.skipIgnored.rest = b :: x) (ht : t.lead = some b) :
    nextToken it = .ok (t, it.skipIgnored.advance 1) := by
  simp only [nextToken, hrest, parseToken_punctuation ht, Except.map]

end Ytsaurus.Yson
