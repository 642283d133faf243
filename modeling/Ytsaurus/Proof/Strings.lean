import Ytsaurus.Proof.Spells

/-!
# `Proof/Strings.lean` — strings are no longer than their input

A string token holds no more bytes than it was spelled with, escapes or not, so every
string of a document an input spells fits where the input fits.

This is the reason why the serializer's bound on strings (`isize::MAX`, the largest a `Vec` can
be) is no condition on a value that was decoded: an input is itself a slice, and no string of it
is longer. In binary the length is written in front of the bytes and the bytes have to be there;
in text every byte of the result took one byte of the input at least, an escape more
(`unescapeLoop_length`).
-/

set_option autoImplicit false

namespace Ytsaurus.Yson

/-- How many bytes of text a token carries. -/
def Token.stringLen : Token → Nat
  | .string s => s.length
  | _ => 0

theorem stringLen_of_lead {t : Token} {b : UInt8} (h : t.lead = some b) : t.stringLen = 0 := by
  cases t <;> simp_all [Token.lead, Token.stringLen]

theorem parseBinaryPayload_stringLen {pos : Nat} {byte : UInt8} {x : List UInt8} {t : Token}
    {n : Nat} (h : parseBinaryPayload pos byte x = .ok (t, n)) : t.stringLen ≤ n := by
  unfold parseBinaryPayload at h
  split at h
  · rw [parseBinaryString] at h
    split at h
    · cases h
    · split at h
      · cases h
      · split at h <;> cases h
        simp only [Token.stringLen, List.length_take]
        omega
  · obtain ⟨_, _, heq⟩ := ExceptList.map_eq_ok.mp h
    cases heq
    exact Nat.zero_le _
  · rw [parseBinaryDouble] at h
    split at h <;> cases h
    exact Nat.zero_le _
  · cases h
    exact Nat.zero_le _
  · cases h
    exact Nat.zero_le _
  · obtain ⟨_, _, heq⟩ := ExceptList.map_eq_ok.mp h
    cases heq
    exact Nat.zero_le _
  · split at h
    · rename_i hu
      cases h
      rw [stringLen_of_lead (punctuation_eq_some.mp hu)]
    · cases h

theorem unescapeStep_used {pos : Nat} {b : UInt8} {x : List UInt8} {c : UInt8} {used : Nat}
    (h : unescapeStep pos b x = .ok (c, used)) : 0 < used := by
  rcases unescapeStep_cases h with h | ⟨_, _, _, _, _, _, h⟩ | ⟨_, _, _, _, _, _, h⟩ |
    ⟨_, _, _, _, _, _, _, h⟩ <;> omega

/-- Each byte of the result took at least one byte of the input. -/
theorem unescapeLoop_length {fuel pos : Nat} {x buf : List UInt8} {n : Nat}
    (h : unescapeLoop fuel pos x = .ok (buf, n)) : buf.length < n := by
  induction fuel generalizing pos x buf n with
  | zero => cases h
  | succ fuel ih =>
    cases x with
    | nil => cases h
    | cons b x =>
      rw [unescapeLoop] at h
      split at h
      · cases h
        exact Nat.zero_lt_one
      · cases hstep : unescapeStep pos b x with
        | error e => simp [hstep, bind, Except.bind] at h
        | ok p =>
          obtain ⟨c, used⟩ := p
          cases hrest : unescapeLoop fuel (pos + used) ((b :: x).drop used) with
          | error e => simp [hstep, hrest, bind, Except.bind] at h
          | ok q =>
            obtain ⟨buf', n'⟩ := q
            simp only [hstep, hrest, bind, Except.bind, Except.ok.injEq, Prod.mk.injEq] at h
            obtain ⟨rfl, rfl⟩ := h
            have := ih hrest
            have := unescapeStep_used hstep
            simp only [List.length_cons]
            omega

theorem parseTextQuotedString_stringLen {pos : Nat} {x : List UInt8} {t : Token} {n : Nat}
    (h : parseTextQuotedString pos x = .ok (t, n)) : t.stringLen ≤ n := by
  simp only [parseTextQuotedString] at h
  split at h
  · cases h
  · split at h
    · cases h
      simp only [Token.stringLen, List.length_take]
      omega
    · cases hloop : unescapeLoop (x.length + 1) pos x with
      | error e => simp [hloop, bind, Except.bind] at h
      | ok p =>
        simp only [hloop, bind, Except.bind] at h
        cases h
        exact Nat.le_of_lt (unescapeLoop_length hloop)

theorem parseTextUnquotedString_stringLen {x : List UInt8} {t : Token} {n : Nat}
    (h : parseTextUnquotedString x = .ok (t, n)) : t.stringLen ≤ n := by
  simp only [parseTextUnquotedString] at h
  split at h
  · cases h
  · cases h
    exact Nat.le_refl _

theorem parseTextSpecialValue_stringLen {x : List UInt8} {t : Token} {n : Nat}
    (h : parseTextSpecialValue x = .ok (t, n)) : t.stringLen = 0 := by
  rw [parseTextSpecialValue] at h
  split at h
  · rename_i name u hfind
    cases h
    have hmem := List.mem_of_find?_eq_some hfind
    simp only [specials, List.mem_cons, Prod.mk.injEq, List.not_mem_nil, or_false] at hmem
    rcases hmem with ⟨_, rfl⟩ | ⟨_, rfl⟩ | ⟨_, rfl⟩ | ⟨_, rfl⟩ | ⟨_, rfl⟩ <;> rfl
  · cases h

variable [FloatText]

theorem numberToken_stringLen {s : List UInt8} {f u : Bool} {t : Token}
    (h : numberToken s f u = .ok t) : t.stringLen = 0 := by
  unfold numberToken at h
  split at h <;> [skip; split at h] <;> split at h <;> cases h <;> rfl

theorem parseTextToken_stringLen {pos : Nat} {x : List UInt8} {t : Token} {n : Nat}
    (h : parseTextToken pos x = .ok (t, n)) : t.stringLen ≤ n := by
  cases x with
  | nil => cases h
  | cons byte rest =>
    rw [parseTextToken] at h
    split at h
    · rename_i u hu
      cases h
      rw [stringLen_of_lead (punctuation_eq_some.mp hu)]
      exact Nat.zero_le _
    · split at h
      · obtain ⟨⟨u, k⟩, hk, heq⟩ := ExceptList.map_eq_ok.mp h
        cases heq
        exact Nat.le_succ_of_le (parseTextQuotedString_stringLen hk)
      · split at h
        · rw [parseTextNumber] at h
          cases htok : numberToken ((byte :: rest).take (numberLen (byte :: rest)).1)
              (numberLen (byte :: rest)).2.1 (numberLen (byte :: rest)).2.2 with
          | error e => simp [htok, bind, Except.bind] at h
          | ok u =>
            simp only [htok, bind, Except.bind, Except.ok.injEq, Prod.mk.injEq] at h
            rw [← h.1, numberToken_stringLen htok]
            exact Nat.zero_le _
        · split at h
          · obtain ⟨⟨u, k⟩, hk, heq⟩ := ExceptList.map_eq_ok.mp h
            cases heq
            rw [parseTextSpecialValue_stringLen hk]
            exact Nat.zero_le _
          · split at h
            · exact parseTextUnquotedString_stringLen h
            · cases h

theorem parseToken_stringLen {isBinary : Bool} {pos : Nat} {x : List UInt8} {t : Token} {n : Nat}
    (h : parseToken isBinary pos x = .ok (t, n)) : t.stringLen ≤ n := by
  cases isBinary with
  | false => exact parseTextToken_stringLen h
  | true =>
    rw [parseToken, if_pos rfl] at h
    cases x with
    | nil => cases h
    | cons byte rest =>
      obtain ⟨⟨u, k⟩, hk, heq⟩ := ExceptList.map_eq_ok.mp h
      cases heq
      exact Nat.le_succ_of_le (parseBinaryPayload_stringLen hk)

/-- **A string that was read is no longer than what was left of the input.** -/
theorem Lexes.stringLen_le {it it' : YsonIterator} {ts : List Token} (h : Lexes it ts it') :
    ∀ t ∈ ts, t.stringLen ≤ it.rest.length := by
  induction h with
  | nil => simp
  | @cons it it₁ it₂ t ts hnext _ ih =>
    obtain ⟨n, _, hn⟩ := nextToken_advanced hnext
    have hshort := hn.length
    obtain ⟨⟨u, k⟩, hu, heq⟩ := ExceptList.map_eq_ok.mp hnext
    cases heq
    intro t' ht'
    rcases List.mem_cons.mp ht' with rfl | ht'
    · have hlen := parseToken_stringLen hu
      have hle := (parseToken_ok hu).2.1
      have hskip := skipIgnored_length it
      omega
    · have := ih t' ht'
      omega

theorem Spells.stringLen_le {bytes : List UInt8} {f : YsonFormat} {ts : List Token}
    (h : Spells bytes f ts) : ∀ t ∈ ts, t.stringLen ≤ bytes.length := by
  obtain ⟨it, hlex, _⟩ := h
  exact hlex.stringLen_le

end Ytsaurus.Yson
