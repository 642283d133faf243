import Ytsaurus.Proof.Lexer

/-!
# `Proof/Tokens.lean` — runs of tokens

`Lexes it ts it'`: reading one token after another from `it` gives `ts` and ends at `it'`.
Everything said about the two parsers below is said in terms of such runs, and about their bytes
only through them: the scanner and the deserializer are shown to go over the run of some
document, and what that costs in bytes, or whether it can be cut or extended, is said here once
for all runs.

A run is a function of where it begins, so two parsers that go over tokens of the same input go
over the same ones. It can be cut off behind its last token, in either format, and in binary
it can be extended (`YsonIterator.take`, `YsonIterator.extend`); both follow from what
`Proof/Lexer.lean` says of one token by induction on the run. Each token takes a byte at least,
which is what every budget in this development rests on in the end (`Lexes.length_le`).

Whitespace belongs to the token behind it. So runs are stated up to `skipIgnored`, and a run
does not say anything about what is ignored behind its last token.
-/

set_option autoImplicit false

namespace Ytsaurus.Yson

/-! ## Moving, cutting and extending the cursor -/

/-- `it'` is `it` some bytes further on. -/
structure Advanced (it it' : YsonIterator) (n : Nat) : Prop where
  rest : it'.rest = it.rest.drop n
  pos : it'.pos = it.pos + n
  le : n ≤ it.rest.length
  isBinary : it'.isBinary = it.isBinary

theorem Advanced.refl (it : YsonIterator) : Advanced it it 0 := ⟨rfl, rfl, Nat.zero_le _, rfl⟩

theorem Advanced.trans {it₁ it₂ it₃ : YsonIterator} {m n : Nat} (h : Advanced it₁ it₂ m)
    (h' : Advanced it₂ it₃ n) : Advanced it₁ it₃ (m + n) where
  rest := by rw [h'.rest, h.rest, List.drop_drop]
  pos := by rw [h'.pos, h.pos, Nat.add_assoc]
  le := by
    have := h'.le
    rw [h.rest, List.length_drop] at this
    have := h.le
    omega
  isBinary := h'.isBinary.trans h.isBinary

theorem Advanced.ext {it₁ it₂ it₃ : YsonIterator} {n : Nat} (h : Advanced it₁ it₂ n)
    (h' : Advanced it₁ it₃ n) : it₂ = it₃ := by
  obtain ⟨rest, pos, bin⟩ := it₂
  obtain ⟨rest', pos', bin'⟩ := it₃
  simp only [YsonIterator.mk.injEq]
  exact ⟨h.rest.trans h'.rest.symm, h.pos.trans h'.pos.symm, h.isBinary.trans h'.isBinary.symm⟩

theorem Advanced.length {it it' : YsonIterator} {n : Nat} (h : Advanced it it' n) :
    it'.rest.length + n = it.rest.length := by
  have := h.le
  rw [h.rest, List.length_drop]
  omega

theorem advanced_skipIgnored (it : YsonIterator) : ∃ n, Advanced it it.skipIgnored n := by
  cases hb : it.isBinary with
  | true => exact ⟨0, by simpa [YsonIterator.skipIgnored, hb] using Advanced.refl it⟩
  | false =>
    refine ⟨skipIgnoredLen .between it.rest, ?_⟩
    constructor <;> simp [YsonIterator.skipIgnored, hb, YsonIterator.advance, skipIgnoredLen_le]

theorem skipIgnored_length (it : YsonIterator) : it.skipIgnored.rest.length ≤ it.rest.length := by
  obtain ⟨n, hn⟩ := advanced_skipIgnored it
  have := hn.length
  omega

/-- The cursor over the first `m` of the bytes left. -/
def YsonIterator.take (it : YsonIterator) (m : Nat) : YsonIterator :=
  { it with rest := it.rest.take m }

theorem skipIgnored_take {it : YsonIterator} {n m : Nat} (h : Advanced it it.skipIgnored n)
    (hm : n ≤ m) : (it.take m).skipIgnored = it.skipIgnored.take (m - n) := by
  cases hb : it.isBinary with
  | true =>
    have hskip : it.skipIgnored = it := by simp [YsonIterator.skipIgnored, hb]
    have hn : n = 0 := by
      have := h.pos
      rw [hskip] at this
      omega
    simp [YsonIterator.skipIgnored, YsonIterator.take, hb, hn]
  | false =>
    have hn : skipIgnoredLen .between it.rest = n := by
      have := h.pos
      simp only [YsonIterator.skipIgnored, hb, YsonIterator.advance, Bool.false_eq_true,
        if_false] at this
      omega
    simp [YsonIterator.skipIgnored, YsonIterator.take, YsonIterator.advance, hb,
      skipIgnoredLen_take .between (show skipIgnoredLen .between it.rest ≤ m by omega), hn, List.drop_take]

/-- The cursor with more bytes behind those it has. -/
def YsonIterator.extend (it : YsonIterator) (z : List UInt8) : YsonIterator :=
  { it with rest := it.rest ++ z }

theorem skipIgnored_binary {it : YsonIterator} (hb : it.isBinary = true) : it.skipIgnored = it := by
  simp [YsonIterator.skipIgnored, hb]

theorem peekByte_extend {it it' : YsonIterator} {b : UInt8} (hb : it.isBinary = true)
    (h : peekByte it = .ok (b, it')) (z : List UInt8) :
    peekByte (it.extend z) = .ok (b, it'.extend z) := by
  rw [peekByte, skipIgnored_binary hb] at h
  rw [peekByte, skipIgnored_binary (show (it.extend z).isBinary = true from hb)]
  cases hrest : it.rest with
  | nil => simp [hrest] at h
  | cons b' x =>
    simp only [hrest, Except.ok.injEq, Prod.mk.injEq] at h
    obtain ⟨rfl, rfl⟩ := h
    simp [YsonIterator.extend, hrest]

/-! ## Runs -/

variable [FloatText]

inductive Lexes : YsonIterator → List Token → YsonIterator → Prop where
  | nil (it : YsonIterator) : Lexes it [] it
  | cons {it it₁ it₂ : YsonIterator} {t : Token} {ts : List Token} :
      nextToken it = .ok (t, it₁) → Lexes it₁ ts it₂ → Lexes it (t :: ts) it₂

namespace Lexes

variable {it it₁ it₂ it' : YsonIterator} {t : Token} {ts us : List Token}

theorem single (h : nextToken it = .ok (t, it₁)) : Lexes it [t] it₁ := .cons h (.nil _)

theorem cons_iff : Lexes it (t :: ts) it' ↔ ∃ it₁, nextToken it = .ok (t, it₁) ∧ Lexes it₁ ts it' :=
  ⟨fun h => by cases h with | cons h₁ h₂ => exact ⟨_, h₁, h₂⟩, fun ⟨_, h₁, h₂⟩ => .cons h₁ h₂⟩

theorem nil_iff : Lexes it [] it' ↔ it' = it :=
  ⟨fun h => by cases h; rfl, fun h => h ▸ .nil _⟩

theorem append (h : Lexes it ts it₁) (h' : Lexes it₁ us it₂) : Lexes it (ts ++ us) it₂ := by
  induction h with
  | nil => exact h'
  | cons hnext _ ih => exact .cons hnext (ih h')

theorem append_iff : Lexes it (ts ++ us) it' ↔ ∃ it₁, Lexes it ts it₁ ∧ Lexes it₁ us it' := by
  constructor
  · intro h
    induction ts generalizing it with
    | nil => exact ⟨it, .nil _, h⟩
    | cons t ts ih =>
      obtain ⟨it₁, hnext, hrest⟩ := cons_iff.mp h
      obtain ⟨it₂, h₁, h₂⟩ := ih hrest
      exact ⟨it₂, .cons hnext h₁, h₂⟩
  · rintro ⟨_, h₁, h₂⟩
    exact h₁.append h₂

/-- Whitespace in front of a run is not part of it. -/
theorem skipIgnored (h : Lexes it (t :: ts) it') : Lexes it.skipIgnored (t :: ts) it' := by
  obtain ⟨_, hnext, hrest⟩ := cons_iff.mp h
  exact .cons (by rw [nextToken_skipIgnored]; exact hnext) hrest

theorem of_skipIgnored (h : Lexes it.skipIgnored (t :: ts) it') : Lexes it (t :: ts) it' := by
  obtain ⟨_, hnext, hrest⟩ := cons_iff.mp h
  exact .cons (by rwa [nextToken_skipIgnored] at hnext) hrest

theorem peek (h : Lexes it (t :: ts) it') :
    ∃ b, peekByte it = .ok (b, it.skipIgnored) ∧ Leads b t := by
  obtain ⟨_, hnext, _⟩ := cons_iff.mp h
  exact peekByte_of_nextToken hnext

end Lexes

/-! ## Where a run ends -/

theorem nextToken_advanced {it it' : YsonIterator} {t : Token} (h : nextToken it = .ok (t, it')) :
    ∃ n, 0 < n ∧ Advanced it it' n := by
  obtain ⟨⟨u, n⟩, hu, heq⟩ := ExceptList.map_eq_ok.mp h
  cases heq
  obtain ⟨k, hk⟩ := advanced_skipIgnored it
  obtain ⟨hpos, hle, _⟩ := parseToken_ok hu
  exact ⟨k + n, by omega, hk.trans ⟨rfl, rfl, hle, rfl⟩⟩

theorem Lexes.advanced {it it' : YsonIterator} {ts : List Token} (h : Lexes it ts it') :
    ∃ n, ts.length ≤ n ∧ Advanced it it' n := by
  induction h with
  | nil it => exact ⟨0, Nat.le_refl _, .refl it⟩
  | cons hnext _ ih =>
    obtain ⟨m, hpos, hm⟩ := nextToken_advanced hnext
    obtain ⟨n, hlen, hn⟩ := ih
    exact ⟨m + n, by simp only [List.length_cons]; omega, hm.trans hn⟩

/-- A run needs at least one byte a token: the length of the input is enough fuel. -/
theorem Lexes.length_le {it it' : YsonIterator} {ts : List Token} (h : Lexes it ts it') :
    it'.rest.length + ts.length ≤ it.rest.length := by
  obtain ⟨n, hlen, hn⟩ := h.advanced
  have := hn.length
  omega

/-! ## Cutting the input behind a run -/

theorem nextToken_take {it it' : YsonIterator} {t : Token} {n m : Nat}
    (h : nextToken it = .ok (t, it')) (hn : Advanced it it' n) (hm : n ≤ m) :
    nextToken (it.take m) = .ok (t, it'.take (m - n)) := by
  obtain ⟨⟨u, k⟩, hu, heq⟩ := ExceptList.map_eq_ok.mp h
  cases heq
  obtain ⟨j, hj⟩ := advanced_skipIgnored it
  obtain ⟨hpos, hle, hlocal⟩ := parseToken_ok hu
  have hjk : n = j + k := by
    have h₁ := hn.pos
    have h₂ := hj.pos
    simp only [YsonIterator.advance] at h₁
    omega
  subst hjk
  have hskip := skipIgnored_take hj (m := m) (by omega)
  rw [nextToken, hskip]
  simp only [YsonIterator.take, hlocal (m - j) (by omega), Except.map, YsonIterator.advance,
    List.drop_take, Nat.sub_sub]

theorem Lexes.take {it it' : YsonIterator} {ts : List Token} (h : Lexes it ts it') {n m : Nat}
    (hn : Advanced it it' n) (hm : n ≤ m) : Lexes (it.take m) ts (it'.take (m - n)) := by
  induction h generalizing n m with
  | nil it =>
    have : n = 0 := by
      have := hn.pos
      omega
    subst this
    exact .nil _
  | cons hnext hrest ih =>
    obtain ⟨j, _, hj⟩ := nextToken_advanced hnext
    obtain ⟨k, _, hk⟩ := hrest.advanced
    have hjk : n = j + k := by
      have h₁ := hn.pos
      have h₂ := (hj.trans hk).pos
      omega
    subst hjk
    have := ih hk (m := m - j) (by omega)
    rw [Nat.sub_sub] at this
    exact .cons (nextToken_take hnext hj (by omega)) this

/-! ## Appending to the input, in binary -/

theorem nextToken_extend {it it' : YsonIterator} {t : Token} (hb : it.isBinary = true)
    (h : nextToken it = .ok (t, it')) (z : List UInt8) :
    nextToken (it.extend z) = .ok (t, it'.extend z) := by
  obtain ⟨⟨u, k⟩, hu, heq⟩ := ExceptList.map_eq_ok.mp h
  cases heq
  rw [skipIgnored_binary hb] at hu ⊢
  rw [parseToken, if_pos hb] at hu
  obtain ⟨hpos, hle, hlocal⟩ := parseBinaryToken_ok hu
  have hext : parseBinaryToken it.pos (it.rest ++ z) = .ok (t, k) := by
    have := hlocal it.pos (it.rest.drop k ++ z)
    rwa [← List.append_assoc, List.take_append_drop] at this
  rw [nextToken, skipIgnored_binary (show (it.extend z).isBinary = true from hb)]
  simp only [YsonIterator.extend, parseToken, if_pos hb, hext, Except.map, YsonIterator.advance,
    List.drop_append_of_le_length hle]

theorem nextToken_extend_error {it : YsonIterator} {e : YsonError} (hb : it.isBinary = true)
    (h : nextToken it = .error e) (he : e.isEof = false) (z : List UInt8) :
    nextToken (it.extend z) = .error e := by
  have hu := ExceptList.map_eq_error.mp h
  rw [skipIgnored_binary hb, parseToken, if_pos hb] at hu
  rcases parseBinaryToken_error hu with heof | hlocal
  · rw [heof] at he
    cases he
  · rw [nextToken, skipIgnored_binary (show (it.extend z).isBinary = true from hb)]
    simp only [YsonIterator.extend, parseToken, if_pos hb, hlocal z, Except.map]

end Ytsaurus.Yson
