import Ytsaurus.Proof.Scalars

/-!
# `Proof/TextCut.lean` — a text token cut short

A token in text ends where the next byte does not belong to it any more, and the lexer takes
the end of the buffer for such a byte. What it makes of the beginning of a token is therefore
not always "more bytes": `patient` singles out the tokens of which every beginning is either
reported as missing bytes or is a token of the same kind itself.

Most tokens are patient. A quoted string that is cut lacks its quote; a bare word that is cut is a
shorter word. The others are those the lexer decides about before it has seen all of them: a
comment that is cut behind its first `/`, a literal behind `%`, and a number some beginning of
which is no number, as `-` or `1e` are not. `patient` is stated on the bytes of the token
alone, as a test that can be run.

The end of the record is a case of its own: a token that does not show where it ends, as a number
or a bare word, is complete to the lexer wherever it is cut (`selfDelimited`). For either there is
the positive lemma (`TextToken.cut`) and a beginning that shows the opposite
(`TextToken.impatient`, `TextToken.undelimited`), which is what makes the condition exact in
`Proof/Truncation.lean`.
-/

set_option autoImplicit false

namespace Ytsaurus.Yson

/-! ## What a cut leaves of each kind of token -/

/-- A quote that lies behind the cut is not found. -/
theorem findQuote_cut {x : List UInt8} {k : Nat} (h : k ≤ (findQuote x).1) :
    (x.take k).length ≤ (findQuote (x.take k)).1 := by
  fun_induction findQuote x generalizing k with
  | case1 => simp
  | case2 rest =>
    have hk : k = 0 := Nat.le_zero.mp h
    simp [hk]
  | case3 =>
    cases k with
    | zero => simp
    | succ k => simp [findQuote]
  | case4 c rest ih =>
    cases k with
    | zero => simp
    | succ k =>
      cases k with
      | zero => simp [findQuote]
      | succ k =>
        have hrest := ih (k := k) (by omega)
        simp only [List.take_succ_cons, findQuote, List.length_cons]
        omega
  | case5 b rest hq hb1 hb2 ih =>
    cases k with
    | zero => simp
    | succ k =>
      have hrest := ih (k := k) (by omega)
      by_cases hb : b = 0x5C
      · cases rest with
        | nil => exact absurd rfl (hb1 hb)
        | cons c rest => exact absurd rfl (hb2 c rest hb)
      · rw [List.take_succ_cons, findQuote_plain (fun h => hq h) hb, List.length_cons]
        omega

/-- All the bytes in front of the cut belong to the number. -/
theorem numberLen_cut {x : List UInt8} {k : Nat} (h : k ≤ (numberLen x).1) :
    (numberLen (x.take k)).1 = k := by
  fun_induction numberLen x generalizing k with
  | case1 =>
    have hk : k = 0 := Nat.le_zero.mp h
    simp [hk, numberLen]
  | case2 b rest hd ih =>
    cases k with
    | zero => simp [numberLen]
    | succ k => rw [List.take_succ_cons, numberLen, if_pos hd, ih (by omega)]
  | case3 b rest hd hmark ih =>
    cases k with
    | zero => simp [numberLen]
    | succ k => rw [List.take_succ_cons, numberLen, if_neg hd, if_pos hmark, ih (by omega)]
  | case4 b rest hd hmark hu =>
    cases k with
    | zero => simp [numberLen]
    | succ k =>
      have hk : k = 0 := by omega
      rw [List.take_succ_cons, numberLen, if_neg hd, if_neg hmark, if_pos hu, hk]
  | case5 b rest hd hmark hu =>
    have hk : k = 0 := Nat.le_zero.mp h
    simp [hk, numberLen]

theorem takeWhile_cut {α : Type} {p : α → Bool} {x : List α} {k : Nat}
    (h : k ≤ (x.takeWhile p).length) : (x.take k).takeWhile p = x.take k := by
  induction x generalizing k with
  | nil => simp
  | cons b x ih =>
    cases k with
    | zero => simp
    | succ k =>
      cases hb : p b with
      | false => simp [hb] at h
      | true =>
        simp only [List.takeWhile_cons, hb, if_true, List.length_cons] at h
        simp [hb, ih (k := k) (by omega)]

theorem parseTextQuotedString_length {pos : Nat} {x : List UInt8} {t : Token} {n : Nat}
    (h : parseTextQuotedString pos x = .ok (t, n)) : n = (findQuote x).1 + 1 := by
  simp only [parseTextQuotedString] at h
  split at h
  · cases h
  · split at h
    · cases h
      rfl
    · cases hloop : unescapeLoop (x.length + 1) pos x with
      | error e => simp [hloop, bind, Except.bind] at h
      | ok p =>
        obtain ⟨buf, m⟩ := p
        simp only [hloop, bind, Except.bind, Except.ok.injEq, Prod.mk.injEq] at h
        rw [← h.2]
        exact (unescapeLoop_ok hloop).1

theorem parseTextQuotedString_cut {pos : Nat} {x : List UInt8} {t : Token} {n k : Nat}
    (h : parseTextQuotedString pos x = .ok (t, n)) (hk : k < n) (pos' : Nat) :
    ∃ e, parseTextQuotedString pos' (x.take k) = .error e ∧ e.isEof = true := by
  have hn := parseTextQuotedString_length h
  have hmissing := findQuote_cut (x := x) (k := k) (by omega)
  refine ⟨.unexpectedEof (pos' + (findQuote (x.take k)).1), ?_, rfl⟩
  simp only [parseTextQuotedString]
  exact if_pos hmissing

theorem parseTextUnquotedString_cut {x : List UInt8} {t : Token} {n k : Nat}
    (h : parseTextUnquotedString x = .ok (t, n)) (hpos : 0 < k) (hk : k < n) :
    parseTextUnquotedString (x.take k) = .ok (.string (x.take k), k) := by
  simp only [parseTextUnquotedString] at h
  split at h
  · cases h
  · rename_i hne
    cases h
    have hlen : (x.take k).length = k := by
      have := (List.takeWhile_prefix (p := isUnquotedChar) (l := x)).length_le
      rw [List.length_take]
      omega
    have hsome : ¬ (x.take k).isEmpty = true := by
      rw [List.isEmpty_iff]
      intro hnil
      rw [hnil] at hlen
      exact absurd hlen (by simp only [List.length_nil]; omega)
    simp only [parseTextUnquotedString, takeWhile_cut (Nat.le_of_lt hk), if_neg hsome, hlen]

/-! ## Ignored text in front -/

/-- Whitespace and then something that is not ignored. -/
theorem skipIgnoredLen_blank {w z : List UInt8} (hw : ∀ c ∈ w, isAsciiWhitespace c = true) :
    skipIgnoredLen .between (w ++ z) = w.length + skipIgnoredLen .between z := by
  induction w with
  | nil => simp
  | cons b w ih =>
    have hb := hw b List.mem_cons_self
    have hslash : b ≠ 0x2F := by
      rintro rfl
      simp [isAsciiWhitespace] at hb
    rw [List.cons_append, skipIgnoredLen, if_pos hb,
      ih fun c hc => hw c (List.mem_cons_of_mem _ hc), List.length_cons]
    · omega
    · exact fun _ h => absurd h hslash
    · exact fun _ h => absurd h hslash

theorem skipIgnoredLen_stop {b : UInt8} (hb : isAsciiWhitespace b = false) (hslash : b ≠ 0x2F)
    (z : List UInt8) : skipIgnoredLen .between (b :: z) = 0 := by
  rw [skipIgnoredLen, if_neg (by simp [hb])]
  · exact fun _ h => absurd h hslash
  · exact fun _ h => absurd h hslash

theorem skipIgnored_blank {c : YsonIterator} {w z : List UInt8} (hb : c.isBinary = false)
    (hrest : c.rest = w ++ z) (hw : ∀ c ∈ w, isAsciiWhitespace c = true)
    (hz : skipIgnoredLen .between z = 0) :
    c.skipIgnored = { c with rest := z, pos := c.pos + w.length } := by
  have hskip : skipIgnoredLen .between c.rest = w.length := by
    rw [hrest, skipIgnoredLen_blank hw, hz, Nat.add_zero]
  simp only [YsonIterator.skipIgnored, hb, Bool.false_eq_true, if_false, YsonIterator.advance,
    hskip]
  simp [hrest]

theorem dropWhile_first {p : UInt8 → Bool} {x y : List UInt8} {b : UInt8}
    (h : x.dropWhile p = b :: y) : p b = false := by
  have := List.head?_dropWhile_not p x
  rw [h] at this
  simpa using this

/-- The token in `piece` shows where it ends: it is one byte or a quoted string. -/
def selfDelimited (piece : List UInt8) : Bool :=
  match piece.dropWhile isAsciiWhitespace with
  | [] => true
  | b :: rest => b == 0x22 || rest.isEmpty

theorem selfDelimited_iff {b : UInt8} {piece rest : List UInt8}
    (h : piece.dropWhile isAsciiWhitespace = b :: rest) :
    selfDelimited piece = true ↔ b = 0x22 ∨ rest = [] := by
  rw [selfDelimited, h]
  simp

/-! ## Tokens of one kind -/

/-- An integer, a double or a boolean. -/
def Token.isNumber : Token → Bool
  | .int64 _ | .uint64 _ | .double _ | .boolean _ => true
  | _ => false

/-- Equal, two strings or two numbers: the scanner does not tell them apart. -/
inductive Token.Alike : Token → Token → Prop where
  | same (t : Token) : Token.Alike t t
  | string (s s' : List UInt8) : Token.Alike (.string s) (.string s')
  | number {t t' : Token} : t.isNumber = true → t'.isNumber = true → Token.Alike t t'

theorem Token.Alike.string_or {t t' : Token} (h : t.Alike t') :
    (∃ s s', t = .string s ∧ t' = .string s') ∨ ∀ s, t ≠ .string s := by
  cases h with
  | same =>
    cases t with
    | string s => exact Or.inl ⟨s, s, rfl, rfl⟩
    | _ => exact Or.inr fun s h => by cases h
  | string s s' => exact Or.inl ⟨s, s', rfl, rfl⟩
  | number ht _ =>
    refine Or.inr fun s h => ?_
    rw [h] at ht
    cases ht

theorem Token.Alike.separator_or {t t' : Token} (h : t.Alike t') :
    (t = .keyValueSeparator ∧ t' = .keyValueSeparator) ∨ t ≠ .keyValueSeparator := by
  by_cases ht : t = .keyValueSeparator
  · subst ht
    cases h with
    | same => exact Or.inl ⟨rfl, rfl⟩
    | number ht _ => cases ht
  · exact Or.inr ht

theorem Token.Alike.beginAttributes_iff {t t' : Token} (h : t.Alike t') :
    t = .beginAttributes ↔ t' = .beginAttributes := by
  cases h with
  | same => exact Iff.rfl
  | string s s' => exact ⟨fun h => (by cases h), fun h => (by cases h)⟩
  | number ht ht' =>
    constructor <;> rintro rfl
    · cases ht
    · cases ht'

/-- The first byte of a number. -/
def startsNumber (b : UInt8) : Bool := isDigit b || b == 0x2D || b == 0x2B

variable [FloatText]

theorem numberToken_isNumber {s : List UInt8} {f u : Bool} {t : Token}
    (h : numberToken s f u = .ok t) : t.isNumber = true := by
  unfold numberToken at h
  split at h <;> [skip; split at h] <;> split at h <;> cases h <;> rfl

theorem parseTextNumber_isNumber {x : List UInt8} {t : Token} {n : Nat}
    (h : parseTextNumber x = .ok (t, n)) : t.isNumber = true ∧ n = (numberLen x).1 := by
  refine ⟨?_, (parseTextNumber_ok h).1⟩
  obtain ⟨u, hu, h⟩ := ExceptList.bind_eq_ok.mp h
  cases h
  exact numberToken_isNumber hu

/-- A number is never refused for missing bytes. -/
theorem parseTextNumber_error {x : List UInt8} {e : YsonError}
    (h : parseTextNumber x = .error e) : e.isEof = false := by
  rw [parseTextNumber] at h
  cases htok : numberToken (x.take (numberLen x).1) (numberLen x).2.1 (numberLen x).2.2 with
  | ok u => simp [htok, bind, Except.bind] at h
  | error e' =>
    simp only [htok, bind, Except.bind, Except.error.injEq] at h
    subst h
    unfold numberToken at htok
    split at htok <;> [skip; split at htok] <;> split at htok <;> cases htok <;> rfl

/-! ## The tokens that can be cut -/

/-- **Every beginning of the token in `piece` is recognised as one**: no comment stands in
front of it, it is no `%` literal, and if it is a number then so is all it starts with. -/
def patient (piece : List UInt8) : Bool :=
  match piece.dropWhile isAsciiWhitespace with
  | [] => true
  | b :: rest =>
    b != 0x2F && b != 0x25 &&
      (!startsNumber b ||
        (List.range rest.length).all fun k => (parseTextNumber (b :: rest.take k)).isOk)

theorem patient_iff {b : UInt8} {piece rest : List UInt8}
    (h : piece.dropWhile isAsciiWhitespace = b :: rest) :
    patient piece = true ↔ b ≠ 0x2F ∧ b ≠ 0x25 ∧ (startsNumber b = true →
      ∀ k < rest.length, ∃ r, parseTextNumber (b :: rest.take k) = .ok r) := by
  rw [patient, h]
  have hok : ∀ x, (parseTextNumber x).isOk = true ↔ ∃ r, parseTextNumber x = .ok r := by
    intro x
    cases parseTextNumber x with
    | ok r => simp [Except.isOk, Except.toBool]
    | error e => simp [Except.isOk, Except.toBool]
  cases hnum : startsNumber b with
  | false => simp [hnum]
  | true => simp [hnum, hok, and_assoc]

/-- A beginning of a patient token, in front of its last byte. -/
theorem parseTextToken_cut {pos : Nat} {b : UInt8} {y : List UInt8} {t : Token} {m k : Nat}
    (h : parseTextToken pos (b :: y) = .ok (t, m)) (hspec : b ≠ 0x25)
    (hnum : startsNumber b = true → ∃ r, parseTextNumber (b :: y.take k) = .ok r)
    (hk : k + 1 < m) (pos' : Nat) :
    (b = 0x22 ∧ ∃ e, parseTextToken pos' (b :: y.take k) = .error e ∧ e.isEof = true) ∨
      b ≠ 0x22 ∧ ∃ t', parseTextToken pos' (b :: y.take k) = .ok (t', k + 1) ∧ t.Alike t' := by
  rw [parseTextToken] at h ⊢
  cases hp : punctuation b with
  | some u =>
    rw [hp] at h
    cases h
    omega
  | none =>
    rw [hp] at h
    dsimp only at h ⊢
    by_cases hq : b = 0x22
    · left
      rw [if_pos hq] at h ⊢
      obtain ⟨⟨u, n⟩, hu, heq⟩ := ExceptList.map_eq_ok.mp h
      cases heq
      obtain ⟨e, he, heof⟩ := parseTextQuotedString_cut hu (k := k) (by omega) (pos' + 1)
      exact ⟨hq, e, ExceptList.map_eq_error.mpr he, heof⟩
    · right
      refine ⟨hq, ?_⟩
      rw [if_neg hq] at h ⊢
      by_cases hd : startsNumber b = true
      · obtain ⟨⟨t', n⟩, ht'⟩ := hnum hd
        rw [if_pos (show (isDigit b || b == 0x2D || b == 0x2B) = true from hd)] at h ⊢
        obtain ⟨hkind, hm⟩ := parseTextNumber_isNumber h
        obtain ⟨hkind', hn⟩ := parseTextNumber_isNumber ht'
        -- the cut lies inside the number, so all that is left of it is taken
        have hall : (numberLen ((b :: y).take (k + 1))).1 = k + 1 := numberLen_cut (by omega)
        rw [List.take_succ_cons] at hall
        exact ⟨t', by rw [ht', hn, hall], .number hkind hkind'⟩
      · rw [if_neg (show ¬ (isDigit b || b == 0x2D || b == 0x2B) = true from hd),
          if_neg hspec] at h ⊢
        by_cases ha : (isAlpha b || b == 0x5F) = true
        · rw [if_pos ha] at h ⊢
          have hcut := parseTextUnquotedString_cut h (k := k + 1) (by omega) hk
          rw [List.take_succ_cons] at hcut
          obtain ⟨s, rfl⟩ : ∃ s, t = .string s := by
            simp only [parseTextUnquotedString] at h
            split at h <;> cases h
            exact ⟨_, rfl⟩
          exact ⟨_, hcut, .string _ _⟩
        · rw [if_neg ha] at h
          cases h

/-- The first byte alone of a token that does not show where it ends. -/
theorem parseTextToken_head {pos : Nat} {b : UInt8} {y : List UInt8} {t : Token} {m : Nat}
    (h : parseTextToken pos (b :: y) = .ok (t, m)) (hq : b ≠ 0x22) (hm : 1 < m) (pos' : Nat) :
    (∃ e, parseTextToken pos' [b] = .error e ∧ e.isEof = false) ∨
      ∃ t', parseTextToken pos' [b] = .ok (t', 1) ∧ t.Alike t' := by
  by_cases hspec : b = 0x25
  · subst hspec
    exact Or.inl ⟨_, rfl, rfl⟩
  · cases hnum : startsNumber b with
    | false =>
      rcases parseTextToken_cut (k := 0) h hspec (by simp [hnum]) hm pos' with ⟨hq', _⟩ | ⟨_, hok⟩
      · exact absurd hq' hq
      · exact Or.inr hok
    | true =>
      cases hone : parseTextNumber [b] with
      | error e =>
        exact Or.inl ⟨e, by rw [parseTextToken_number hnum, hone], parseTextNumber_error hone⟩
      | ok r =>
        rcases parseTextToken_cut (k := 0) h hspec (fun _ => ⟨r, hone⟩) hm pos' with
          ⟨hq', _⟩ | ⟨_, hok⟩
        · exact absurd hq' hq
        · exact Or.inr hok

/-! ## The cursor on a cut input -/

theorem nextToken_blank {c : YsonIterator} {w z : List UInt8} (hb : c.isBinary = false)
    (hrest : c.rest = w ++ z) (hw : ∀ c ∈ w, isAsciiWhitespace c = true)
    (hz : skipIgnoredLen .between z = 0) :
    nextToken c = (parseTextToken (c.pos + w.length) z).map fun p =>
      (p.1, { c with rest := z.drop p.2, pos := c.pos + w.length + p.2 }) := by
  rw [nextToken, skipIgnored_blank hb hrest hw hz]
  simp only [parseToken, hb, Bool.false_eq_true, if_false]
  rfl

/-- **Where a token of text lies**: behind whitespace, unless a comment starts there. -/
structure TextToken (it it' : YsonIterator) (t : Token) (w : List UInt8) (b : UInt8)
    (y : List UInt8) (n : Nat) : Prop where
  rest : it.rest = w ++ b :: y
  blank : ∀ c ∈ w, isAsciiWhitespace c = true
  first : isAsciiWhitespace b = false
  advanced : Advanced it it' n
  behind : w.length < n
  parsed : b ≠ 0x2F → ∃ m, parseTextToken (it.pos + w.length) (b :: y) = .ok (t, m) ∧
    n = w.length + m

theorem nextToken_textToken {it it' : YsonIterator} {t : Token} (hb : it.isBinary = false)
    (h : nextToken it = .ok (t, it')) : ∃ w b y n, TextToken it it' t w b y n := by
  have hsplit := List.takeWhile_append_dropWhile (p := isAsciiWhitespace) (l := it.rest)
  have hblank : ∀ c ∈ it.rest.takeWhile isAsciiWhitespace, isAsciiWhitespace c = true :=
    fun c hc => List.mem_takeWhile_imp hc
  cases hy : it.rest.dropWhile isAsciiWhitespace with
  | nil =>
    rw [hy] at hsplit
    rw [nextToken_blank hb hsplit.symm hblank rfl] at h
    cases h
  | cons b y =>
    rw [hy] at hsplit
    obtain ⟨⟨u, m⟩, hu, heq⟩ := ExceptList.map_eq_ok.mp h
    cases heq
    have hfirst := dropWhile_first hy
    have hskip := skipIgnoredLen_blank (z := b :: y) hblank
    rw [hsplit] at hskip
    have hcursor : it.skipIgnored = it.advance (skipIgnoredLen .between it.rest) := by
      simp [YsonIterator.skipIgnored, hb]
    obtain ⟨hpos, hle, _⟩ := parseToken_ok hu
    rw [hcursor] at hu hle ⊢
    have hlen := skipIgnoredLen_le .between it.rest
    refine ⟨_, b, y, skipIgnoredLen .between it.rest + m, hsplit.symm, hblank, hfirst, ?_, ?_, ?_⟩
    · refine ⟨?_, ?_, ?_, rfl⟩
      · simp [YsonIterator.advance]
      · simp [YsonIterator.advance, Nat.add_assoc]
      · simp only [YsonIterator.advance, List.length_drop] at hle
        omega
    · omega
    · intro hslash
      rw [skipIgnoredLen_stop hfirst hslash, Nat.add_zero] at hskip
      have hdrop : it.rest.drop (it.rest.takeWhile isAsciiWhitespace).length = b :: y := by
        have hcut := congrArg (List.drop (it.rest.takeWhile isAsciiWhitespace).length) hsplit
        rw [List.drop_left] at hcut
        exact hcut.symm
      refine ⟨m, ?_, by rw [hskip]⟩
      simpa only [parseToken, YsonIterator.advance, hb, Bool.false_eq_true, if_false, hskip,
        hdrop] using hu

/-- The bytes between two cursors. -/
def piece (it it' : YsonIterator) : List UInt8 := it.rest.take (it'.pos - it.pos)

section

variable {it it' c : YsonIterator} {t : Token} {w y : List UInt8} {b : UInt8} {n k : Nat}

theorem TextToken.piece_eq (h : TextToken it it' t w b y n) :
    (piece it it').dropWhile isAsciiWhitespace = b :: y.take (n - w.length - 1) := by
  have hpiece : piece it it' = w ++ b :: y.take (n - w.length - 1) := by
    have hpos : it'.pos - it.pos = w.length + ((n - w.length - 1) + 1) := by
      have := h.advanced.pos
      have := h.behind
      omega
    rw [piece, hpos, h.rest, List.take_length_add_append, List.take_succ_cons]
  rw [hpiece, List.dropWhile_append_of_pos h.blank, List.dropWhile_cons, h.first]
  rfl

/-- The token that follows ends inside what is left of it. -/
theorem TextToken.length (h : TextToken it it' t w b y n) : n - w.length - 1 ≤ y.length := by
  have := h.advanced.le
  rw [h.rest, List.length_append, List.length_cons] at this
  omega

/-- A cut in the whitespace leaves nothing to read. -/
theorem TextToken.cut_blank (h : TextToken it it' t w b y n) (hb : c.isBinary = false)
    (hc : c.rest = it.rest.take k) (hk : k ≤ w.length) :
    nextToken c = .error .eof ∧ peekByte c = .error .eof := by
  have hrest : c.rest = w.take k ++ [] := by
    rw [hc, h.rest, List.take_append_of_le_length hk, List.append_nil]
  have hblank : ∀ x ∈ w.take k, isAsciiWhitespace x = true :=
    fun x hx => h.blank x (List.mem_of_mem_take hx)
  constructor
  · rw [nextToken_blank hb hrest hblank rfl]
    rfl
  · rw [peekByte, skipIgnored_blank hb hrest hblank rfl]

/-- A cut behind the first byte of the token. -/
theorem TextToken.cut_rest (h : TextToken it it' t w b y n)
    (hc : c.rest = it.rest.take (w.length + (k + 1))) : c.rest = w ++ b :: y.take k := by
  rw [hc, h.rest, List.take_length_add_append, List.take_succ_cons]

/-- **A patient token can be cut anywhere**: the lexer misses bytes, or takes what is left
for a token of the same kind. -/
theorem TextToken.cut (h : TextToken it it' t w b y n) (hpatient : patient (piece it it') = true)
    (hb : c.isBinary = false) (hc : c.rest = it.rest.take k) (hk : k < n) :
    (∃ e, nextToken c = .error e ∧ e.isEof = true) ∨
      selfDelimited (piece it it') = false ∧ ∃ t' c', nextToken c = .ok (t', c') ∧ t.Alike t' ∧
        c'.rest = [] ∧ c'.isBinary = false := by
  by_cases hblank : k ≤ w.length
  · exact Or.inl ⟨_, (h.cut_blank hb hc hblank).1, rfl⟩
  · obtain ⟨j, rfl⟩ : ∃ j, k = w.length + (j + 1) := ⟨k - w.length - 1, by omega⟩
    obtain ⟨hslash, hspec, hnum⟩ := (patient_iff h.piece_eq).mp hpatient
    obtain ⟨m, hparse, hn⟩ := h.parsed hslash
    have hlen := h.length
    have htake : (y.take (n - w.length - 1)).take j = y.take j := by
      rw [List.take_take, Nat.min_eq_left (by omega)]
    have hfront : startsNumber b = true → ∃ r, parseTextNumber (b :: y.take j) = .ok r := by
      intro hstart
      have := hnum hstart j (by rw [List.length_take]; omega)
      rwa [htake] at this
    have hcut := parseTextToken_cut (k := j) hparse hspec hfront (by omega) (c.pos + w.length)
    rw [nextToken_blank hb (h.cut_rest hc) h.blank (skipIgnoredLen_stop h.first hslash _)]
    rcases hcut with ⟨_, e, he, heof⟩ | ⟨hq, t', ht', hlike⟩
    · exact Or.inl ⟨e, ExceptList.map_eq_error.mpr he, heof⟩
    · right
      constructor
      · rw [Bool.eq_false_iff]
        intro hself
        rcases (selfDelimited_iff h.piece_eq).mp hself with hquote | hnil
        · exact hq hquote
        · have := congrArg List.length hnil
          rw [List.length_take, List.length_nil] at this
          omega
      · refine ⟨t', _, ExceptList.map_eq_ok.mpr ⟨_, ht', rfl⟩, hlike, ?_, hb⟩
        rw [List.drop_succ_cons, List.drop_eq_nil_iff, List.length_take]
        exact Nat.min_le_left j y.length

/-- **A token that is not patient has a beginning the lexer refuses.** -/
theorem TextToken.impatient (h : TextToken it it' t w b y n) (hb : it.isBinary = false)
    (hpatient : patient (piece it it') = false) :
    ∃ k e, k ≤ n ∧ nextToken (it.take k) = .error e ∧ e.isEof = false := by
  have hlen := h.length
  have hbehind := h.behind
  by_cases hslash : b = 0x2F
  · -- the slash alone opens no comment
    subst hslash
    refine ⟨w.length + (0 + 1), .invalidMarker 0x2F (it.pos + w.length), by omega, ?_, rfl⟩
    rw [nextToken_blank (c := it.take (w.length + (0 + 1))) hb (h.cut_rest rfl) h.blank rfl]
    rfl
  · have hstop : ∀ j, nextToken (it.take (w.length + (j + 1)))
        = (parseTextToken (it.pos + w.length) (b :: y.take j)).map fun p =>
          (p.1, { it.take (w.length + (j + 1)) with
            rest := (b :: y.take j).drop p.2, pos := it.pos + w.length + p.2 }) := fun j =>
      nextToken_blank hb (h.cut_rest rfl) h.blank (skipIgnoredLen_stop h.first hslash _)
    by_cases hspec : b = 0x25
    · subst hspec
      refine ⟨w.length + (0 + 1), .custom .invalidSpecial, by omega, ?_, rfl⟩
      rw [hstop 0]
      rfl
    · -- what is left is a number one of whose beginnings is none
      by_cases hstart : startsNumber b = true
      · by_cases hall : ∀ j < (y.take (n - w.length - 1)).length,
            ∃ r, parseTextNumber (b :: (y.take (n - w.length - 1)).take j) = .ok r
        · have := (patient_iff h.piece_eq).mpr ⟨hslash, hspec, fun _ => hall⟩
          rw [hpatient] at this
          cases this
        · obtain ⟨j, hj, hbad⟩ : ∃ j, j < (y.take (n - w.length - 1)).length ∧
              ¬ ∃ r, parseTextNumber (b :: (y.take (n - w.length - 1)).take j) = .ok r := by
            simpa only [Classical.not_forall, exists_prop] using hall
          rw [List.length_take] at hj
          rw [List.take_take, Nat.min_eq_left (by omega)] at hbad
          cases hparse : parseTextNumber (b :: y.take j) with
          | ok r => exact absurd ⟨r, hparse⟩ hbad
          | error e =>
            refine ⟨w.length + (j + 1), e, by omega, ?_, parseTextNumber_error hparse⟩
            rw [hstop j, parseTextToken_number hstart, hparse]
            rfl
      · have := (patient_iff h.piece_eq).mpr ⟨hslash, hspec, fun hs => absurd hs hstart⟩
        rw [hpatient] at this
        cases this

/-- **A token that does not show where it ends can be cut behind its first byte** without the
lexer missing anything. -/
theorem TextToken.undelimited (h : TextToken it it' t w b y n) (hb : it.isBinary = false)
    (hself : selfDelimited (piece it it') = false) :
    ∃ k < n, (∃ e, nextToken (it.take k) = .error e ∧ e.isEof = false) ∨
      ∃ t' c', nextToken (it.take k) = .ok (t', c') ∧ t.Alike t' ∧ c'.rest = [] ∧
        c'.isBinary = false := by
  have hshape : b ≠ 0x22 ∧ y.take (n - w.length - 1) ≠ [] := by
    rw [← not_or, ← selfDelimited_iff h.piece_eq, hself]
    exact Bool.false_ne_true
  have hlong : w.length + 1 < n := by
    apply Classical.byContradiction
    intro hle
    have hzero : n - w.length - 1 = 0 := by omega
    exact hshape.2 (by rw [hzero, List.take_zero])
  refine ⟨w.length + (0 + 1), by omega, ?_⟩
  by_cases hslash : b = 0x2F
  · subst hslash
    left
    refine ⟨.invalidMarker 0x2F (it.pos + w.length), ?_, rfl⟩
    rw [nextToken_blank (c := it.take (w.length + (0 + 1))) hb (h.cut_rest rfl) h.blank rfl]
    rfl
  · obtain ⟨m, hparse, hn⟩ := h.parsed hslash
    have hhead := parseTextToken_head hparse hshape.1 (by omega) (it.pos + w.length)
    rw [nextToken_blank (c := it.take (w.length + (0 + 1))) hb (h.cut_rest rfl) h.blank
      (skipIgnoredLen_stop h.first hslash _)]
    rcases hhead with ⟨e, he, hnot⟩ | ⟨t', ht', hlike⟩
    · exact Or.inl ⟨e, ExceptList.map_eq_error.mpr he, hnot⟩
    · exact Or.inr ⟨t', _, ExceptList.map_eq_ok.mpr ⟨_, ht', rfl⟩, hlike, rfl, hb⟩

end

end Ytsaurus.Yson
