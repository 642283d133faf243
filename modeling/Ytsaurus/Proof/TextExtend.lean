import Ytsaurus.Proof.Tokens

/-!
# `Proof/TextExtend.lean` — appending to text

In binary a token is not disturbed by what is appended to the input. In text it is not
either if the lexer saw where it ends: when something of the input is left behind it, or when
it is one of the punctuation tokens. So a run of tokens that ends in a bracket is the same run
whatever follows (`Lexes.extend`).

Each sub-parser of the text lexer stops somewhere, and the statement about it is the same each
time: if it stopped inside the input, it stops at the same place when more follows. For the
whitespace and the comments in front of a token this has an exception, since a `/` at the end of
the input may yet begin a comment; whoever stands in front of another byte is past that.
-/

set_option autoImplicit false

namespace Ytsaurus.Yson

/-! ## Sub-parsers that stopped inside the input -/

theorem findQuote_append {x : List UInt8} (h : (findQuote x).1 < x.length) (z : List UInt8) :
    findQuote (x ++ z) = findQuote x := by
  fun_induction findQuote x with
  | case1 => simp at h
  | case2 rest => rfl
  | case3 => simp at h
  | case4 c rest ih =>
    simp only [List.length_cons] at h
    rw [List.cons_append, List.cons_append, findQuote, ih (by omega)]
  | case5 b rest hq hb1 hb2 ih =>
    simp only [List.length_cons] at h
    rw [List.cons_append, findQuote, ih (by omega)]
    · exact hq
    · rintro rfl hnil
      exact hb1 rfl (List.append_eq_nil_iff.mp hnil).1
    · rintro c r rfl hcons
      cases rest with
      | nil => exact hb1 rfl rfl
      | cons c' rest => exact hb2 c' rest rfl rfl

theorem numberLen_extend {x : List UInt8} (h : (numberLen x).1 < x.length) (z : List UInt8) :
    numberLen (x ++ z) = numberLen x := by
  fun_induction numberLen x with
  | case1 => simp at h
  | case2 b rest hd ih =>
    simp only [List.length_cons] at h
    rw [List.cons_append, numberLen, if_pos hd, ih (by omega)]
  | case3 b rest hd hmark ih =>
    simp only [List.length_cons] at h
    rw [List.cons_append, numberLen, if_neg hd, if_pos hmark, ih (by omega)]
  | case4 b rest hd hmark hu =>
    rw [List.cons_append, numberLen, if_neg hd, if_neg hmark, if_pos hu]
  | case5 b rest hd hmark hu =>
    rw [List.cons_append, numberLen, if_neg hd, if_neg hmark, if_neg hu]

theorem takeWhile_append_stop {α : Type} {p : α → Bool} {x : List α}
    (h : (x.takeWhile p).length < x.length) (z : List α) :
    (x ++ z).takeWhile p = x.takeWhile p := by
  induction x with
  | nil => simp at h
  | cons b x ih =>
    cases hb : p b with
    | false => simp [hb]
    | true =>
      simp only [List.takeWhile_cons, hb, if_true, List.length_cons] at h
      simp [hb, ih (by omega)]

/-- What is skipped ends where something stands that does not begin a comment. -/
theorem skipIgnoredLen_append {mode : SkipMode} {x y : List UInt8} {b : UInt8}
    (h : x.drop (skipIgnoredLen mode x) = b :: y) (hb : b ≠ 0x2F) (z : List UInt8) :
    skipIgnoredLen mode (x ++ z) = skipIgnoredLen mode x := by
  fun_induction skipIgnoredLen mode x with
  | case1 => simp at h
  | case2 rest ih =>
    rw [List.cons_append, List.cons_append, skipIgnoredLen, ih (by simpa [Nat.add_comm 2] using h)]
  | case3 rest ih =>
    rw [List.cons_append, List.cons_append, skipIgnoredLen, ih (by simpa [Nat.add_comm 2] using h)]
  | case4 c rest _ _ hws ih =>
    have hslash : c ≠ 0x2F := by
      rintro rfl
      simp [isAsciiWhitespace] at hws
    rw [List.cons_append, skipIgnoredLen, if_pos hws, ih (by simpa [Nat.add_comm 1] using h)]
    · exact fun _ hc => absurd hc hslash
    · exact fun _ hc => absurd hc hslash
  | case5 c rest hl hbl hws =>
    rw [List.drop_zero] at h
    obtain ⟨rfl, rfl⟩ := List.cons.inj h
    rw [List.cons_append, skipIgnoredLen, if_neg hws]
    · exact fun _ hc => absurd hc hb
    · exact fun _ hc => absurd hc hb
  | case6 rest ih =>
    rw [List.cons_append, skipIgnoredLen, if_pos rfl, ih (by simpa [Nat.add_comm 1] using h)]
  | case7 c rest hnl ih =>
    rw [List.cons_append, skipIgnoredLen, if_neg hnl, ih (by simpa [Nat.add_comm 1] using h)]
  | case8 rest ih =>
    rw [List.cons_append, List.cons_append, skipIgnoredLen, ih (by simpa [Nat.add_comm 2] using h)]
  | case9 c rest hend ih =>
    have hmore : rest ≠ [] := by
      rintro rfl
      simp [skipIgnoredLen] at h
    rw [List.cons_append, skipIgnoredLen, ih (by simpa [Nat.add_comm 1] using h)]
    rintro r rfl hcons
    cases rest with
    | nil => exact hmore rfl
    | cons c' rest => exact hend rest rfl (by rw [(List.cons.inj hcons).1])

theorem parseTextQuotedString_append {pos : Nat} {x : List UInt8} {t : Token} {n : Nat}
    (h : parseTextQuotedString pos x = .ok (t, n)) (z : List UInt8) :
    parseTextQuotedString pos (x ++ z) = .ok (t, n) := by
  rw [parseTextQuotedString] at h
  simp only at h
  split at h
  · cases h
  · rename_i hfound
    have hfound' : ¬ (x ++ z).length ≤ (findQuote x).1 := by
      rw [List.length_append]
      omega
    have hquote := findQuote_append (Nat.lt_of_not_le hfound) z
    split at h
    · rename_i hesc
      cases h
      simp only [parseTextQuotedString, hquote, if_neg hfound', if_pos hesc]
      rw [List.take_append_of_le_length (by omega)]
    · rename_i hesc
      cases hloop : unescapeLoop (x.length + 1) pos x with
      | error e => simp [hloop, bind, Except.bind] at h
      | ok p =>
        obtain ⟨buf, k⟩ := p
        simp only [hloop, bind, Except.bind, Except.ok.injEq, Prod.mk.injEq] at h
        obtain ⟨rfl, rfl⟩ := h
        obtain ⟨_, hle, hlocal⟩ := unescapeLoop_ok hloop
        have hmore := hlocal ((x ++ z).length + 1) pos (x.drop k ++ z)
          (by rw [List.length_append]; omega)
        rw [← List.append_assoc, List.take_append_drop] at hmore
        simp only [parseTextQuotedString, hquote, if_neg hfound', if_neg hesc, hmore, bind,
          Except.bind]

theorem parseTextSpecialValue_extend {x : List UInt8} {t : Token} {n : Nat}
    (h : parseTextSpecialValue x = .ok (t, n)) (z : List UInt8) :
    parseTextSpecialValue (x ++ z) = .ok (t, n) := by
  rw [parseTextSpecialValue] at h
  split at h
  · rename_i name u hfind
    cases h
    have hfirst := List.find?_some hfind
    have hmem := List.mem_of_find?_eq_some hfind
    have hstart : name <+: x := List.isPrefixOf_iff_prefix.mp hfirst
    obtain ⟨r, rfl⟩ := hstart
    rw [List.append_assoc]
    -- the names start with different letters, so the one found is the only one that fits
    simp only [specials, List.mem_cons, Prod.mk.injEq, List.not_mem_nil, or_false] at hmem
    rcases hmem with ⟨rfl, rfl⟩ | ⟨rfl, rfl⟩ | ⟨rfl, rfl⟩ | ⟨rfl, rfl⟩ | ⟨rfl, rfl⟩ <;> rfl
  · cases h

/-! ## Tokens -/

variable [FloatText]

theorem parseTextToken_append {pos : Nat} {x : List UInt8} {t : Token} {n : Nat}
    (h : parseTextToken pos x = .ok (t, n)) (hend : n < x.length ∨ t.lead.isSome = true)
    (z : List UInt8) : parseTextToken pos (x ++ z) = .ok (t, n) := by
  cases x with
  | nil => cases h
  | cons byte rest =>
    have hnolead : t.lead = none → n < (byte :: rest).length := by
      intro hnone
      rcases hend with hlt | hlead
      · exact hlt
      · rw [hnone] at hlead
        cases hlead
    have hleads := parseTextToken_leads h
    rw [List.cons_append]
    rw [parseTextToken] at h ⊢
    cases hp : punctuation byte with
    | some u =>
      rw [hp] at h
      exact h
    | none =>
      have hlt : n < (byte :: rest).length := by
        rcases hleads with hlead | ⟨hnone, _⟩
        · rw [punctuation_eq_some.mpr hlead] at hp
          cases hp
        · exact hnolead hnone
      rw [hp] at h
      dsimp only at h ⊢
      by_cases hq : byte = 0x22
      · rw [if_pos hq] at h ⊢
        obtain ⟨⟨u, k⟩, hk, heq⟩ := ExceptList.map_eq_ok.mp h
        exact ExceptList.map_eq_ok.mpr ⟨_, parseTextQuotedString_append hk z, heq⟩
      · rw [if_neg hq] at h ⊢
        by_cases hd : (isDigit byte || byte == 0x2D || byte == 0x2B) = true
        · rw [if_pos hd] at h ⊢
          have hn : n = (numberLen (byte :: rest)).1 := (parseTextNumber_ok h).1
          have hlen := numberLen_extend (hn ▸ hlt) z
          have htake : (byte :: rest ++ z).take (numberLen (byte :: rest)).1
              = (byte :: rest).take (numberLen (byte :: rest)).1 :=
            List.take_append_of_le_length (by omega)
          simp only [parseTextNumber] at h ⊢
          rw [← List.cons_append, hlen, htake]
          exact h
        · rw [if_neg hd] at h ⊢
          by_cases hspec : byte = 0x25
          · rw [if_pos hspec] at h ⊢
            obtain ⟨⟨u, k⟩, hk, heq⟩ := ExceptList.map_eq_ok.mp h
            exact ExceptList.map_eq_ok.mpr ⟨_, parseTextSpecialValue_extend hk z, heq⟩
          · rw [if_neg hspec] at h ⊢
            by_cases ha : (isAlpha byte || byte == 0x5F) = true
            · rw [if_pos ha] at h ⊢
              have hword : n = ((byte :: rest).takeWhile isUnquotedChar).length := by
                simp only [parseTextUnquotedString] at h
                split at h <;> cases h
                rfl
              have hstop := takeWhile_append_stop (hword ▸ hlt) z
              rw [← List.cons_append]
              simp only [parseTextUnquotedString, hstop] at h ⊢
              exact h
            · rw [if_neg ha] at h
              cases h

/-- **A token the lexer saw the end of is the same whatever follows.** -/
theorem nextToken_extend_text {it it' : YsonIterator} {t : Token} (hb : it.isBinary = false)
    (h : nextToken it = .ok (t, it')) (hend : it'.rest ≠ [] ∨ t.lead.isSome = true)
    (z : List UInt8) : nextToken (it.extend z) = .ok (t, it'.extend z) := by
  obtain ⟨⟨u, n⟩, hu, heq⟩ := ExceptList.map_eq_ok.mp h
  cases heq
  have hskip : it.skipIgnored = it.advance (skipIgnoredLen .between it.rest) := by
    simp [YsonIterator.skipIgnored, hb]
  rw [hskip] at hu hend ⊢
  obtain ⟨_, hle, _⟩ := parseToken_ok hu
  have hparse : parseTextToken (it.advance (skipIgnoredLen .between it.rest)).pos
      (it.advance (skipIgnoredLen .between it.rest)).rest = .ok (t, n) := by
    simpa only [parseToken, YsonIterator.advance, hb, Bool.false_eq_true, if_false] using hu
  have hinside : n < (it.advance (skipIgnoredLen .between it.rest)).rest.length ∨
      t.lead.isSome = true := by
    refine hend.imp (fun hne => ?_) id
    have := List.length_pos_iff.mpr hne
    simp only [YsonIterator.advance, List.length_drop] at this ⊢
    omega
  cases hrest : (it.advance (skipIgnoredLen .between it.rest)).rest with
  | nil =>
    rw [hrest] at hparse
    cases hparse
  | cons b y =>
    have hslash : b ≠ 0x2F := by
      rintro rfl
      rw [hrest] at hparse
      cases hparse
    have hsame : skipIgnoredLen .between (it.rest ++ z) = skipIgnoredLen .between it.rest :=
      skipIgnoredLen_append hrest hslash z
    have hmore := parseTextToken_append hparse hinside z
    have hlen := skipIgnoredLen_le .between it.rest
    have hskip' : (it.extend z).skipIgnored
        = (it.advance (skipIgnoredLen .between it.rest)).extend z := by
      have hcursor : (it.extend z).skipIgnored
          = (it.extend z).advance (skipIgnoredLen .between (it.rest ++ z)) := by
        simp [YsonIterator.skipIgnored, YsonIterator.extend, hb]
      rw [hcursor, hsame]
      simp only [YsonIterator.extend, YsonIterator.advance, YsonIterator.mk.injEq, and_true]
      exact List.drop_append_of_le_length hlen
    rw [nextToken, hskip']
    have hu' : parseToken ((it.advance (skipIgnoredLen .between it.rest)).extend z).isBinary
        ((it.advance (skipIgnoredLen .between it.rest)).extend z).pos
        ((it.advance (skipIgnoredLen .between it.rest)).extend z).rest = .ok (t, n) := by
      have hbin : ((it.advance (skipIgnoredLen .between it.rest)).extend z).isBinary = false := hb
      rw [parseToken, hbin]
      exact hmore
    refine ExceptList.map_eq_ok.mpr ⟨(t, n), hu', ?_⟩
    simp only [YsonIterator.extend, YsonIterator.advance, Prod.mk.injEq, YsonIterator.mk.injEq,
      true_and, and_true]
    exact List.drop_append_of_le_length hle

/-- **A run of tokens that ends in a bracket is the same run whatever follows.** -/
theorem Lexes.extend {it it' : YsonIterator} {ts : List Token} (h : Lexes it ts it')
    (hlast : ∀ t, ts.getLast? = some t → t.lead.isSome = true) (z : List UInt8) :
    Lexes (it.extend z) ts (it'.extend z) := by
  induction h with
  | nil it => exact .nil _
  | @cons it it₁ it₂ t ts hnext hrest ih =>
    cases hb : it.isBinary with
    | true =>
      refine .cons (nextToken_extend hb hnext z) (ih fun u hu => hlast u ?_)
      cases ts with
      | nil => cases hu
      | cons v vs => rw [List.getLast?_cons_cons, hu]
    | false =>
      have hend : it₁.rest ≠ [] ∨ t.lead.isSome = true := by
        cases ts with
        | nil => exact Or.inr (hlast t rfl)
        | cons v vs =>
          left
          intro hnil
          have := hrest.length_le
          rw [hnil] at this
          simp only [List.length_cons, List.length_nil] at this
          omega
      refine .cons (nextToken_extend_text hb hnext hend z) (ih fun u hu => hlast u ?_)
      cases ts with
      | nil => cases hu
      | cons v vs => rw [List.getLast?_cons_cons, hu]

end Ytsaurus.Yson
