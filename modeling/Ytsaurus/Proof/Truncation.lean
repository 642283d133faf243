import Ytsaurus.Proof.Patience

/-!
# `Proof/Truncation.lean` — part of a record in text

A reader that has received part of a record scans what it has. In text the scanner answers
`Incomplete` for every cut exactly when the record is patient (`truncation_incomplete_iff`).
A patient record is waited for because the scanner runs on a beginning of it as on the whole;
for any other record a token the lexer refuses is enough, since the scanner never reports
missing bytes where the lexer did not run into the end (`Honest`).

The comment on the scanner promises that running out of bytes is never an error. That is so in
binary; in text a number that is cut to `-` is refused as a number, and a record that ends in a
number or a bare word is complete before it is. `patientValue` is the condition on the bytes: every
token patient, and the last one of a kind that shows where it ends.

The two directions are of different kinds. That patience is enough is a simulation
(`Proof/Patience.lean`). That it is needed is a single cut, at a token that breaks the rule: the
scanner either stops with the lexer's error or, if the token is the last, reports a shorter record
as complete. For the latter the document of the shorter record is exhibited: it is the same
document with another scalar at its end (`Doc.swap_last`), which scans as well.
-/

set_option autoImplicit false

namespace Ytsaurus.Yson

variable [FloatText] {it it' c : YsonIterator} {t : Token}

/-! ## Where the lexer stops -/

/-- Reading tokens from `it` ends in the error `e`. -/
def RunsOut (it : YsonIterator) (e : YsonError) : Prop :=
  ∃ ts c, Lexes it ts c ∧ nextToken c = .error e

theorem RunsOut.unique {e e' : YsonError} (h : RunsOut it e) (h' : RunsOut it e') : e = e' := by
  obtain ⟨ts, c, hlex, herr⟩ := h
  obtain ⟨us, d, hlex', herr'⟩ := h'
  induction hlex generalizing us with
  | nil it =>
    cases hlex' with
    | nil => exact Except.error.inj (herr.symm.trans herr')
    | cons hnext _ => cases herr.symm.trans hnext
  | cons hnext _ ih =>
    cases hlex' with
    | nil => cases hnext.symm.trans herr'
    | cons hnext' hrest' =>
      cases hnext.symm.trans hnext'
      exact ih herr _ hrest'

theorem RunsOut.of_lexes {e : YsonError} {ts : List Token} (hlex : Lexes it ts c)
    (h : RunsOut c e) : RunsOut it e := by
  obtain ⟨us, d, hlex', herr⟩ := h
  exact ⟨ts ++ us, d, hlex.append hlex', herr⟩

theorem RunsOut.of_skipIgnored {e : YsonError} (h : RunsOut it.skipIgnored e) : RunsOut it e := by
  obtain ⟨ts, d, hlex, herr⟩ := h
  cases ts with
  | nil =>
    cases Lexes.nil_iff.mp hlex
    exact ⟨[], it, .nil it, by rwa [nextToken_skipIgnored] at herr⟩
  | cons t ts => exact ⟨t :: ts, d, hlex.of_skipIgnored, herr⟩

/-- `m` reports missing bytes only where the lexer does. -/
structure Honest {α : Type} (m : LexM α) : Prop where
  error : ∀ it e, m it = .error e → e.isEof = true → RunsOut it e
  ok : ∀ it a it', m it = .ok (a, it') → ∀ e, RunsOut it' e → RunsOut it e

namespace Honest

variable {α β : Type}

theorem bind {m : LexM α} {f : α → LexM β} (hm : Honest m) (hf : ∀ a, Honest (f a)) :
    Honest (m >>= f) where
  error := by
    intro it e h heof
    rcases StateExcept.bind_eq_error.mp h with h | ⟨a, it₁, hrun, h⟩
    · exact hm.error it e h heof
    · exact hm.ok it a it₁ hrun e ((hf a).error it₁ e h heof)
  ok := by
    intro it b it' h e hout
    replace h := StateExcept.bind_eq_ok.mp h
    obtain ⟨a, it₁, hrun, h⟩ := h
    exact hm.ok it a it₁ hrun e ((hf a).ok it₁ b it' h e hout)

theorem pure (a : α) : Honest (Pure.pure a : LexM α) where
  error := fun _ _ h => by cases h
  ok := fun _ _ _ h _ hout => by
    cases h
    exact hout

theorem throw {e : YsonError} (he : e.isEof = false) :
    Honest (MonadExcept.throw e : LexM α) where
  error := fun _ _ h heof => by
    cases h
    rw [he] at heof
    cases heof
  ok := fun _ _ _ h => by cases h

theorem unexpected (expected : Expected) (found : Token) :
    Honest (Yson.unexpected expected found : LexM α) where
  error := fun _ _ h heof => by
    cases h
    cases heof
  ok := fun _ _ _ h => by cases h

theorem ite {p : Prop} [Decidable p] {m n : LexM α} (hm : Honest m) (hn : Honest n) :
    Honest (if p then m else n) := by
  split
  · exact hm
  · exact hn

theorem checkDepth (depth : Nat) : Honest (Yson.checkDepth depth) := .ite (.throw rfl) (.pure ())

theorem nextToken : Honest Yson.nextToken where
  error := fun it _ h _ => ⟨[], it, .nil it, h⟩
  ok := fun _ _ _ h _ hout => hout.of_lexes (.single h)

theorem peekByte : Honest Yson.peekByte where
  error := by
    intro it e h _
    rw [Yson.peekByte] at h
    split at h
    · rename_i hrest
      cases h
      refine ⟨[], it, .nil it, ?_⟩
      rw [Yson.nextToken, hrest]
      cases it.skipIgnored.isBinary <;> rfl
    · cases h
  ok := by
    intro it b it' h e hout
    cases lex_peek_ok h
    exact hout.of_skipIgnored

end Honest

theorem scanListLoop_honest {tree : LexM Unit} (htree : Honest tree) :
    ∀ fuel : Nat, Honest (scanListLoop tree fuel)
  | 0 => .throw rfl
  | fuel + 1 => by
    have hloop := scanListLoop_honest htree fuel
    refine .bind .peekByte fun b => .ite (.bind .nextToken fun _ => .pure _) (.ite ?_ ?_)
    · exact .bind .nextToken fun _ => hloop
    · exact .bind htree fun _ => hloop

theorem scanKey_honest : Honest scanKey := by
  refine .bind .nextToken fun t => ?_
  cases t with
  | string s =>
    refine .bind .nextToken fun u => ?_
    cases u with
    | keyValueSeparator => exact .pure _
    | _ => exact .unexpected _ _
  | _ =>
    refine ⟨fun _ _ h heof => ?_, fun _ _ _ h => (by cases h)⟩
    cases h
    cases heof

theorem scanFragmentLoop_honest {tree : LexM Unit} (htree : Honest tree) (frag : Fragment) :
    ∀ fuel : Nat, Honest (scanFragmentLoop tree frag fuel)
  | 0 => .throw rfl
  | fuel + 1 => by
    have hloop := scanFragmentLoop_honest htree frag fuel
    refine .bind .peekByte fun b => .ite (.bind .nextToken fun _ => .pure _) (.ite ?_ ?_)
    · exact .bind .nextToken fun _ => hloop
    · exact .bind scanKey_honest fun _ => .bind htree fun _ => hloop

theorem scanObject_honest {tree : Nat → LexM Unit} (htree : ∀ depth, Honest (tree depth))
    (fuel depth : Nat) (t : Token) : Honest (scanObject tree fuel depth t) := by
  cases t with
  | beginList => exact .bind (.checkDepth _) fun _ => scanListLoop_honest (htree _) fuel
  | beginMap => exact .bind (.checkDepth _) fun _ => scanFragmentLoop_honest (htree _) _ fuel
  | string | int64 | uint64 | double | boolean | entity => exact .pure _
  | _ => exact .unexpected _ _

theorem scanTree_honest : ∀ fuel depth : Nat, Honest (scanTree fuel depth)
  | 0, _ => .throw rfl
  | fuel + 1, depth => by
    have htree := fun depth => scanTree_honest fuel depth
    refine .bind (.checkDepth _) fun _ => .bind .nextToken fun t => .ite ?_ ?_
    · refine .bind (.bind (.checkDepth _) fun _ => scanFragmentLoop_honest (htree _) _ fuel)
        fun _ => ?_
      exact .bind .nextToken fun u => scanObject_honest htree fuel depth u
    · exact scanObject_honest htree fuel depth t

/-! ## The last token of a document -/

omit [FloatText] in
theorem Token.Alike.scalars {t t' : Token} (h : t.Alike t') :
    t = t' ∨ ∃ s s' : Scalar, t = s.token ∧ t' = s'.token := by
  have hnumber : ∀ u : Token, u.isNumber = true → ∃ s : Scalar, u = s.token := by
    intro u hu
    cases u with
    | int64 v => exact ⟨.int64 v, rfl⟩
    | uint64 v => exact ⟨.uint64 v, rfl⟩
    | double v => exact ⟨.double v, rfl⟩
    | boolean v => exact ⟨.boolean v, rfl⟩
    | _ => cases hu
  cases h with
  | same => exact Or.inl rfl
  | string s s' => exact Or.inr ⟨.string s, .string s', rfl, rfl⟩
  | number ht ht' =>
    obtain ⟨s, hs⟩ := hnumber _ ht
    obtain ⟨s', hs'⟩ := hnumber _ ht'
    exact Or.inr ⟨s, s', hs, hs'⟩

omit [FloatText] in
/-- A bracket is no scalar. -/
theorem Scalar.not_last {s : Scalar} {u : Token} {ts us : List Token}
    (h : us ++ [u] = ts ++ [s.token]) (hu : u.lead.isSome = true) : False := by
  obtain ⟨_, rfl⟩ := List.append_singleton_inj.mp h
  cases s <;> cases hu

omit [FloatText] in
/-- A scalar at the end of a document can be any other scalar. -/
theorem Doc.swap_last {limit depth : Nat} {d : Doc} {ts : List Token} {s : Scalar}
    (hscan : d.Scans limit depth) (h : d.toks = ts ++ [s.token]) (s' : Scalar) :
    ∃ d' : Doc, d'.Scans limit depth ∧ d'.toks = ts ++ [s'.token] := by
  cases d with
  | scalar r =>
    obtain ⟨rfl, _⟩ := List.append_singleton_inj.mp (show [] ++ [r.token] = ts ++ [s.token] from h)
    exact ⟨.scalar s', hscan, rfl⟩
  | entity =>
    have hlast : [] ++ [Token.entity] = ts ++ [s.token] := h
    exact (Scalar.not_last hlast rfl).elim
  | list items trail =>
    have hlast : .beginList :: (itemsToks items ++ seps trail) ++ [.endList] = ts ++ [s.token] := by
      rw [← h, Doc.toks]
      simp
    exact (Scalar.not_last hlast rfl).elim
  | map pairs trail =>
    have hlast : .beginMap :: (pairsToks pairs ++ seps trail) ++ [.endMap] = ts ++ [s.token] := by
      rw [← h, Doc.toks]
      simp
    exact (Scalar.not_last hlast rfl).elim
  | attributed pairs trail body =>
    obtain ⟨hblock, hplain, hbody⟩ := hscan
    -- the body carries no block of its own, so it is a scalar
    cases body with
    | scalar r =>
      refine ⟨.attributed pairs trail (.scalar s'), ⟨hblock, rfl, hbody⟩, ?_⟩
      have hsplit : (Token.beginAttributes :: (pairsToks pairs ++ (seps trail ++ [.endAttributes])))
          ++ [r.token] = ts ++ [s.token] := by
        rw [← h]
        simp [Doc.toks]
      obtain ⟨rfl, _⟩ := List.append_singleton_inj.mp hsplit
      simp [Doc.toks]
    | entity =>
      have hlast : .beginAttributes :: (pairsToks pairs ++ (seps trail ++ [.endAttributes]))
          ++ [.entity] = ts ++ [s.token] := by
        rw [← h]
        simp [Doc.toks]
      exact (Scalar.not_last hlast rfl).elim
    | list items trail' =>
      have hlast : .beginAttributes :: (pairsToks pairs ++ (seps trail ++
          .endAttributes :: .beginList :: (itemsToks items ++ seps trail'))) ++ [.endList]
          = ts ++ [s.token] := by
        rw [← h]
        simp [Doc.toks]
      exact (Scalar.not_last hlast rfl).elim
    | map pairs' trail' =>
      have hlast : .beginAttributes :: (pairsToks pairs ++ (seps trail ++
          .endAttributes :: .beginMap :: (pairsToks pairs' ++ seps trail'))) ++ [.endMap]
          = ts ++ [s.token] := by
        rw [← h]
        simp [Doc.toks]
      exact (Scalar.not_last hlast rfl).elim
    | attributed => cases hplain

omit [FloatText] in
theorem Doc.alike_last {limit depth : Nat} {d : Doc} {ts : List Token} {t t' : Token}
    (hscan : d.Scans limit depth) (h : d.toks = ts ++ [t]) (hlike : t.Alike t') :
    ∃ d' : Doc, d'.Scans limit depth ∧ d'.toks = ts ++ [t'] := by
  rcases hlike.scalars with rfl | ⟨s, s', rfl, rfl⟩
  · exact ⟨d, hscan, h⟩
  · exact Doc.swap_last hscan h s'

/-! ## The tokens of a value -/

variable {ts : List Token} {fuel k : Nat}

theorem calm_of_run (hlex : Lexes it ts it') (hb : it.isBinary = false) (hend : it'.rest = [])
    (hfuel : ts.length ≤ fuel) (h : patientRun fuel it = true) : Calm it := by
  induction hlex generalizing fuel with
  | nil it => exact .done hb hend
  | @cons it it₁ it₂ t ts hnext hrest ih =>
    cases fuel with
    | zero => simp at hfuel
    | succ fuel =>
      rw [patientRun, hnext] at h
      simp only [Bool.and_eq_true, Bool.or_eq_true, Bool.not_eq_true', List.isEmpty_eq_false_iff]
        at h
      obtain ⟨n, _, hn⟩ := nextToken_advanced hnext
      have hcalm := ih (hn.isBinary.trans hb) hend (Nat.le_of_succ_le_succ hfuel) h.2
      refine .step hb hnext h.1.1 (fun hnil => ?_) hcalm
      rcases h.1.2 with hne | hself
      · exact absurd hnil hne
      · exact hself

/-- The token that breaks the rule. -/
theorem broken_of_run (hlex : Lexes it ts it') (hend : it'.rest = [])
    (hfuel : ts.length ≤ fuel) (h : patientRun fuel it = false) :
    ∃ ts₁ t ts₂ p p', ts = ts₁ ++ t :: ts₂ ∧ Lexes it ts₁ p ∧ nextToken p = .ok (t, p') ∧
      (patient (piece p p') = false ∨ ts₂ = [] ∧ selfDelimited (piece p p') = false) := by
  induction hlex generalizing fuel with
  | nil it =>
    cases fuel with
    | zero => cases h
    | succ fuel =>
      rw [patientRun] at h
      split at h
      · cases h
      · rename_i hnext
        have := nextToken_shorter hnext
        rw [hend, List.length_nil] at this
        omega
  | @cons it it₁ it₂ t ts hnext hrest ih =>
    cases fuel with
    | zero => simp at hfuel
    | succ fuel =>
      rw [patientRun, hnext] at h
      dsimp only at h
      cases hpatient : patient (piece it it₁) with
      | false => exact ⟨[], t, ts, it, it₁, rfl, .nil it, hnext, Or.inl hpatient⟩
      | true =>
        cases hself : !it₁.rest.isEmpty || selfDelimited (piece it it₁) with
        | false =>
          rw [Bool.or_eq_false_iff, Bool.not_eq_false', List.isEmpty_iff] at hself
          have hnil : ts = [] := by
            have := hrest.length_le
            rw [hself.1, List.length_nil] at this
            exact List.length_eq_zero_iff.mp (by omega)
          exact ⟨[], t, ts, it, it₁, rfl, .nil it, hnext, Or.inr ⟨hnil, hself.2⟩⟩
        | true =>
          rw [hpatient, hself] at h
          obtain ⟨ts₁, u, ts₂, p, p', rfl, hlex', hnext', hbad⟩ :=
            ih hend (Nat.le_of_succ_le_succ hfuel) (by simpa using h)
          exact ⟨t :: ts₁, u, ts₂, p, p', rfl, .cons hnext hlex', hnext', hbad⟩

/-! ## Part of a record -/

theorem scanValue_incomplete_iff {bytes : List UInt8} {f : YsonFormat} :
    scanValue bytes f = .ok .incomplete ↔
      ∃ e, scanTree (bytes.length + 1) 0 (.new bytes f.isBinary) = .error e ∧ e.isEof = true := by
  rw [scanValue]
  constructor
  · intro h
    split at h
    · cases h
    · rename_i e hrun
      split at h
      · exact ⟨e, hrun, ‹_›⟩
      · cases h
  · rintro ⟨e, hrun, heof⟩
    rw [hrun]
    exact if_pos heof

variable {bytes : List UInt8} {d : Doc}

/-- **A cut through a patient value is reported as missing bytes.** -/
theorem scanValue_cut (hd : d.Scans MAX_DEPTH 0) (hlex : Lexes (.new bytes false) d.toks it')
    (hend : it'.rest = []) (hpatient : patientValue bytes = true) (hk : k < bytes.length) :
    scanValue (bytes.take k) .text = .ok .incomplete := by
  have hlen : d.toks.length ≤ bytes.length := by
    have := hlex.length_le
    rw [hend] at this
    simpa [YsonIterator.new] using this
  have hrun := scanTree_reads d (bytes.length + 1) 0 hd (by omega) _ _ hlex
  have hcalm := calm_of_run hlex rfl hend hlen hpatient
  have hcut : Cut (.new bytes false) (.new (bytes.take k) false) := ⟨rfl, k, hk, rfl⟩
  have hkept := scanTree_waits _ ((bytes.take k).length + 1) 0 _ _ _ _ hrun hcalm hcut
  rw [scanValue_incomplete_iff]
  show ∃ e, scanTree ((bytes.take k).length + 1) 0 (.new (bytes.take k) false) = .error e ∧ _
  cases hrun' : scanTree ((bytes.take k).length + 1) 0 (.new (bytes.take k) false) with
  | ok p =>
    rw [hrun'] at hkept
    obtain ⟨_, _, _, j, hj, _⟩ := hkept
    rw [hend] at hj
    cases hj
  | error e =>
    rw [hrun'] at hkept
    rcases hkept with heof | hfuel
    · exact ⟨e, rfl, heof⟩
    · subst hfuel
      exact absurd hrun' (scanTree_funded _ 0 _ (Nat.lt_succ_self _))

/-- Where the lexer refuses a token, the scanner does not report missing bytes. -/
theorem scanValue_refused {e : YsonError} {f : YsonFormat}
    (h : RunsOut (.new bytes f.isBinary) e) (he : e.isEof = false) :
    scanValue bytes f ≠ .ok .incomplete := by
  intro hscan
  obtain ⟨e', hrun, heof⟩ := scanValue_incomplete_iff.mp hscan
  have hout := (scanTree_honest _ 0).error _ e' hrun heof
  rw [hout.unique h, he] at heof
  cases heof

/-- **A value with a token that is not patient can be cut so that no bytes are missed.** -/
theorem scanValue_broken (hd : d.Scans MAX_DEPTH 0) (hlex : Lexes (.new bytes false) d.toks it')
    (hend : it'.rest = []) (hpatient : patientValue bytes = false) :
    ∃ k < bytes.length, scanValue (bytes.take k) .text ≠ .ok .incomplete := by
  have hlen : d.toks.length ≤ bytes.length := by
    have := hlex.length_le
    rw [hend] at this
    simpa [YsonIterator.new] using this
  obtain ⟨ts₁, t, ts₂, p, p', htoks, hfront, hnext, hbad⟩ := broken_of_run hlex hend hlen hpatient
  obtain ⟨n₁, _, hn₁⟩ := hfront.advanced
  have hb : p.isBinary = false := hn₁.isBinary
  obtain ⟨w, b, y, n, htext⟩ := nextToken_textToken hb hnext
  have hroom : n₁ + p.rest.length = bytes.length := by
    have := hn₁.length
    simp only [YsonIterator.new] at this
    omega
  have hle := htext.advanced.le
  -- the tokens in front survive a cut `j` bytes into this one
  have hcut : ∀ j, Lexes (.new (bytes.take (n₁ + j)) false) ts₁ (p.take j) := by
    intro j
    have := hfront.take hn₁ (Nat.le_add_right n₁ j)
    rwa [Nat.add_sub_cancel_left] at this
  have hrefused : ∀ j e, nextToken (p.take j) = .error e → e.isEof = false →
      scanValue (bytes.take (n₁ + j)) .text ≠ .ok .incomplete := fun j e herr he =>
    scanValue_refused (f := .text) ⟨ts₁, p.take j, hcut j, herr⟩ he
  rcases hbad with himpatient | ⟨rfl, hopen⟩
  · obtain ⟨j, e, hj, herr, he⟩ := htext.impatient hb himpatient
    refine ⟨n₁ + j, ?_, hrefused j e herr he⟩
    -- a cut behind the token would leave it readable
    apply Classical.byContradiction
    intro hge
    have hwhole : p.take j = p := by
      rw [YsonIterator.take, List.take_of_length_le (by omega)]
    rw [hwhole, hnext] at herr
    cases herr
  · obtain ⟨j, hj, ⟨e, herr, he⟩ | ⟨t', c', hok, hlike, _, _⟩⟩ := htext.undelimited hb hopen
    · exact ⟨n₁ + j, by omega, hrefused j e herr he⟩
    · -- what is left is a record of its own
      obtain ⟨d', hd', htoks'⟩ := Doc.alike_last hd htoks hlike
      refine ⟨n₁ + j, by omega, ?_⟩
      have hshort : scanValue (bytes.take (n₁ + j)) .text = .ok (.complete c'.pos) := by
        refine scanValue_complete_iff.mpr ⟨d', c', hd', ?_, rfl⟩
        rw [htoks']
        exact (hcut j).append (.single hok)
      rw [hshort]
      intro h
      cases h

/-- **Exactly the patient records are waited for**: every part of one, and only of one, is
reported as incomplete or as the whole. -/
theorem truncation_incomplete_iff {buf : List UInt8} {len : Nat}
    (h : scanValue buf .text = .ok (.complete len)) :
    (∀ k, scanValue (buf.take k) .text = .ok .incomplete ∨
      scanValue (buf.take k) .text = .ok (.complete len)) ↔ patientValue (buf.take len) = true := by
  obtain ⟨hlen, _⟩ := scanValue_take h
  obtain ⟨d, it, hd, hlex, hpos⟩ := scanValue_complete_iff.mp h
  obtain ⟨n, _, hn⟩ := hlex.advanced
  have hn' : n = len := by
    have := hn.pos
    simp only [YsonIterator.new] at this
    omega
  subst hn'
  have hwhole : Lexes (.new (buf.take n) false) d.toks (it.take 0) := by
    have := hlex.take hn (Nat.le_refl n)
    rwa [Nat.sub_self] at this
  have hlength : (buf.take n).length = n := by
    rw [List.length_take]
    omega
  have hinner : ∀ k, k < n → buf.take k = (buf.take n).take k := by
    intro k hk
    rw [List.take_take, Nat.min_eq_left (by omega)]
  constructor
  · intro hall
    cases hpatient : patientValue (buf.take n) with
    | true => rfl
    | false =>
      obtain ⟨k, hk, hbroken⟩ := scanValue_broken hd hwhole rfl hpatient
      rw [hlength] at hk
      rw [← hinner k hk] at hbroken
      rcases hall k with hwait | hdone
      · exact absurd hwait hbroken
      · -- a length of `n` needs `n` bytes
        have := (scanValue_take hdone).1
        rw [List.length_take] at this
        omega
  · intro hpatient k
    by_cases hk : k < n
    · left
      rw [hinner k hk]
      exact scanValue_cut hd hwhole rfl hpatient (by omega)
    · right
      have hcut := hlex.take hn (Nat.le_of_not_lt hk)
      exact scanValue_complete_iff.mpr ⟨d, _, hd, hcut, hpos⟩

omit [FloatText] in
/-- A map with an integer, followed by another record. -/
theorem truncation_incomplete_map :
    @patientValue plainFloatText (ascii "\x7ba=-1;b=\"x\"\x7d") = false ∧
    @patientValue plainFloatText (ascii "\x7ba=12;b=\"x\"\x7d") = true ∧
    (@scanValue plainFloatText ((ascii "\x7ba=12;b=\"x\"\x7d;\x7ba=3\x7d").take 5) .text = .ok .incomplete ∨
      @scanValue plainFloatText ((ascii "\x7ba=12;b=\"x\"\x7d;\x7ba=3\x7d").take 5) .text
        = .ok (.complete 12)) := by
  refine ⟨by decide +kernel, by decide +kernel, ?_⟩
  have hscan : @scanValue plainFloatText (ascii "\x7ba=12;b=\"x\"\x7d;\x7ba=3\x7d") .text
      = .ok (.complete 12) := by decide +kernel
  exact (@truncation_incomplete_iff plainFloatText _ 12 hscan).mpr (by decide +kernel) 5

omit [FloatText] in
/-- A list of one negative number, of which all but the bracket and the sign is missing. -/
theorem truncated_sign_refused :
    @scanValue plainFloatText (ascii "[-5]") .text = .ok (.complete 4) ∧
    @scanValue plainFloatText ((ascii "[-5]").take 2) .text
      = .error (.custom (.invalidInt64 [0x2D])) := by
  decide +kernel

end Ytsaurus.Yson
