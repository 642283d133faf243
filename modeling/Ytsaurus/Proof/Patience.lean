import Ytsaurus.Proof.ScanStable
import Ytsaurus.Proof.TextCut

/-!
# `Proof/Patience.lean` — the scanner on a beginning of its input

`patientValue` holds of a record in text when every one of its tokens is patient and the last
one shows where it ends. Run on such a record and on a beginning of it side by side, the
scanner does the same on both until the shorter one misses bytes (`scanTree_waits`).

The two cursors stand at the same place of the two inputs as long as the tokens they read are the
same. At the cut there are two ways on. Either the lexer misses bytes on the shorter input, and the
scanner reports them; or it takes what is left for a token of the same kind, which the scanner
does not tell apart from the whole one, and then nothing is left at all and the next look misses
bytes. The second cannot happen at the last token, which is why that one has to show its end.

So the induction is on the scanner's budget, with the two runs related step by step, and the
record's own success (which says that there is a document) is a hypothesis that is taken apart on
the way.
-/

set_option autoImplicit false

namespace Ytsaurus.Yson

variable [FloatText]

/-- The tokens from the cursor on are patient, and the one that ends the input is
self-delimited. -/
def patientRun : Nat → YsonIterator → Bool
  | 0, _ => true
  | fuel + 1, it =>
    match nextToken it with
    | .error _ => true
    | .ok (_, it') =>
      patient (piece it it') && (!it'.rest.isEmpty || selfDelimited (piece it it')) &&
        patientRun fuel it'

def patientValue (bytes : List UInt8) : Bool := patientRun bytes.length (.new bytes false)

/-! ## Running on a beginning of the input -/

/-- A text cursor with patient tokens up to the end of its input. -/
inductive Calm : YsonIterator → Prop where
  | done {it : YsonIterator} : it.isBinary = false → it.rest = [] → Calm it
  | step {it it' : YsonIterator} {t : Token} : it.isBinary = false →
      nextToken it = .ok (t, it') → patient (piece it it') = true →
      (it'.rest = [] → selfDelimited (piece it it') = true) → Calm it' → Calm it

/-- `c` has a beginning of what `it` has, and not all of it. -/
def Cut (it c : YsonIterator) : Prop :=
  c.isBinary = false ∧ ∃ k < it.rest.length, c.rest = it.rest.take k

/-- The outcome on a cut input: bytes are missing (or the budget is used up), or the result
is like the one on the whole input and there still are fewer bytes. -/
def Kept {α β : Type} (R : α → β → Prop) (a : α) (it' : YsonIterator) :
    Except YsonError (β × YsonIterator) → Prop
  | .error e => e.isEof = true ∨ e = .outOfFuel
  | .ok (b, c) => R a b ∧ Calm it' ∧ Cut it' c

/-- What `m` does on a calm input, `m'` does on a beginning of it or waits. -/
def Waits {α β : Type} (R : α → β → Prop) (m : LexM α) (m' : LexM β) : Prop :=
  ∀ it it' a c, m it = .ok (a, it') → Calm it → Cut it c → Kept R a it' (m' c)

namespace Waits

variable {α β γ δ : Type} {R : α → β → Prop} {S : γ → δ → Prop}

theorem bind {m : LexM α} {m' : LexM β} {f : α → LexM γ} {f' : β → LexM δ} (hm : Waits R m m')
    (hf : ∀ a b, R a b → Waits S (f a) (f' b)) : Waits S (m >>= f) (m' >>= f') := by
  intro it it' a c h hcalm hcut
  replace h := StateExcept.bind_eq_ok.mp h
  obtain ⟨x, it₁, hrun, h⟩ := h
  have hkept := hm it it₁ x c hrun hcalm hcut
  cases hrun' : m' c with
  | error e =>
    rw [hrun'] at hkept
    rw [StateExcept.bind_error hrun']
    exact hkept
  | ok p =>
    obtain ⟨y, c₁⟩ := p
    rw [hrun'] at hkept
    rw [StateExcept.bind_ok hrun']
    exact hf x y hkept.1 it₁ it' a c₁ h hkept.2.1 hkept.2.2

theorem pure {a : α} {b : β} (h : R a b) : Waits R (Pure.pure a) (Pure.pure b) := by
  intro it it' x c hrun hcalm hcut
  cases hrun
  exact ⟨h, hcalm, hcut⟩

/-- Nothing is said of a computation that fails on the whole input. -/
theorem throw (e : YsonError) (m' : LexM β) : Waits R (MonadExcept.throw e) m' := by
  intro it it' a c hrun
  cases hrun

theorem unexpected (expected : Expected) (found : Token) (m' : LexM β) :
    Waits R (Yson.unexpected expected found) m' := by
  intro it it' a c hrun
  cases hrun

theorem outOfFuel (m : LexM α) : Waits R m (MonadExcept.throw YsonError.outOfFuel) :=
  fun _ _ _ _ _ _ _ => Or.inr rfl

theorem ite {p : Prop} [Decidable p] {m n : LexM α} {m' n' : LexM β} (hm : Waits R m m')
    (hn : Waits R n n') : Waits R (if p then m else n) (if p then m' else n') := by
  split
  · exact hm
  · exact hn

theorem checkDepth (depth : Nat) : Waits Eq (Yson.checkDepth depth) (Yson.checkDepth depth) :=
  .ite (.throw _ _) (.pure rfl)

end Waits

/-! ## One token of a cut input -/

variable {it it' c : YsonIterator} {t : Token} {w y : List UInt8} {b : UInt8} {n k : Nat}

/-- A token does not depend on where the cursor says it stands. -/
theorem nextToken_moved {d d' : YsonIterator} (hrest : c.rest = d.rest)
    (hbin : c.isBinary = false) (hbin' : d.isBinary = false) (h : nextToken d = .ok (t, d')) :
    ∃ c', nextToken c = .ok (t, c') ∧ c'.rest = d'.rest ∧ c'.isBinary = false := by
  obtain ⟨⟨u, m⟩, hu, heq⟩ := ExceptList.map_eq_ok.mp h
  cases heq
  obtain ⟨_, _, hlocal⟩ := parseToken_ok hu
  have hskip : c.skipIgnored.rest = d.skipIgnored.rest := by
    simp [YsonIterator.skipIgnored, YsonIterator.advance, hbin, hbin', hrest]
  have hparse := hlocal d.skipIgnored.rest.length
    (by obtain ⟨_, hle, _⟩ := parseToken_ok hu; exact hle) c.skipIgnored.pos
  rw [List.take_length, ← hskip] at hparse
  refine ⟨c.skipIgnored.advance m, ?_, ?_, by simp [YsonIterator.advance, hbin]⟩
  · refine ExceptList.map_eq_ok.mpr ⟨(t, m), ?_, rfl⟩
    rw [skipIgnored_isBinary] at hparse ⊢
    rwa [hbin, ← hbin']
  · simp only [YsonIterator.advance, hskip]

theorem Calm.token (h : Calm it) (hnext : nextToken it = .ok (t, it')) :
    it.isBinary = false ∧ patient (piece it it') = true ∧
      (it'.rest = [] → selfDelimited (piece it it') = true) ∧ Calm it' := by
  cases h with
  | done hb hrest =>
    have := nextToken_shorter hnext
    rw [hrest, List.length_nil] at this
    omega
  | step hb hnext' hpatient hself hcalm =>
    cases hnext.symm.trans hnext'
    exact ⟨hb, hpatient, hself, hcalm⟩

/-- A token that is whole on the cut input. -/
theorem Cut.whole (h : Cut it c) (hcalm : Calm it) (hnext : nextToken it = .ok (t, it'))
    (hn : Advanced it it' n) (hk : n ≤ c.rest.length) :
    ∃ c', nextToken c = .ok (t, c') ∧ Cut it' c' := by
  obtain ⟨hb, k, hlt, hrest⟩ := h
  have hlen : c.rest.length = k := by
    rw [hrest, List.length_take]
    omega
  rw [hlen] at hk
  have htake := nextToken_take hnext hn hk
  obtain ⟨c', hc', hrest', hb'⟩ :=
    nextToken_moved (d := it.take k) hrest hb (hcalm.token hnext).1 htake
  refine ⟨c', hc', hb', k - n, ?_, hrest'⟩
  have := hn.length
  omega

theorem Waits.nextToken : Waits Token.Alike Yson.nextToken Yson.nextToken := by
  intro it it' t c hnext hcalm hcut
  obtain ⟨hb, hpatient, hself, hcalm'⟩ := hcalm.token hnext
  obtain ⟨w, b, y, n, htext⟩ := nextToken_textToken hb hnext
  by_cases hk : n ≤ c.rest.length
  · obtain ⟨c', hc', hcut'⟩ := hcut.whole hcalm hnext htext.advanced hk
    rw [hc']
    exact ⟨.same t, hcalm', hcut'⟩
  · -- the cut goes through the token
    obtain ⟨hbc, k, hlt, hrest⟩ := hcut
    have hlen : c.rest.length = k := by
      rw [hrest, List.length_take]
      omega
    rcases htext.cut hpatient hbc hrest (by omega) with ⟨e, he, heof⟩ |
      ⟨hopen, t', c', hc', hlike, hnil, hbc'⟩
    · rw [he]
      exact Or.inl heof
    · rw [hc']
      refine ⟨hlike, hcalm', hbc', 0, ?_, by rw [hnil, List.take_zero]⟩
      -- a token that can end anywhere is not the last one
      apply List.length_pos_iff.mpr
      intro hend
      rw [hself hend] at hopen
      cases hopen

theorem TextToken.skipIgnored (h : TextToken it it' t w b y n) (hb : it.isBinary = false)
    (hslash : b ≠ 0x2F) :
    it.skipIgnored = { it with rest := b :: y, pos := it.pos + w.length } ∧
      TextToken it.skipIgnored it' t [] b y (n - w.length) := by
  have hcursor := skipIgnored_blank hb h.rest h.blank (skipIgnoredLen_stop h.first hslash _)
  refine ⟨hcursor, ?_⟩
  obtain ⟨m, hparse, hn⟩ := h.parsed hslash
  have hadv := h.advanced
  have hbehind := h.behind
  rw [hcursor]
  refine ⟨rfl, by simp, h.first, ⟨?_, ?_, ?_, hadv.isBinary⟩,
    by simp only [List.length_nil]; omega, ?_⟩
  · rw [hadv.rest, h.rest, List.drop_append]
    simp [hn]
  · rw [hadv.pos]
    show it.pos + n = it.pos + w.length + (n - w.length)
    omega
  · have := hadv.le
    rw [h.rest, List.length_append] at this
    show n - w.length ≤ (b :: y).length
    omega
  · intro _
    exact ⟨m, by simpa using hparse, by simp [hn]⟩

/-- The blanks in front of a token make no difference to it. -/
theorem Calm.skipIgnored (h : Calm it) (hnext : nextToken it = .ok (t, it')) :
    Calm it.skipIgnored := by
  obtain ⟨hb, hpatient, hself, hcalm'⟩ := h.token hnext
  obtain ⟨w, b, y, n, htext⟩ := nextToken_textToken hb hnext
  obtain ⟨hslash, _, _⟩ := (patient_iff htext.piece_eq).mp hpatient
  obtain ⟨_, htext'⟩ := htext.skipIgnored hb hslash
  have hsame : (piece it.skipIgnored it').dropWhile isAsciiWhitespace
      = (piece it it').dropWhile isAsciiWhitespace := by
    rw [htext.piece_eq, htext'.piece_eq, List.length_nil, Nat.sub_zero]
  refine .step (by simpa using hb) (by rw [nextToken_skipIgnored]; exact hnext) ?_ ?_ hcalm'
  · rw [patient, hsame, ← patient]
    exact hpatient
  · intro hend
    rw [selfDelimited, hsame, ← selfDelimited]
    exact hself hend

theorem Waits.peekByte : Waits Eq Yson.peekByte Yson.peekByte := by
  intro it it' b c hpeek hcalm hcut
  cases hcalm with
  | done hb hrest =>
    obtain ⟨_, k, hlt, _⟩ := hcut
    rw [hrest] at hlt
    cases hlt
  | @step _ it₁ t hb hnext hpatient hself hcalm' =>
    have hcalm := Calm.step hb hnext hpatient hself hcalm'
    obtain ⟨w, b', y, n, htext⟩ := nextToken_textToken hb hnext
    obtain ⟨hslash, _, _⟩ := (patient_iff htext.piece_eq).mp hpatient
    obtain ⟨hcursor, _⟩ := htext.skipIgnored hb hslash
    obtain ⟨hbc, k, hlt, hrest⟩ := hcut
    by_cases hblank : k ≤ w.length
    · rw [(htext.cut_blank hbc hrest hblank).2]
      exact Or.inl rfl
    · obtain ⟨j, rfl⟩ : ∃ j, k = w.length + (j + 1) := ⟨k - w.length - 1, by omega⟩
      have hskip := skipIgnored_blank hbc (htext.cut_rest hrest) htext.blank
        (skipIgnoredLen_stop htext.first hslash _)
      have hfull : Yson.peekByte it = .ok (b', it.skipIgnored) := by
        rw [Yson.peekByte, hcursor]
      cases hpeek.symm.trans hfull
      rw [Yson.peekByte, hskip]
      refine ⟨rfl, hcalm.skipIgnored hnext, hbc, j + 1, ?_, ?_⟩
      · rw [hcursor]
        rw [htext.rest, List.length_append] at hlt
        show j + 1 < (b :: y).length
        omega
      · rw [hcursor, List.take_succ_cons]

/-! ## The scanner -/

theorem scanListLoop_waits {tree tree' : LexM Unit} (htree : Waits Eq tree tree') :
    ∀ fuel fuel' : Nat, Waits Eq (scanListLoop tree fuel) (scanListLoop tree' fuel')
  | 0, _ => .throw _ _
  | _ + 1, 0 => .outOfFuel _
  | fuel + 1, fuel' + 1 => by
    have hloop := scanListLoop_waits htree fuel fuel'
    refine .bind .peekByte fun b b' hb => ?_
    subst hb
    refine .ite (.bind .nextToken fun _ _ _ => .pure rfl) (.ite ?_ ?_)
    · exact .bind .nextToken fun _ _ _ => hloop
    · exact .bind htree fun _ _ _ => hloop

theorem scanKey_waits : Waits Eq scanKey scanKey := by
  refine .bind .nextToken fun t t' hlike => ?_
  rcases hlike.string_or with ⟨s, s', rfl, rfl⟩ | hkey
  · refine .bind .nextToken fun u u' hlike' => ?_
    rcases hlike'.separator_or with ⟨rfl, rfl⟩ | hsep
    · exact .pure rfl
    · cases u with
      | keyValueSeparator => exact absurd rfl hsep
      | _ => exact .unexpected _ _ _
  · cases t with
    | string s => exact absurd rfl (hkey s)
    | _ => exact fun _ _ _ _ h => by cases h

theorem scanFragmentLoop_waits {tree tree' : LexM Unit} (htree : Waits Eq tree tree')
    (frag : Fragment) : ∀ fuel fuel' : Nat,
      Waits Eq (scanFragmentLoop tree frag fuel) (scanFragmentLoop tree' frag fuel')
  | 0, _ => .throw _ _
  | _ + 1, 0 => .outOfFuel _
  | fuel + 1, fuel' + 1 => by
    have hloop := scanFragmentLoop_waits htree frag fuel fuel'
    refine .bind .peekByte fun b b' hb => ?_
    subst hb
    refine .ite (.bind .nextToken fun _ _ _ => .pure rfl) (.ite ?_ ?_)
    · exact .bind .nextToken fun _ _ _ => hloop
    · exact .bind scanKey_waits fun _ _ _ => .bind htree fun _ _ _ => hloop

theorem scanObject_waits {tree tree' : Nat → LexM Unit}
    (htree : ∀ depth, Waits Eq (tree depth) (tree' depth)) (fuel fuel' depth : Nat)
    {t t' : Token} (hlike : t.Alike t') :
    Waits Eq (scanObject tree fuel depth t) (scanObject tree' fuel' depth t') := by
  cases hlike with
  | same =>
    cases t with
    | beginList =>
      exact .bind (.checkDepth _) fun _ _ _ => scanListLoop_waits (htree _) fuel fuel'
    | beginMap =>
      exact .bind (.checkDepth _) fun _ _ _ => scanFragmentLoop_waits (htree _) _ fuel fuel'
    | string | int64 | uint64 | double | boolean | entity => exact .pure rfl
    | _ => exact .unexpected _ _ _
  | string s s' => exact .pure rfl
  | number ht ht' =>
    have hplain : ∀ (walk : Nat → LexM Unit) (n : Nat) {u : Token}, u.isNumber = true →
        scanObject walk n depth u = pure () := by
      intro walk n u hu
      cases u with
      | int64 | uint64 | double | boolean => rfl
      | _ => cases hu
    rw [hplain tree fuel ht, hplain tree' fuel' ht']
    exact .pure rfl

/-- **On a beginning of a patient value the scanner waits.** -/
theorem scanTree_waits : ∀ fuel fuel' depth : Nat,
    Waits Eq (scanTree fuel depth) (scanTree fuel' depth)
  | 0, _, _ => .throw _ _
  | _ + 1, 0, _ => .outOfFuel _
  | fuel + 1, fuel' + 1, depth => by
    have htree := fun depth => scanTree_waits fuel fuel' depth
    refine .bind (.checkDepth _) fun _ _ _ => .bind .nextToken fun t t' hlike => ?_
    by_cases ht : t = .beginAttributes
    · rw [if_pos ht, if_pos (hlike.beginAttributes_iff.mp ht)]
      refine .bind (.bind (.checkDepth _) fun _ _ _ =>
        scanFragmentLoop_waits (htree _) _ fuel fuel') fun _ _ _ => ?_
      exact .bind .nextToken fun u u' hu => scanObject_waits htree fuel fuel' depth hu
    · rw [if_neg ht, if_neg fun h => ht (hlike.beginAttributes_iff.mpr h)]
      exact scanObject_waits htree fuel fuel' depth hlike

end Ytsaurus.Yson
