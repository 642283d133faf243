import Ytsaurus.Proof.Scan

/-!
# `Proof/ScanStable.lean` — scanning a prefix

What a reader that sees only the beginning of a stream may conclude from `scan_value`. In
binary: a length it reports is the length, and an error it reports is the error, whatever
bytes follow; only "incomplete" is provisional. In text the first fails for a number at the end of
the buffer, and the second for a number that is cut, so nothing is claimed here; see
`Proof/Truncation.lean`.

`Extends m m'` compares two computations, one on some bytes and the other on more. Their outcomes
agree unless the first ran out of bytes, or out of its budget. The relation is kept by
sequencing and by peeking and taking tokens, so it is shown of the scanner by going along its
program, with the budgets free to differ (`scanTree_extends`).

The budget is the model's, not the code's: the code recurses, and the recursion ends because
every level takes a token. `Funded` says that a computation does not run out, and
`scanTree_funded` that the scanner never does when its budget is the number of bytes; the
loops need to know for it that the walk over a nested value moved on, which is
`TreeAccepts` again. With that the third case of `Extends` is void, in either format.
-/

set_option autoImplicit false

namespace Ytsaurus.Yson

variable {α β : Type}

/-! ## Computations that more bytes do not disturb -/

/-- `r` is the outcome on a prefix and `r'` the outcome with `z` appended: they agree unless
the prefix ran out of bytes or the budget was used up. -/
def Extended (z : List UInt8) (r r' : Except YsonError (α × YsonIterator)) : Prop :=
  match r with
  | .ok (a, it) => r' = .ok (a, it.extend z) ∧ it.isBinary = true
  | .error e => e.isEof = true ∨ e = .outOfFuel ∨ r' = .error e

def Extends (m m' : LexM α) : Prop :=
  ∀ (it : YsonIterator) (z : List UInt8), it.isBinary = true → Extended z (m it) (m' (it.extend z))

theorem Extends.bind {m m' : LexM α} {f f' : α → LexM β} (hm : Extends m m')
    (hf : ∀ a, Extends (f a) (f' a)) : Extends (m >>= f) (m' >>= f') := by
  intro it z hb
  have h := hm it z hb
  cases hrun : m it with
  | error e =>
    rw [hrun] at h
    rw [StateExcept.bind_error hrun]
    rcases h with h | h | h
    · exact Or.inl h
    · exact Or.inr (Or.inl h)
    · exact Or.inr (Or.inr (StateExcept.bind_error h))
  | ok p =>
    obtain ⟨a, it₁⟩ := p
    rw [hrun] at h
    rw [StateExcept.bind_ok hrun, StateExcept.bind_ok h.1]
    exact hf a it₁ z h.2

theorem Extends.pure (a : α) : Extends (pure a : LexM α) (pure a) := fun _ _ hb => ⟨rfl, hb⟩

theorem Extends.throw (e : YsonError) : Extends (throw e : LexM α) (throw e) :=
  fun _ _ _ => Or.inr (Or.inr rfl)

theorem Extends.outOfFuel (m : LexM α) : Extends (MonadExcept.throw YsonError.outOfFuel) m :=
  fun _ _ _ => Or.inr (Or.inl rfl)

theorem Extends.ite {c : Prop} [Decidable c] {m m' n n' : LexM α} (hm : Extends m m')
    (hn : Extends n n') : Extends (if c then m else n) (if c then m' else n') := by
  split
  · exact hm
  · exact hn

theorem Extends.peekByte : Extends Yson.peekByte Yson.peekByte := by
  intro it z hb
  cases hpeek : Yson.peekByte it with
  | error e =>
    rw [Yson.peekByte] at hpeek
    split at hpeek <;> cases hpeek
    exact Or.inl rfl
  | ok p =>
    obtain ⟨b, it'⟩ := p
    refine ⟨peekByte_extend hb hpeek z, ?_⟩
    cases lex_peek_ok hpeek
    simpa using hb

theorem Extends.unexpected (expected : Expected) (found : Token) :
    Extends (unexpected expected found : LexM α) (unexpected expected found) :=
  fun _ _ _ => Or.inr (Or.inr rfl)

theorem Extends.checkDepth (depth : Nat) : Extends (Yson.checkDepth depth) (Yson.checkDepth depth) :=
  .ite (.throw _) (.pure _)

/-! ## Errors that are not the budget -/

theorem readUvarintLoop_ne_outOfFuel {full : Nat} : ∀ {x : List UInt8} {i : Nat}
    {shift result : UInt64}, readUvarintLoop full x i shift result ≠ .error .outOfFuel
  | [], _, _, _, h => by cases h
  | b :: x, i, shift, result, h => by
    rw [readUvarintLoop] at h
    split at h
    · cases h
    · simp only at h
      split at h
      · cases h
      · split at h
        · cases h
        · exact readUvarintLoop_ne_outOfFuel h

theorem readVarint_ne_outOfFuel {x : List UInt8} : readVarint x ≠ .error .outOfFuel :=
  fun h => readUvarintLoop_ne_outOfFuel (ExceptList.map_eq_error.mp h)

theorem parseBinaryToken_ne_outOfFuel {pos : Nat} {x : List UInt8} :
    parseBinaryToken pos x ≠ .error .outOfFuel := by
  intro h
  cases x with
  | nil => cases h
  | cons byte rest =>
    rw [parseBinaryToken, ExceptList.map_eq_error] at h
    unfold parseBinaryPayload at h
    split at h
    · rw [parseBinaryString] at h
      split at h
      · rename_i e hread
        cases h
        exact readVarint_ne_outOfFuel hread
      · split at h <;> [skip; split at h] <;> cases h
    · exact readVarint_ne_outOfFuel (ExceptList.map_eq_error.mp h)
    · rw [parseBinaryDouble] at h
      split at h <;> cases h
    · cases h
    · cases h
    · exact readUvarintLoop_ne_outOfFuel (ExceptList.map_eq_error.mp h)
    · split at h <;> cases h

theorem unescapeStep_ne_outOfFuel {pos : Nat} {b : UInt8} {x : List UInt8} :
    unescapeStep pos b x ≠ .error .outOfFuel := by
  intro h
  unfold unescapeStep at h
  split at h
  · cases h
  · split at h
    · cases h
    · split at h <;> cases h
    · cases h
    · split at h <;> cases h

theorem unescapeLoop_ne_outOfFuel : ∀ {fuel pos : Nat} {x : List UInt8},
    unescapeLoop fuel pos x ≠ .error .outOfFuel
  | 0, _, _, h => by cases h
  | fuel + 1, pos, [], h => by cases h
  | fuel + 1, pos, b :: x, h => by
    rw [unescapeLoop] at h
    split at h
    · cases h
    · cases hstep : unescapeStep pos b x with
      | error e =>
        simp only [hstep, bind, Except.bind, Except.error.injEq] at h
        exact unescapeStep_ne_outOfFuel (hstep.trans (by rw [h]))
      | ok p =>
        simp only [hstep, bind, Except.bind] at h
        cases hloop : unescapeLoop fuel (pos + p.2) ((b :: x).drop p.2) with
        | error e =>
          simp only [hloop, Except.error.injEq] at h
          exact unescapeLoop_ne_outOfFuel (hloop.trans (by rw [h]))
        | ok q => simp [hloop] at h

theorem peekByte_ne_outOfFuel (it : YsonIterator) : peekByte it ≠ .error .outOfFuel := by
  intro h
  rw [peekByte] at h
  split at h <;> cases h

/-- Started at `it` the computation does not use its budget up. -/
def Funded (m : LexM α) (it : YsonIterator) : Prop := m it ≠ .error .outOfFuel

theorem Funded.bind {m : LexM α} {f : α → LexM β} {it : YsonIterator} (hm : Funded m it)
    (hf : ∀ a it', m it = .ok (a, it') → Funded (f a) it') : Funded (m >>= f) it := by
  intro h
  rcases StateExcept.bind_eq_error.mp h with h | ⟨a, it', hrun, h⟩
  · exact hm h
  · exact hf a it' hrun h

theorem checkDepth_funded (depth : Nat) (it : YsonIterator) : Funded (checkDepth depth) it := by
  intro h
  rw [checkDepth, StateExcept.ite_apply] at h
  split at h <;> cases h

/-! ## Tokens -/

variable [FloatText]

theorem Extends.nextToken : Extends Yson.nextToken Yson.nextToken := by
  intro it z hb
  cases hnext : Yson.nextToken it with
  | error e =>
    cases he : e.isEof with
    | true => exact Or.inl he
    | false => exact Or.inr (Or.inr (nextToken_extend_error hb hnext he z))
  | ok p =>
    obtain ⟨t, it'⟩ := p
    obtain ⟨n, _, hn⟩ := nextToken_advanced hnext
    exact ⟨nextToken_extend hb hnext z, hn.isBinary.trans hb⟩

/-! ## The scanner -/

theorem scanListLoop_extends {tree tree' : LexM Unit} (htree : Extends tree tree') :
    ∀ {fuel fuel' : Nat}, fuel ≤ fuel' →
      Extends (scanListLoop tree fuel) (scanListLoop tree' fuel')
  | 0, _, _ => .outOfFuel _
  | fuel + 1, 0, h => absurd h (by omega)
  | fuel + 1, fuel' + 1, h => by
    have hloop := scanListLoop_extends htree (Nat.le_of_succ_le_succ h)
    refine .bind .peekByte fun b => .ite (.bind .nextToken fun _ => .pure _) (.ite ?_ ?_)
    · exact .bind .nextToken fun _ => hloop
    · exact .bind htree fun _ => hloop

theorem scanKey_extends : Extends scanKey scanKey := by
  refine .bind .nextToken fun t => ?_
  cases t with
  | string s =>
    refine .bind .nextToken fun u => ?_
    cases u with
    | keyValueSeparator => exact .pure _
    | _ => exact .unexpected _ _
  | _ => exact fun _ _ _ => Or.inr (Or.inr rfl)

theorem scanFragmentLoop_extends {tree tree' : LexM Unit} (htree : Extends tree tree')
    (frag : Fragment) : ∀ {fuel fuel' : Nat}, fuel ≤ fuel' →
      Extends (scanFragmentLoop tree frag fuel) (scanFragmentLoop tree' frag fuel')
  | 0, _, _ => .outOfFuel _
  | fuel + 1, 0, h => absurd h (by omega)
  | fuel + 1, fuel' + 1, h => by
    have hloop := scanFragmentLoop_extends htree frag (Nat.le_of_succ_le_succ h)
    refine .bind .peekByte fun b => .ite (.bind .nextToken fun _ => .pure _) (.ite ?_ ?_)
    · exact .bind .nextToken fun _ => hloop
    · exact .bind scanKey_extends fun _ => .bind htree fun _ => hloop

theorem scanObject_extends {tree tree' : Nat → LexM Unit} (htree : ∀ depth, Extends (tree depth) (tree' depth))
    {fuel fuel' : Nat} (hfuel : fuel ≤ fuel') (depth : Nat) (t : Token) :
    Extends (scanObject tree fuel depth t) (scanObject tree' fuel' depth t) := by
  cases t with
  | beginList =>
    exact .bind (.checkDepth _) fun _ => scanListLoop_extends (htree _) hfuel
  | beginMap =>
    exact .bind (.checkDepth _) fun _ => scanFragmentLoop_extends (htree _) _ hfuel
  | string | int64 | uint64 | double | boolean | entity => exact .pure _
  | _ => exact .unexpected _ _

/-- **The scanner is stable under extension**, also of its budget. -/
theorem scanTree_extends : ∀ {fuel fuel' : Nat}, fuel ≤ fuel' → ∀ depth : Nat,
    Extends (scanTree fuel depth) (scanTree fuel' depth)
  | 0, _, _, _ => .outOfFuel _
  | fuel + 1, 0, h, _ => absurd h (by omega)
  | fuel + 1, fuel' + 1, h, depth => by
    have hle := Nat.le_of_succ_le_succ h
    have htree := fun depth => scanTree_extends hle depth
    refine .bind (.checkDepth _) fun _ => .bind .nextToken fun t => .ite ?_ ?_
    · refine .bind (.bind (.checkDepth _) fun _ => scanFragmentLoop_extends (htree _) _ hle) fun _ => ?_
      exact .bind .nextToken fun u => scanObject_extends htree hle depth u
    · exact scanObject_extends htree hle depth t

/-! ## The budget -/

theorem parseTextToken_ne_outOfFuel {pos : Nat} {x : List UInt8} :
    parseTextToken pos x ≠ .error .outOfFuel := by
  intro h
  cases x with
  | nil => cases h
  | cons byte rest =>
    rw [parseTextToken] at h
    split at h
    · cases h
    · split at h
      · have hq := ExceptList.map_eq_error.mp h
        simp only [parseTextQuotedString] at hq
        split at hq
        · cases hq
        · split at hq
          · cases hq
          · cases hloop : unescapeLoop (rest.length + 1) (pos + 1) rest with
            | error e =>
              simp only [hloop, bind, Except.bind, Except.error.injEq] at hq
              exact unescapeLoop_ne_outOfFuel (hloop.trans (by rw [hq]))
            | ok q => simp [hloop, bind, Except.bind] at hq
      · split at h
        · rw [parseTextNumber] at h
          cases htok : numberToken ((byte :: rest).take (numberLen (byte :: rest)).1)
              (numberLen (byte :: rest)).2.1 (numberLen (byte :: rest)).2.2 with
          | error e =>
            simp only [htok, bind, Except.bind, Except.error.injEq] at h
            subst h
            unfold numberToken at htok
            split at htok <;> [skip; split at htok] <;> split at htok <;> cases htok
          | ok t => simp [htok, bind, Except.bind] at h
        · split at h
          · have hs := ExceptList.map_eq_error.mp h
            rw [parseTextSpecialValue] at hs
            split at hs <;> cases hs
          · split at h
            · simp only [parseTextUnquotedString] at h
              split at h <;> cases h
            · cases h

theorem nextToken_ne_outOfFuel (it : YsonIterator) : nextToken it ≠ .error .outOfFuel := by
  intro h
  have h := ExceptList.map_eq_error.mp h
  rw [parseToken] at h
  split at h
  · exact parseBinaryToken_ne_outOfFuel h
  · exact parseTextToken_ne_outOfFuel h

theorem Funded.nextToken (it : YsonIterator) : Funded Yson.nextToken it := nextToken_ne_outOfFuel it

theorem nextToken_shorter {it it' : YsonIterator} {t : Token} (h : nextToken it = .ok (t, it')) :
    it'.rest.length < it.rest.length := by
  have := (Lexes.single h).length_le
  simp only [List.length_cons, List.length_nil] at this
  omega

theorem Lexes.shorter_doc {it it' : YsonIterator} {d : Doc} (h : Lexes it d.toks it') :
    it'.rest.length < it.rest.length := by
  have := h.length_le
  have := d.toks_length_pos
  omega

/-- A loop gets by on its budget when the walk over a nested value does. -/
theorem scanListLoop_funded {tree : LexM Unit} {n depth : Nat} (haccepts : TreeAccepts depth tree)
    (htree : ∀ it : YsonIterator, it.rest.length < n → Funded tree it) :
    ∀ {fuel : Nat} {it : YsonIterator}, it.rest.length < fuel → it.rest.length < n →
      Funded (scanListLoop tree fuel) it := by
  intro fuel
  induction fuel with
  | zero => intro it h; omega
  | succ fuel ih =>
    intro it hfuel hn
    refine .bind (peekByte_ne_outOfFuel it) fun b it₁ hpeek => ?_
    cases lex_peek_ok hpeek
    have hskip := skipIgnored_length it
    have hnext : ∀ (k : Token → LexM Unit), (∀ t it', it'.rest.length < it.rest.length → Funded (k t) it') →
        Funded (Yson.nextToken >>= k) it.skipIgnored := fun k hk =>
      .bind (.nextToken _) fun t it' ht => hk t it' (by have := nextToken_shorter ht; omega)
    rw [Funded, StateExcept.ite_apply, StateExcept.ite_apply]
    split
    · exact hnext _ fun _ _ _ h => by cases h
    · split
      · exact hnext _ fun _ it' hlt => ih (by omega) (by omega)
      · refine Funded.bind (htree _ (by omega)) fun _ it' hrun => ?_
        obtain ⟨d, _, hlex⟩ := haccepts _ _ hrun
        have := hlex.shorter_doc
        exact ih (by omega) (by omega)

theorem scanKey_funded (it : YsonIterator) : Funded scanKey it := by
  refine .bind (.nextToken it) fun t it₁ _ => ?_
  cases t with
  | string s =>
    refine .bind (.nextToken it₁) fun u it₂ _ => ?_
    cases u with
    | keyValueSeparator => exact fun h => by cases h
    | _ => exact fun h => by cases h
  | _ => exact fun h => by cases h

theorem scanFragmentLoop_funded {tree : LexM Unit} {frag : Fragment} {n depth : Nat}
    (haccepts : TreeAccepts depth tree)
    (htree : ∀ it : YsonIterator, it.rest.length < n → Funded tree it) :
    ∀ {fuel : Nat} {it : YsonIterator}, it.rest.length < fuel → it.rest.length < n →
      Funded (scanFragmentLoop tree frag fuel) it := by
  intro fuel
  induction fuel with
  | zero => intro it h; omega
  | succ fuel ih =>
    intro it hfuel hn
    refine .bind (peekByte_ne_outOfFuel it) fun b it₁ hpeek => ?_
    cases lex_peek_ok hpeek
    have hskip := skipIgnored_length it
    have hnext : ∀ (k : Token → LexM Unit), (∀ t it', it'.rest.length < it.rest.length → Funded (k t) it') →
        Funded (Yson.nextToken >>= k) it.skipIgnored := fun k hk =>
      .bind (.nextToken _) fun t it' ht => hk t it' (by have := nextToken_shorter ht; omega)
    rw [Funded, StateExcept.ite_apply, StateExcept.ite_apply]
    split
    · exact hnext _ fun _ _ _ h => by cases h
    · split
      · exact hnext _ fun _ it' hlt => ih (by omega) (by omega)
      · refine Funded.bind (scanKey_funded _) fun _ it₁ hkey => ?_
        obtain ⟨s, hkey⟩ := scanKey_ok hkey
        have := hkey.length_le
        simp only [List.length_cons, List.length_nil] at this
        refine Funded.bind (htree _ (by omega)) fun _ it' hrun => ?_
        obtain ⟨d, _, hlex⟩ := haccepts _ _ hrun
        have := hlex.shorter_doc
        exact ih (by omega) (by omega)

theorem scanObject_funded {tree : Nat → LexM Unit} {fuel depth : Nat} {t : Token} {it : YsonIterator}
    (haccepts : TreeAccepts (depth + 1) (tree (depth + 1)))
    (htree : ∀ it : YsonIterator, it.rest.length < fuel → Funded (tree (depth + 1)) it)
    (hfuel : it.rest.length < fuel) : Funded (scanObject tree fuel depth t) it := by
  cases t with
  | beginList =>
    refine .bind (checkDepth_funded _ it) fun _ it₁ hcheck => ?_
    obtain ⟨_, rfl⟩ := checkDepth_ok hcheck
    exact scanListLoop_funded haccepts htree hfuel hfuel
  | beginMap =>
    refine .bind (checkDepth_funded _ it) fun _ it₁ hcheck => ?_
    obtain ⟨_, rfl⟩ := checkDepth_ok hcheck
    exact scanFragmentLoop_funded haccepts htree hfuel hfuel
  | string | int64 | uint64 | double | boolean | entity => exact fun h => by cases h
  | _ => exact fun h => by cases h

/-- **The walk never uses its budget up.** -/
theorem scanTree_funded : ∀ (fuel depth : Nat) (it : YsonIterator), it.rest.length < fuel →
    Funded (scanTree fuel depth) it
  | 0, _, _, h => absurd h (by omega)
  | fuel + 1, depth, it, hfuel => by
    have htree := fun depth (it : YsonIterator) (h : it.rest.length < fuel) =>
      scanTree_funded fuel depth it h
    refine .bind (checkDepth_funded _ it) fun _ it₁ hcheck => ?_
    obtain ⟨_, rfl⟩ := checkDepth_ok hcheck
    refine .bind (.nextToken it) fun t it₂ hnext => ?_
    have hlt := nextToken_shorter hnext
    rw [Funded, StateExcept.ite_apply]
    split
    · refine Funded.bind (.bind (checkDepth_funded _ it₂) fun _ it₃ hcheck => ?_) fun _ it₄ hfrag => ?_
      · obtain ⟨_, rfl⟩ := checkDepth_ok hcheck
        exact scanFragmentLoop_funded (scanTree_ok fuel _) (htree _) (by omega) (by omega)
      · replace hfrag := StateExcept.bind_eq_ok.mp hfrag
        obtain ⟨_, it₃, hcheck, hfrag⟩ := hfrag
        obtain ⟨_, rfl⟩ := checkDepth_ok hcheck
        obtain ⟨pairs, trail, _, hlex⟩ := scanFragmentLoop_ok (scanTree_ok fuel _) hfrag
        have := hlex.length_le
        refine .bind (.nextToken it₄) fun u it₅ hnext' => ?_
        have := nextToken_shorter hnext'
        exact scanObject_funded (scanTree_ok fuel _) (htree _) (by omega)
    · exact scanObject_funded (scanTree_ok fuel _) (htree _) (by omega)

/-! ## `scan_value` on a prefix -/

theorem scanValue_ne_outOfFuel (bytes : List UInt8) (f : YsonFormat) :
    scanValue bytes f ≠ .error .outOfFuel := by
  intro h
  rw [scanValue] at h
  split at h
  · cases h
  · rename_i e hrun
    split at h
    · cases h
    · cases h
      exact scanTree_funded _ _ _ (by simp [YsonIterator.new]) hrun

/-- **A length found on a prefix is the length.** -/
theorem scanValue_extend_complete {x : List UInt8} {len : Nat}
    (h : scanValue x .binary = .ok (.complete len)) (z : List UInt8) :
    scanValue (x ++ z) .binary = .ok (.complete len) := by
  rw [scanValue] at h
  split at h
  · rename_i it hrun
    cases h
    have hlen : x.length + 1 ≤ (x ++ z).length + 1 := by simp
    have hext := scanTree_extends hlen 0 (.new x true) z rfl
    rw [show scanTree (x.length + 1) 0 (.new x true) = .ok ((), it) from hrun] at hext
    rw [scanValue]
    rw [show scanTree ((x ++ z).length + 1) 0 (.new (x ++ z) YsonFormat.binary.isBinary)
      = .ok ((), it.extend z) from hext.1]
    rfl
  · split at h <;> cases h

/-- **An error found on a prefix is the error.** -/
theorem scanValue_extend_error {x : List UInt8} {e : YsonError}
    (h : scanValue x .binary = .error e) (z : List UInt8) : scanValue (x ++ z) .binary = .error e := by
  have hfuel := scanValue_ne_outOfFuel x .binary
  rw [scanValue] at h
  split at h
  · cases h
  · rename_i e' hrun
    split at h
    · cases h
    · rename_i heof
      cases h
      have hlen : x.length + 1 ≤ (x ++ z).length + 1 := by simp
      have hext := scanTree_extends hlen 0 (.new x true) z rfl
      rw [show scanTree (x.length + 1) 0 (.new x true) = .error e from hrun] at hext
      rcases hext with hext | hext | hext
      · exact absurd hext heof
      · refine absurd ?_ hfuel
        rw [scanValue, hrun, hext]
        rfl
      · rw [scanValue]
        rw [show scanTree ((x ++ z).length + 1) 0 (.new (x ++ z) YsonFormat.binary.isBinary)
          = .error e from hext]
        simp only [if_neg heof]

/-- Where one value ends does not depend on what follows it: a measured record scans to
itself. -/
theorem scanValue_take {bytes : List UInt8} {f : YsonFormat} {len : Nat}
    (h : scanValue bytes f = .ok (.complete len)) :
    len ≤ bytes.length ∧ 0 < len ∧ ∃ d : Doc, d.Scans MAX_DEPTH 0 ∧ Spells (bytes.take len) f d.toks := by
  obtain ⟨d, it, hd, hlex, rfl⟩ := scanValue_complete_iff.mp h
  obtain ⟨n, hlen, hn⟩ := hlex.advanced
  have hpos := hn.pos
  have hle := hn.le
  simp only [YsonIterator.new] at hpos hle
  have hn0 : 0 < n := by
    have := d.toks_length_pos
    omega
  refine ⟨by omega, by omega, d, hd, it.take 0, ?_, ?_⟩
  · have := hlex.take hn (Nat.le_refl n)
    rw [Nat.sub_self] at this
    have hpos' : it.pos = n := by omega
    rw [hpos']
    exact this
  · obtain ⟨k, hk⟩ := advanced_skipIgnored (it.take 0)
    rw [YsonIterator.Exhausted, hk.rest]
    simp [YsonIterator.take]

end Ytsaurus.Yson
