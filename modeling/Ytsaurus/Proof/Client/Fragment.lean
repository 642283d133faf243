import Ytsaurus.Client.Fragment
import Ytsaurus.Proof.Stream

/-!
# `Proof/Client/Fragment.lean` — a truncated read is never taken for a whole one

The check is the clean case of splitting a stream into records (`checkLoop_ok_iff`), so what
it makes of a prefix is `Framing.splits_take_fragment_iff`. The streaming deserializer does
not split, it reads one document after another (`Proof/Stream.lean`). At a record boundary the
two walk over the same bytes.

A stream that breaks off behind the status line is answered with a 200 like any other, and the
check is what finds out. It has to refuse every prefix that ends inside a row, and it cannot refuse
one that ends between two rows, since such a prefix is a fragment itself. So it does not say that
nothing is missing, only that what is there is whole.

`rowByRow` is the run of the typed reader with the stream taken out of it: `from_slice` on each
row, up to the first that is refused. The two theorems about the loop say that the stream adds
nothing.
-/

set_option autoImplicit false

namespace Ytsaurus.Client

open Yson Framing

theorem isSeparator_separator : isSeparator separator = true := rfl

variable [FloatText]

/-! ## The check -/

/-- The loop accepts what splits into records with nothing left over. -/
theorem checkLoop_ok_iff {format : YsonFormat} {total fuel off : Nat} {data : List UInt8}
    (hfuel : data.length < fuel) :
    checkLoop format total fuel data = .ok () ↔
      ∃ found, Splits (scanMeasure format) isSeparator off data found .clean := by
  induction fuel generalizing data off with
  | zero => exact absurd hfuel (Nat.not_lt_zero _)
  | succ fuel ih =>
    have hle : (data.dropWhile isSeparator).length ≤ data.length :=
      (List.dropWhile_suffix isSeparator).length_le
    rw [checkLoop]
    by_cases hend : data.dropWhile isSeparator = []
    · rw [if_pos hend]
      constructor
      · intro _
        exact ⟨[], .clean hend⟩
      · intro _
        rfl
    · rw [if_neg hend]
      cases hscan : scanValue (data.dropWhile isSeparator) format with
      | error e =>
        have hmeasure := scanMeasure_malformed.mpr hscan
        constructor
        · intro h
          cases h
        · intro h
          obtain ⟨found, h⟩ := h
          cases h with
          | clean hclean => exact absurd hclean hend
          | record _ hcomplete _ => rw [hmeasure] at hcomplete; cases hcomplete
      | ok scan =>
        cases scan with
        | incomplete =>
          have hmeasure : scanMeasure format (data.dropWhile isSeparator) = .incomplete := by
            unfold scanMeasure
            rw [hscan]
          constructor
          · intro h
            cases h
          · intro h
            obtain ⟨found, h⟩ := h
            cases h with
            | clean hclean => exact absurd hclean hend
            | record _ hcomplete _ => rw [hmeasure] at hcomplete; cases hcomplete
        | complete len =>
          have hmeasure := scanMeasure_complete.mpr hscan
          -- every turn takes a record, and a record is not empty
          have hpos := (scanValue_take hscan).2.1
          have hlength := List.length_pos_iff.mpr hend
          have hrest : ((data.dropWhile isSeparator).drop len).length < fuel := by
            rw [List.length_drop]
            omega
          dsimp only
          rw [@ih (off + (data.takeWhile isSeparator).length + len) _ hrest]
          constructor
          · intro h
            obtain ⟨found, h⟩ := h
            exact ⟨_, .record hend hmeasure h⟩
          · intro h
            obtain ⟨found, h⟩ := h
            cases h with
            | clean hclean => exact absurd hclean hend
            | record _ hcomplete hsplits =>
              rw [hmeasure] at hcomplete
              cases hcomplete
              exact ⟨_, hsplits⟩

theorem check_ok_iff {format : YsonFormat} {data : List UInt8} :
    checkCompleteYsonFragment data format = .ok () ↔
      ∃ found, Splits (scanMeasure format) isSeparator 0 data found .clean :=
  checkLoop_ok_iff (Nat.lt_succ_self _)

theorem isRecord_of_encodedAs {bytes : List UInt8} {d : Doc} (h : EncodedAs true bytes d)
    (hscans : d.Scans MAX_DEPTH 0) : IsRecord (scanMeasure .binary) isSeparator bytes where
  complete := h.isRecord hscans
  head := by
    intro b hb
    obtain ⟨hsep, hspace⟩ := h.head b hb
    unfold isSeparator
    rw [hspace, Bool.or_false]
    exact beq_false_of_ne hsep

/-- **The check accepts a prefix exactly when it is cut at a record boundary.** -/
theorem check_take_fragment_iff {encoded : List (List UInt8)} {cut : Nat}
    (hencoded : ∀ bytes ∈ encoded, ∃ d : Doc, EncodedAs true bytes d ∧ d.Scans MAX_DEPTH 0)
    (hcut : cut ≤ (fragment separator encoded).length) :
    checkCompleteYsonFragment ((fragment separator encoded).take cut) .binary = .ok () ↔
      AtBoundary separator encoded cut := by
  rw [check_ok_iff]
  apply splits_take_fragment_iff scanMeasure_stable isSeparator_separator
  · intro bytes hbytes
    obtain ⟨d, hd, hscans⟩ := hencoded bytes hbytes
    exact isRecord_of_encodedAs hd hscans
  · exact hcut

/-! ## The run over the rows -/

/-- What `from_slice` makes of one row after another, the next of which has this index. -/
def rowByRow (path : String) (index : Nat) :
    List (List UInt8) → Except ClientError (List YsonValue)
  | [] => .ok []
  | bytes :: encoded =>
    match YsonValue.fromSlice bytes .binary with
    | .error e => .error (.decode "read_table" path index e)
    | .ok v => (rowByRow path (index + 1) encoded).map (v :: ·)

section Run

variable {path : String} {fuel steps : Nat} {encoded : List (List UInt8)} {trail : List UInt8}
  {rows : List YsonValue} {stream : StreamDeserializer}

open StreamDeserializer

/-- One turn of the loop that meets a row, given what the turns behind it do. -/
theorem decodeRowsLoop_cons (path : String) (rows : List YsonValue) {bytes rest : List UInt8}
    {d : Doc} {first : Bool} (hd : EncodedAs true bytes d) (hfuel : bytes.length ≤ fuel)
    (hrest : Delimited rest) (h : StandsAt true stream (lead first ++ (bytes ++ rest)) first)
    (hbehind : ∀ v stream', StandsAt true stream' rest false →
      decodeRowsLoop (YsonValue.deserialize fuel) path steps (rows ++ [v]) stream' =
        (rowByRow path (rows.length + 1) encoded).map (rows ++ [v] ++ ·)) :
    decodeRowsLoop (YsonValue.deserialize fuel) path (steps + 1) rows stream =
      (rowByRow path rows.length (bytes :: encoded)).map (rows ++ ·) := by
  have hd' : EncodedAs YsonFormat.binary.isBinary bytes d := hd
  have htoks : d.toks.length ≤ fuel := Nat.le_trans hd'.length_le hfuel
  rw [decodeRowsLoop, rowByRow, hd'.fromSlice]
  cases hvalue : d.value depthLimit 0 with
  | error e =>
    rw [nextItem_error h hd hrest htoks hvalue]
    rfl
  | ok v =>
    obtain ⟨stream', hrun, hstands⟩ := nextItem_ok h hd hrest htoks hvalue
    rw [hrun]
    dsimp only
    rw [hbehind v stream' hstands]
    cases rowByRow path (rows.length + 1) encoded with
    | error e => rfl
    | ok vs =>
      show Except.ok (rows ++ [v] ++ vs) = .ok (rows ++ v :: vs)
      rw [List.append_assoc, List.singleton_append]

/-- **The loop reads row by row**, from between two rows on. -/
theorem decodeRowsLoop_rows (htrail : trail = [] ∨ trail = [separator])
    (hencoded : ∀ bytes ∈ encoded, (∃ d : Doc, EncodedAs true bytes d) ∧ bytes.length ≤ fuel)
    (hsteps : encoded.length < steps)
    (h : StandsAt true stream (encoded.flatMap (separator :: ·) ++ trail) false) :
    decodeRowsLoop (YsonValue.deserialize fuel) path steps rows stream =
      (rowByRow path rows.length encoded).map (rows ++ ·) := by
  induction encoded generalizing steps rows stream with
  | nil =>
    obtain ⟨steps, rfl⟩ := Nat.exists_eq_succ_of_ne_zero (Nat.ne_of_gt hsteps)
    obtain ⟨stream', hnone, _⟩ := nextItem_trail fuel htrail h
    rw [decodeRowsLoop, hnone]
    show Except.ok rows = .ok (rows ++ [])
    rw [List.append_nil]
  | cons bytes encoded ih =>
    obtain ⟨⟨⟨d, hd⟩, hfuel⟩, hrest⟩ := List.forall_mem_cons.mp hencoded
    obtain ⟨steps, rfl⟩ := Nat.exists_eq_succ_of_ne_zero (Nat.ne_of_gt (Nat.zero_lt_of_lt hsteps))
    rw [List.flatMap_cons, List.cons_append, List.cons_append, List.append_assoc] at h
    have hlead : StandsAt true stream
        (lead false ++ (bytes ++ (encoded.flatMap (separator :: ·) ++ trail))) false := h
    apply decodeRowsLoop_cons path rows hd hfuel (delimited_trail htrail encoded) hlead
    intro v stream' hstands'
    rw [ih hrest (Nat.lt_of_succ_lt_succ hsteps) hstands', List.length_append]
    rfl

/-- **The rows of a fragment that ends at a record boundary.** -/
theorem decodeYsonRows_joined (hencoded : ∀ bytes ∈ encoded, ∃ d : Doc, EncodedAs true bytes d)
    (htrail : trail = [] ∨ trail = [separator] ∧ encoded ≠ []) :
    decodeYsonRows (joined separator encoded ++ trail) path = rowByRow path 0 encoded := by
  unfold decodeYsonRows decodeRows
  cases encoded with
  | nil =>
    have hnil : trail = [] := by
      rcases htrail with htrail | ⟨_, hne⟩
      · exact htrail
      · exact absurd rfl hne
    subst hnil
    obtain ⟨stream', hnone, _⟩ := nextItem_nil 1 (standsAt_new [] true)
    show decodeRowsLoop (YsonValue.deserialize 1) path 1 [] (.new [] true) = .ok []
    rw [decodeRowsLoop, hnone]
  | cons bytes encoded =>
    obtain ⟨⟨d, hd⟩, hrest⟩ := List.forall_mem_cons.mp hencoded
    have htrail' : trail = [] ∨ trail = [separator] := htrail.imp_right And.left
    have hall : ∀ row ∈ encoded, (∃ d : Doc, EncodedAs true row d) ∧
        row.length ≤ (joined separator (bytes :: encoded) ++ trail).length + 1 := by
      intro row hrow
      have hle : row.length ≤ (joined separator (bytes :: encoded)).length :=
        length_le_joined (List.mem_cons_of_mem _ hrow)
      rw [List.length_append]
      exact ⟨hrest row hrow, by omega⟩
    have hbytesLe : bytes.length ≤ (joined separator (bytes :: encoded) ++ trail).length + 1 := by
      have hle : bytes.length ≤ (joined separator (bytes :: encoded)).length :=
        length_le_joined List.mem_cons_self
      rw [List.length_append]
      omega
    have hcount : encoded.length < (joined separator (bytes :: encoded) ++ trail).length := by
      have hle : (bytes :: encoded).length ≤ (joined separator (bytes :: encoded)).length := by
        apply count_le_joined
        intro row hrow
        obtain ⟨d', hd'⟩ := hencoded row hrow
        exact hd'.length_pos
      rw [List.length_cons] at hle
      rw [List.length_append]
      omega
    have hstands : StandsAt true (.new (joined separator (bytes :: encoded) ++ trail) true)
        (lead true ++ (bytes ++ (encoded.flatMap (separator :: ·) ++ trail))) true := by
      have hinput : joined separator (bytes :: encoded) ++ trail =
          lead true ++ (bytes ++ (encoded.flatMap (separator :: ·) ++ trail)) :=
        List.append_assoc _ _ _
      rw [← hinput]
      exact standsAt_new _ true
    have hloop := decodeRowsLoop_cons path [] hd hbytesLe (delimited_trail htrail' encoded) hstands
      fun v stream' h => decodeRowsLoop_rows htrail' hall hcount h
    rw [hloop]
    cases rowByRow path 0 (bytes :: encoded) <;> rfl

end Run

end Ytsaurus.Client
