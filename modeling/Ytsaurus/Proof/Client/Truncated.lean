import Ytsaurus.Proof.Client.Fragment

/-!
# `Proof/Client/Truncated.lean` — reading a prefix of a table

A table of values is a fragment of their binary encodings. Whatever prefix of it arrives, the
check accepts it exactly when it holds whole rows only, and then the typed reader returns
these, each as `from_slice` reads it (`truncated_read`).

Two limits are by design: the scanner gives up on rows that nest deeper than it follows, and
`from_slice` refuses some of the rows that the scanner accepts, at which the reader stops with
the same error.

The first half is `Proof/Client/Fragment.lean` on the encodings of the rows. The second needs that
a prefix cut at a record boundary is a fragment itself, of the rows within it (`within`), with or
without a separator behind the last one; the reader treats the two alike.
-/

set_option autoImplicit false

namespace Ytsaurus.Client

open Yson Framing

variable [FloatText]

/-! ## Row by row -/

theorem rowByRow_ok_iff {path : String} {index : Nat} {encoded : List (List UInt8)}
    {values : List YsonValue} :
    rowByRow path index encoded = .ok values ↔
      List.Forall₂ (fun bytes v => YsonValue.fromSlice bytes .binary = .ok v) encoded values := by
  induction encoded generalizing index values with
  | nil =>
    rw [rowByRow, List.forall₂_nil_left_iff]
    constructor
    · intro h
      exact (Except.ok.inj h).symm
    · intro h
      rw [h]
  | cons bytes encoded ih =>
    rw [rowByRow, List.forall₂_cons_left_iff]
    cases hvalue : YsonValue.fromSlice bytes .binary with
    | error e =>
      constructor
      · intro h
        cases h
      · intro h
        obtain ⟨v, _, h, _⟩ := h
        cases h
    | ok v =>
      dsimp only
      rw [ExceptList.map_eq_ok]
      constructor
      · intro h
        obtain ⟨vs, hvs, rfl⟩ := h
        exact ⟨v, vs, rfl, ih.mp hvs, rfl⟩
      · intro h
        obtain ⟨w, vs, hw, hvs, rfl⟩ := h
        cases hw
        exact ⟨vs, ih.mpr hvs, rfl⟩

/-- The first row that is refused stops the run. -/
theorem rowByRow_error (path : String) (index : Nat) {i : Nat} {encoded : List (List UInt8)}
    {bytes : List UInt8} {e : YsonError} (hi : encoded[i]? = some bytes)
    (he : YsonValue.fromSlice bytes .binary = .error e)
    (hbefore : ∀ j < i, ∀ b, encoded[j]? = some b → ∃ v, YsonValue.fromSlice b .binary = .ok v) :
    rowByRow path index encoded = .error (.decode "read_table" path (index + i) e) := by
  induction encoded generalizing index i with
  | nil => cases hi
  | cons first encoded ih =>
    rw [rowByRow]
    cases i with
    | zero =>
      cases hi
      rw [he]
      rfl
    | succ i =>
      obtain ⟨v, hv⟩ := hbefore 0 (Nat.zero_lt_succ i) first rfl
      have hrest : ∀ j < i, ∀ b, encoded[j]? = some b →
          ∃ v, YsonValue.fromSlice b .binary = .ok v := by
        intro j hj b hb
        exact hbefore (j + 1) (Nat.succ_lt_succ hj) b hb
      rw [hv]
      dsimp only
      rw [ih (index + 1) hi hrest, Nat.add_assoc, Nat.add_comm 1]
      rfl

/-! ## Prefixes of a fragment -/

section Prefix

variable {encoded : List (List UInt8)} {cut : Nat}

/-- At a record boundary the reader returns the rows within the prefix. -/
theorem decodeYsonRows_take (path : String)
    (hencoded : ∀ bytes ∈ encoded, ∃ d : Doc, EncodedAs true bytes d)
    (h : AtBoundary separator encoded cut) :
    decodeYsonRows ((fragment separator encoded).take cut) path =
      rowByRow path 0 (within encoded cut) := by
  have hpos : ∀ bytes ∈ encoded, 0 < bytes.length := by
    intro bytes hbytes
    obtain ⟨d, hd⟩ := hencoded bytes hbytes
    exact hd.length_pos
  obtain ⟨trail, htrail, htake⟩ := take_fragment_of_atBoundary hpos h
  rw [htake]
  apply decodeYsonRows_joined
  · intro bytes hbytes
    exact hencoded bytes (mem_of_mem_within hbytes)
  · exact htrail

end Prefix

/-- The rows of a table as they are written. -/
theorem encode_rows {rows : List YsonValue} (hvalid : ∀ v ∈ rows, v.All YsonValue.Valid)
    (hnesting : ∀ v ∈ rows, v.nesting ≤ MAX_DEPTH) :
    ∃ encoded, List.Forall₂ (fun v bytes => YsonValue.toVec v .binary = .ok bytes) rows encoded ∧
      ∀ bytes ∈ encoded, ∃ d : Doc, EncodedAs true bytes d ∧ d.Scans MAX_DEPTH 0 := by
  induction rows with
  | nil => exact ⟨[], .nil, List.forall_mem_nil _⟩
  | cons v rows ih =>
    obtain ⟨hv, hrest⟩ := List.forall_mem_cons.mp hvalid
    obtain ⟨hn, hnrest⟩ := List.forall_mem_cons.mp hnesting
    obtain ⟨bytes, hrun, hbytes⟩ := YsonValue.toVec_encodedAs hv
    obtain ⟨encoded, hruns, hencoded⟩ := ih hrest hnrest
    have hscans : v.doc.Scans MAX_DEPTH 0 := v.doc_scans (by omega)
    exact ⟨bytes :: encoded, .cons hrun hruns,
      List.forall_mem_cons.mpr ⟨⟨v.doc, hbytes, hscans⟩, hencoded⟩⟩

/-- **A truncated read is never taken for a whole one.** The check accepts a prefix of a table
exactly when it is cut at a record boundary. Then the reader returns one item for each row
within the prefix, which is what `from_slice` gives for the row's own bytes; if it gives an
error for one of them, the reader stops there with that error. -/
theorem truncated_read {rows : List YsonValue} (hvalid : ∀ v ∈ rows, v.All YsonValue.Valid)
    (hnesting : ∀ v ∈ rows, v.nesting ≤ MAX_DEPTH) (path : String) :
    ∃ encoded, List.Forall₂ (fun v bytes => YsonValue.toVec v .binary = .ok bytes) rows encoded ∧
      ∀ cut ≤ (fragment separator encoded).length,
        (checkCompleteYsonFragment ((fragment separator encoded).take cut) .binary = .ok () ↔
          AtBoundary separator encoded cut) ∧
        (checkCompleteYsonFragment ((fragment separator encoded).take cut) .binary = .ok () →
          (∀ values, decodeYsonRows ((fragment separator encoded).take cut) path = .ok values ↔
            List.Forall₂ (fun bytes v => YsonValue.fromSlice bytes .binary = .ok v)
              (within encoded cut) values) ∧
          ∀ i bytes e, (within encoded cut)[i]? = some bytes →
            YsonValue.fromSlice bytes .binary = .error e →
            (∀ j < i, ∀ b, (within encoded cut)[j]? = some b →
              ∃ v, YsonValue.fromSlice b .binary = .ok v) →
            decodeYsonRows ((fragment separator encoded).take cut) path =
              .error (.decode "read_table" path i e)) := by
  obtain ⟨encoded, hruns, hencoded⟩ := encode_rows hvalid hnesting
  refine ⟨encoded, hruns, ?_⟩
  intro cut hcut
  have hcheck := check_take_fragment_iff hencoded hcut
  refine ⟨hcheck, ?_⟩
  intro hok
  have hdocs : ∀ bytes ∈ encoded, ∃ d : Doc, EncodedAs true bytes d := by
    intro bytes hbytes
    obtain ⟨d, hd, _⟩ := hencoded bytes hbytes
    exact ⟨d, hd⟩
  rw [decodeYsonRows_take path hdocs (hcheck.mp hok)]
  constructor
  · intro values
    exact rowByRow_ok_iff
  · intro i bytes e hi he hbefore
    have herror := rowByRow_error path 0 hi he hbefore
    rwa [Nat.zero_add] at herror

omit [FloatText] in
theorem truncated_read_tagged_list :
    ∃ encoded, List.Forall₂
        (fun v bytes => @YsonValue.toVec plainFloatText v .binary = .ok bytes)
        [YsonValue.tagged (.list []), YsonValue.tagged (.list [])] encoded ∧
      ∀ cut ≤ (fragment separator encoded).length,
        (@checkCompleteYsonFragment plainFloatText ((fragment separator encoded).take cut)
            .binary = .ok () ↔ AtBoundary separator encoded cut) ∧
        (@checkCompleteYsonFragment plainFloatText ((fragment separator encoded).take cut)
            .binary = .ok () →
          (∀ values, @decodeYsonRows plainFloatText ((fragment separator encoded).take cut)
              "//t" = .ok values ↔
            List.Forall₂ (fun bytes v => @YsonValue.fromSlice plainFloatText bytes .binary = .ok v)
              (within encoded cut) values) ∧
          ∀ i bytes e, (within encoded cut)[i]? = some bytes →
            @YsonValue.fromSlice plainFloatText bytes .binary = .error e →
            (∀ j < i, ∀ b, (within encoded cut)[j]? = some b →
              ∃ v, @YsonValue.fromSlice plainFloatText b .binary = .ok v) →
            @decodeYsonRows plainFloatText ((fragment separator encoded).take cut) "//t" =
              .error (.decode "read_table" "//t" i e)) := by
  refine @truncated_read plainFloatText _ ?_ ?_ "//t"
  · intro v hv
    obtain rfl : v = YsonValue.tagged (.list []) := by simpa using hv
    exact YsonValue.tagged_list_valid
  · decide +kernel

/-! ## The two limits -/

/-- Lists within lists. -/
def nestedRow : Nat → YsonValue
  | 0 => .bare (.list [])
  | n + 1 => .bare (.list [nestedRow n])

/-- A map with a body of its own beside a plain key. -/
def twoBodies : YsonValue :=
  .bare (.map [(valueKey, .bare .entity), (ascii "a", .bare .entity)])

omit [FloatText] in
/-- A table of one row that nests too deep is refused whole. A table of one row with two
bodies is accepted, and the reader has no item for it. -/
theorem whole_table_misread :
    (∃ bytes, @YsonValue.toVec plainFloatText (nestedRow 128) .binary = .ok bytes ∧
      AtBoundary separator [bytes] (fragment separator [bytes]).length ∧
      @checkCompleteYsonFragment plainFloatText
        ((fragment separator [bytes]).take (fragment separator [bytes]).length) .binary ≠ .ok ()) ∧
    ∃ bytes, @YsonValue.toVec plainFloatText twoBodies .binary = .ok bytes ∧
      @checkCompleteYsonFragment plainFloatText
        ((fragment separator [bytes]).take (fragment separator [bytes]).length) .binary = .ok () ∧
      ¬ (@decodeYsonRows plainFloatText
        ((fragment separator [bytes]).take (fragment separator [bytes]).length) "//t").toBool := by
  let _ : FloatText := plainFloatText
  constructor
  · obtain ⟨bytes, hrun, hcheck⟩ : ∃ bytes, YsonValue.toVec (nestedRow 128) .binary = .ok bytes ∧
        checkCompleteYsonFragment
          ((fragment separator [bytes]).take (fragment separator [bytes]).length) .binary ≠ .ok () :=
      ExceptList.exists_ok_and (by decide +kernel)
    exact ⟨bytes, hrun, ⟨1, Nat.le_refl 1, .inl rfl⟩, hcheck⟩
  · exact ExceptList.exists_ok_and (by decide +kernel)

end Ytsaurus.Client
