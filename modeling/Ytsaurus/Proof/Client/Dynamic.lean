import Mathlib.Data.List.Find
import Ytsaurus.Client.Dynamic
import Ytsaurus.Proof.Client.Fragment
import Ytsaurus.Proof.Reencode
import Ytsaurus.Proof.Rpc.Convert

/-!
# `Proof/Client/Dynamic.lean` — what rows mean over HTTP

Over HTTP a row is a YSON map. The keys of that map decide more than where a value goes: `@a`
is an attribute of the row and `$value` its body, of two entries with one key the last is kept,
and a scalar is read back without its attributes. Over RPC none of this happens. So a row means
the same over both exactly when its names are plain and its values are what `asColumn` leaves
(`row_meaning_iff`).

What a value means is fixed before either encoding is looked at: `meaning` sends a column value to
the YSON value it stands for, and two rows mean the same when they hold the same values under every
name (`SameMeaning`). A column that holds YSON text or binary is decoded for this, so the two
spellings of one value are one value. `Admitted` leaves out rows that no encoding could carry:
bytes beyond memory, an `any` that is no YSON, and values that nest to the decoder's limit.

The fragment itself is records with a separator behind each (`Lib/Framing.lean`), written and
read one row at a time. The proof goes the same way: one row first (`Encoded.same_iff`), and the
fragment of all of them then row by row (`fragment_read`).
-/

set_option autoImplicit false

namespace Ytsaurus.Client

open Yson Framing
open Utf8 (asBytes fromUtf8Lossy)

/-! ## What a column denotes -/

/-- A list or a map. -/
def isComposite : YsonNode → Bool
  | .list _ | .map _ => true
  | _ => false

/-- What is left of a value that is read back as a column: an attributed empty map in it is an
entity, and on anything but a list or a map the attributes are gone. -/
def asColumn (v : YsonValue) : YsonValue :=
  if isComposite v.collapse.node then v.collapse else .bare v.collapse.node

/-- What a row holds under a name whose first value does not count, but its last. -/
def lastOf (row : Api.Row) (name : String) : Option Api.Value :=
  (row.columns.reverse.find? fun column => column.1 == name).map Prod.snd

variable [FloatText]

/-- The one YSON value of these bytes, in either format. -/
def anyMeaning (bytes : List UInt8) : Option YsonValue :=
  (YsonValue.fromSlice bytes .binary).toOption.or (YsonValue.fromSlice bytes .text).toOption

/-- The YSON value a column value stands for. -/
def meaning : Api.Value → Option YsonValue
  | .null => some (.bare .entity)
  | .int64 number => some (.bare (.int64 number))
  | .uint64 number => some (.bare (.uint64 number))
  | .double number => some (.bare (.double number))
  | .boolean flag => some (.bare (.boolean flag))
  | .string bytes => some (.bare (.string bytes))
  | .any bytes => anyMeaning bytes

theorem anyToYson_ok_iff {bytes : List UInt8} {v : YsonValue} :
    anyToYson bytes = .ok v ↔ anyMeaning bytes = some v := by
  unfold anyMeaning anyToYson
  cases YsonValue.fromSlice bytes .binary with
  | ok w => simp [Except.toOption]
  | error e =>
    cases YsonValue.fromSlice bytes .text with
    | ok w => simp [Except.toOption]
    | error e' => simp [Except.toOption]

theorem anyMeaning_some {bytes : List UInt8} {v : YsonValue} (h : anyMeaning bytes = some v) :
    ∃ f, YsonValue.fromSlice bytes f = .ok v := by
  unfold anyMeaning at h
  cases hbinary : YsonValue.fromSlice bytes .binary with
  | ok w =>
    rw [hbinary] at h
    cases h
    exact ⟨.binary, hbinary⟩
  | error e =>
    rw [hbinary] at h
    cases htext : YsonValue.fromSlice bytes .text with
    | ok w =>
      rw [htext] at h
      cases h
      exact ⟨.text, htext⟩
    | error e' =>
      rw [htext] at h
      cases h

/-- A value is written exactly when it stands for something, and as what it stands for. -/
theorem valueToYson_ok_iff {value : Api.Value} {v : YsonValue} :
    valueToYson value = .ok v ↔ meaning value = some v := by
  cases value with
  | any bytes => exact anyToYson_ok_iff
  | null | int64 _ | uint64 _ | double _ | boolean _ | string _ =>
    simp [valueToYson, meaning]

theorem columnToYson_ok_iff {column : String × Api.Value} {entry : List UInt8 × YsonValue} :
    columnToYson column = .ok entry ↔
      entry.1 = asBytes column.1 ∧ meaning column.2 = some entry.2 := by
  unfold columnToYson
  rw [ExceptList.map_eq_ok, ← valueToYson_ok_iff]
  constructor
  · intro h
    obtain ⟨v, hv, rfl⟩ := h
    exact ⟨rfl, hv⟩
  · intro h
    exact ⟨entry.2, h.2, by rw [← h.1]⟩

/-- The bytes a column value holds fit in memory. -/
def Held : Api.Value → Prop
  | .string bytes | .any bytes => bytes.length ≤ isizeMax
  | _ => True

/-- A row as the interface admits it: names and bytes fit in memory, and every `any` is one YSON
value that stays within the nesting limit inside the map of its row. -/
structure Admitted (row : Api.Row) : Prop where
  names : ∀ column ∈ row.columns, (asBytes column.1).length ≤ isizeMax
  held : ∀ column ∈ row.columns, Held column.2
  values : ∀ column ∈ row.columns, ∃ v, meaning column.2 = some v ∧ v.doc.Fits depthLimit 1

omit [FloatText] in
theorem scalar_valid {node : YsonNode} (hchildren : node.children = [])
    (hmap : ∀ es, node ≠ .map es) (hstring : ∀ s, node = .string s → s.length ≤ isizeMax) :
    (YsonValue.bare node).All YsonValue.Valid := by
  apply YsonValue.All.intro
  · exact ⟨.nil, fun es hes => absurd hes (hmap es), hstring⟩
  · intro w hw
    have hnone : (YsonValue.bare node).children = [] := hchildren
    rw [hnone] at hw
    cases hw

/-- What an admitted value stands for can be written. -/
theorem meaning_valid {value : Api.Value} {v : YsonValue} (hheld : Held value)
    (h : meaning value = some v) : v.All YsonValue.Valid := by
  cases value with
  | any bytes =>
    obtain ⟨f, hread⟩ := anyMeaning_some h
    exact (fromSlice_settled hheld hread).valid
  | string bytes =>
    cases h
    apply scalar_valid rfl
    · intro es hes
      cases hes
    · intro s hs
      cases hs
      exact hheld
  | null | int64 _ | uint64 _ | double _ | boolean _ =>
    cases h
    apply scalar_valid rfl
    · intro es hes
      cases hes
    · intro s hs
      cases hs

/-- What an admitted value stands for says what it is. -/
theorem meaning_unambiguous {value : Api.Value} {v : YsonValue} (hheld : Held value)
    (h : meaning value = some v) : v.All YsonValue.Unambiguous := by
  cases value with
  | any bytes =>
    obtain ⟨f, hread⟩ := anyMeaning_some h
    exact (fromSlice_settled hheld hread).unambiguous
  | null | int64 _ | uint64 _ | double _ | boolean _ | string _ =>
    cases h
    apply YsonValue.All.intro
    · constructor
      · intro hnone
        cases hnone
      · intro es hes
        cases hes
    · intro w hw
      cases hw

/-! ## What a column is read back as -/

/-- A value that collapsing leaves alone comes back from its own bytes. -/
theorem anyMeaning_toVec {v : YsonValue} (h : v.Settled depthLimit 0) (hfixed : v.collapse = v) :
    ∃ bytes, v.toVec .binary = .ok bytes ∧ anyMeaning bytes = some v := by
  obtain ⟨bytes, hbytes, hencoded⟩ := YsonValue.toVec_encodedAs h.valid
  have hread : YsonValue.fromSlice bytes .binary = .ok v := by
    rw [@EncodedAs.fromSlice _ bytes v.doc .binary hencoded,
      (h.reads (Nat.zero_le _)).1, hfixed]
  refine ⟨bytes, hbytes, ?_⟩
  unfold anyMeaning
  rw [hread]
  rfl

/-- **What a column read back stands for.** -/
theorem meaning_ysonToValue {v : YsonValue} (h : v.Settled depthLimit 1) :
    meaning (ysonToValue v.collapse) = some (asColumn v) := by
  obtain ⟨_, hsettled⟩ := h.reads (by decide)
  have htop : v.collapse.Settled depthLimit 0 :=
    ⟨hsettled.valid, hsettled.unambiguous, hsettled.fits.mono (Nat.zero_le 1)⟩
  obtain ⟨bytes, hbytes, hmeaning⟩ := anyMeaning_toVec htop v.collapse_collapse
  unfold ysonToValue asColumn
  cases hnode : v.collapse.node with
  | list items | map es =>
    dsimp only
    rw [hbytes]
    exact hmeaning
  | entity | boolean _ | int64 _ | uint64 _ | double _ | string _ => rfl

/-! ## Writing a row -/

/-- The entries that the columns of a row become. -/
def Written (row : Api.Row) (entries : List (List UInt8 × YsonValue)) : Prop :=
  List.Forall₂ (fun column entry => entry.1 = asBytes column.1 ∧ meaning column.2 = some entry.2)
    row.columns entries

/-- The entry of an admitted column. -/
theorem Admitted.entry {row : Api.Row} (h : Admitted row) {entries : List (List UInt8 × YsonValue)}
    (hentries : Written row entries) :
    ∀ entry ∈ entries, entry.1.length ≤ isizeMax ∧ entry.2.Settled depthLimit 1 := by
  intro entry hentry
  obtain ⟨column, hcolumn, hname, hmeaning⟩ := ExceptList.forall₂_right hentries entry hentry
  obtain ⟨v, hv, hfits⟩ := h.values column hcolumn
  cases hmeaning.symm.trans hv
  constructor
  · rw [hname]
    exact h.names column hcolumn
  · have hheld := h.held column hcolumn
    exact ⟨meaning_valid hheld hmeaning, meaning_unambiguous hheld hmeaning, hfits⟩

/-- The value that an admitted row is written as. -/
theorem Admitted.row_ok {row : Api.Row} (h : Admitted row) :
    ∃ entries, Written row entries ∧ rowToYson row = .ok (ysonMap entries) := by
  have hcolumns : ∀ column ∈ row.columns, ∃ entry, columnToYson column = .ok entry := by
    intro column hcolumn
    obtain ⟨v, hv, _⟩ := h.values column hcolumn
    exact ⟨(asBytes column.1, v), columnToYson_ok_iff.mpr ⟨rfl, hv⟩⟩
  obtain ⟨entries, hentries⟩ := ExceptList.mapM_succeeds_iff.mpr hcolumns
  refine ⟨entries, ?_, ?_⟩
  · exact (ExceptList.mapM_ok_iff.mp hentries).imp fun _ _ => columnToYson_ok_iff.mp
  · unfold rowToYson
    rw [hentries]
    rfl

/-- The map of a row, as a document that is written and scanned. -/
theorem Admitted.map_valid {row : Api.Row} (h : Admitted row)
    {entries : List (List UInt8 × YsonValue)} (hentries : Written row entries) :
    (ysonMap entries).All YsonValue.Valid ∧ (ysonMap entries).doc.Fits depthLimit 0 := by
  have hinside : ∀ entry ∈ SortedMap.extend [] entries,
      entry.1.length ≤ isizeMax ∧ entry.2.Settled depthLimit 1 := by
    intro entry hentry
    rcases SortedMap.mem_extend hentry with hnil | hentry
    · cases hnil
    · exact h.entry hentries entry hentry
  have hchildren : ∀ w ∈ (ysonMap entries).children, w.Settled depthLimit 1 := by
    intro w hw
    obtain ⟨entry, hentry, rfl⟩ := List.mem_map.mp (show w ∈ _ from hw)
    exact (hinside entry hentry).2
  constructor
  · apply YsonValue.All.intro
    · refine ⟨.nil, fun es hes => ?_, fun s hs => by cases hs⟩
      cases hes
      exact ⟨SortedMap.Sorted.nil.extend entries, fun entry hentry => (hinside entry hentry).1⟩
    · intro w hw
      exact (hchildren w hw).valid
  · show (Doc.map (spaced true (entriesDoc (SortedMap.extend [] entries))) 0).Fits depthLimit 0
    rw [Doc.fits_map, mapEntries_spaced]
    refine ⟨by decide, YsonValue.forall_entriesDoc (P := fun d => d.Fits depthLimit 1) ?_⟩
    intro w hw
    obtain ⟨entry, hentry, rfl⟩ := List.mem_map.mp hw
    exact (hinside entry hentry).2.fits

/-- These bytes are an admitted row as it is written. -/
structure Encoded (row : Api.Row) (bytes : List UInt8) (entries : List (List UInt8 × YsonValue)) :
    Prop where
  written : Written row entries
  encoded : EncodedAs true bytes (ysonMap entries).doc

/-- A row goes behind whatever is in the buffer. -/
theorem Admitted.encoded {row : Api.Row} (h : Admitted row) (buffer : List UInt8) :
    ∃ entries bytes, Encoded row bytes entries ∧ rowToYson row = .ok (ysonMap entries) ∧
      ∃ serializer, (ysonMap entries).toData.serialize ⟨buffer, true, false⟩ = .ok serializer ∧
        serializer.output = buffer ++ bytes := by
  obtain ⟨entries, hentries, hrow⟩ := h.row_ok
  have hencodes : Encodes true (ysonMap entries).toData (ysonMap entries).doc :=
    YsonValue.encodes (fun hb => by cases hb) _ (h.map_valid hentries).1 (fun hb => by cases hb)
  obtain ⟨bytes, hrun, hwrites⟩ := hencodes.serialize ⟨buffer, true, false⟩ rfl rfl
  exact ⟨entries, bytes, ⟨hentries, hwrites, hencodes.singleSep⟩, hrow, _, hrun, rfl⟩

/-- **Admitted rows are written as a fragment of their maps.** -/
theorem rowsToFragmentLoop_ok {rows : List Api.Row} (h : ∀ row ∈ rows, Admitted row)
    (buffer : List UInt8) : ∃ encoded : List (List UInt8),
      rowsToFragmentLoop buffer rows = .ok (buffer ++ fragment separator encoded) ∧
        List.Forall₂ (fun row bytes => ∃ entries, Encoded row bytes entries) rows encoded := by
  induction rows generalizing buffer with
  | nil =>
    refine ⟨[], ?_, .nil⟩
    rw [rowsToFragmentLoop]
    show _ = Except.ok (buffer ++ [])
    rw [List.append_nil]
  | cons row rows ih =>
    obtain ⟨hrow, hrest⟩ := List.forall_mem_cons.mp h
    obtain ⟨entries, bytes, hencoded, hyson, serializer, hrun, houtput⟩ := hrow.encoded buffer
    obtain ⟨encoded, hloop, hall⟩ := ih hrest (serializer.output ++ [separator])
    refine ⟨bytes :: encoded, ?_, .cons ⟨entries, hencoded⟩ hall⟩
    rw [rowsToFragmentLoop, hyson]
    dsimp only [bind, Except.bind]
    rw [hrun]
    show rowsToFragmentLoop (serializer.output ++ [separator]) rows = _
    rw [hloop, houtput, fragment_cons]
    simp only [List.append_assoc, List.singleton_append]

/-! ## Reading the rows -/

/-- What the reader makes of the bytes of one row. -/
def readRow (bytes : List UInt8) : Except ClientError Api.MaybeRow :=
  match YsonValue.fromSlice bytes .binary with
  | .error e => .error (.decodeRow "lookup_rows" (.malformedRow e))
  | .ok value => .ok (ysonToRow value)

/-- **A fragment is read one row at a time.** -/
theorem fragmentToRowsLoop_fragment {encoded : List (List UInt8)} {fuel : Nat}
    {rows : List Api.MaybeRow} {data : List UInt8}
    (hencoded : ∀ bytes ∈ encoded, IsRecord (scanMeasure .binary) isSeparator bytes)
    (hdata : data.dropWhile isSeparator = fragment separator encoded)
    (hfuel : data.length < fuel) :
    fragmentToRowsLoop fuel rows data = (encoded.mapM readRow).map (rows ++ ·) := by
  induction encoded generalizing fuel rows data with
  | nil =>
    obtain ⟨fuel, rfl⟩ := Nat.exists_eq_succ_of_ne_zero (Nat.ne_of_gt (Nat.zero_lt_of_lt hfuel))
    rw [fragmentToRowsLoop, hdata]
    show Except.ok rows = .ok (rows ++ [])
    rw [List.append_nil]
  | cons bytes encoded ih =>
    obtain ⟨hrecord, hrest⟩ := List.forall_mem_cons.mp hencoded
    obtain ⟨fuel, rfl⟩ := Nat.exists_eq_succ_of_ne_zero (Nat.ne_of_gt (Nat.zero_lt_of_lt hfuel))
    rw [fragment_cons] at hdata
    have hpos := hrecord.length_pos scanMeasure_stable
    have hscan : scanValue (bytes ++ separator :: fragment separator encoded) .binary =
        .ok (.complete bytes.length) :=
      scanMeasure_complete.mp (scanMeasure_stable.extend_complete hrecord.complete _)
    have hle : (data.dropWhile isSeparator).length ≤ data.length :=
      (List.dropWhile_suffix isSeparator).length_le
    rw [hdata, List.length_append, List.length_cons] at hle
    have hnext : (separator :: fragment separator encoded).dropWhile isSeparator =
        fragment separator encoded := by
      rw [List.dropWhile_cons_of_pos isSeparator_separator]
      cases encoded with
      | nil => rfl
      | cons bytes' encoded =>
        rw [fragment_cons]
        exact ((hrest bytes' List.mem_cons_self).dropWhile_append scanMeasure_stable _).1
    have hshort : (separator :: fragment separator encoded).length < fuel := by
      rw [List.length_cons]
      omega
    rw [fragmentToRowsLoop, hdata, if_neg (List.append_ne_nil_of_left_ne_nil
      (List.ne_nil_of_length_pos hpos) _), hscan]
    dsimp only
    rw [List.take_left, List.drop_left, List.mapM_cons]
    cases hvalue : YsonValue.fromSlice bytes .binary with
    | error e =>
      have hread : readRow bytes = .error (.decodeRow "lookup_rows" (.malformedRow e)) := by
        unfold readRow
        rw [hvalue]
      rw [hread]
      rfl
    | ok value =>
      have hread : readRow bytes = .ok (ysonToRow value) := by
        unfold readRow
        rw [hvalue]
      dsimp only
      rw [hread, ih hrest hnext hshort]
      cases encoded.mapM readRow with
      | error e => rfl
      | ok read =>
        show Except.ok (rows ++ [ysonToRow value] ++ read) = .ok (rows ++ ysonToRow value :: read)
        rw [List.append_assoc, List.singleton_append]

omit [FloatText] in
/-- Repairing the text of a plain key leaves it plain. -/
theorem isPlainKey_lossy {key : List UInt8} (h : isPlainKey key) :
    isPlainKey (asBytes (fromUtf8Lossy key)) := by
  obtain ⟨hattribute, hvalue⟩ := isPlainKey_iff.mp h
  apply isPlainKey_iff.mpr
  constructor
  · intro name hname
    have hhead : key.head? = some 0x40 := Utf8.lossy_head (by decide) hname
    cases key with
    | nil => cases hhead
    | cons b key =>
      cases hhead
      exact hattribute key rfl
  · intro hbody
    have htext : fromUtf8Lossy key = "$value" := by
      apply Utf8.asBytes_injective
      rw [hbody]
      decide +kernel
    have hbytes : asBytes "$value" = valueKey ∧
        ("$value".toList.map fun c => UInt8.ofNat c.toNat) = valueKey := by
      decide +kernel
    rcases Utf8.lossy_eq_ascii (by simp) htext with hkey | hkey
    · exact hvalue (hkey.trans hbytes.1)
    · exact hvalue (hkey.trans hbytes.2)

/-- The columns of the row that a map becomes. -/
theorem foldl_set (es : List (List UInt8 × YsonValue)) (row : Api.Row) :
    es.foldl (fun row entry => row.set (fromUtf8Lossy entry.1) (ysonToValue entry.2)) row =
      ⟨row.columns ++ es.map fun entry => (fromUtf8Lossy entry.1, ysonToValue entry.2)⟩ := by
  induction es generalizing row with
  | nil =>
    rw [List.map_nil, List.append_nil]
    rfl
  | cons e es ih =>
    rw [List.foldl_cons, ih, List.map_cons]
    show Api.Row.mk ((row.columns ++ [_]) ++ _) = _
    rw [List.append_assoc, List.singleton_append]

theorem ysonToRow_map (attributes : Option (List (List UInt8 × YsonValue)))
    (es : List (List UInt8 × YsonValue)) : ysonToRow ⟨attributes, .map es⟩ =
      some ⟨es.map fun entry => (fromUtf8Lossy entry.1, ysonToValue entry.2)⟩ :=
  congrArg some (foldl_set es .new)

/-- **A row that is read back has plain names only.** -/
theorem plain_of_read {value : YsonValue} {read : Api.Row} (h : value.All YsonValue.Unambiguous)
    (hread : ysonToRow value = some read) :
    ∀ column ∈ read.columns, isPlainKey (asBytes column.1) := by
  unfold ysonToRow at hread
  cases hnode : value.node with
  | entity =>
    rw [hnode] at hread
    cases hread
  | map es =>
    rw [hnode] at hread
    dsimp only at hread
    rw [foldl_set] at hread
    cases hread
    intro column hcolumn
    obtain ⟨entry, hentry, rfl⟩ := List.mem_map.mp hcolumn
    exact isPlainKey_lossy (h.here.keys es hnode entry hentry)
  | list _ | boolean _ | int64 _ | uint64 _ | double _ | string _ =>
    rw [hnode] at hread
    cases hread
    intro column hcolumn
    cases hcolumn

/-! ## One row -/

/-- What a row with plain names reads back as. -/
theorem Encoded.read_plain {row : Api.Row} {bytes : List UInt8}
    {entries : List (List UInt8 × YsonValue)} (hrow : Admitted row)
    (h : Encoded row bytes entries) (hplain : ∀ column ∈ row.columns, isPlainKey (asBytes column.1)) :
    readRow bytes = .ok (some ⟨(SortedMap.extend [] entries).map fun entry =>
      (fromUtf8Lossy entry.1, ysonToValue entry.2.collapse)⟩) := by
  obtain ⟨hvalid, hfits⟩ := hrow.map_valid h.written
  have hunambiguous : (ysonMap entries).All YsonValue.Unambiguous := by
    have hinside : ∀ entry ∈ SortedMap.extend [] entries, entry ∈ entries := by
      intro entry hentry
      exact (SortedMap.mem_extend hentry).resolve_left List.not_mem_nil
    apply YsonValue.All.intro
    · constructor
      · intro hnone
        cases hnone
      intro es hes entry hentry
      cases hes
      obtain ⟨column, hcolumn, hname, _⟩ :=
        ExceptList.forall₂_right h.written entry (hinside entry hentry)
      rw [hname]
      exact hplain column hcolumn
    · intro w hw
      obtain ⟨entry, hentry, rfl⟩ := List.mem_map.mp (show w ∈ _ from hw)
      exact (hrow.entry h.written entry (hinside entry hentry)).2.unambiguous
  have hsettled : (ysonMap entries).Settled depthLimit 0 := ⟨hvalid, hunambiguous, hfits⟩
  unfold readRow
  rw [@EncodedAs.fromSlice _ bytes _ .binary h.encoded, (hsettled.reads (Nat.zero_le _)).1]
  show Except.ok (ysonToRow ⟨none, .map (collapseEntries (SortedMap.extend [] entries))⟩) = _
  rw [ysonToRow_map, collapseEntries_eq, List.map_map]
  rfl

/-- The last entry of a name holds what its last column stands for. -/
theorem lastOf_written {row : Api.Row} {entries : List (List UInt8 × YsonValue)}
    (h : Written row entries) (name : String) :
    Option.Rel (fun value v => meaning value = some v) (lastOf row name)
      (SortedMap.lookup (asBytes name) (SortedMap.extend [] entries)) := by
  have hfind := ExceptList.forall₂_find? (p := fun column => column.1 == name)
    (q := fun entry => decide (entry.1 = asBytes name)) ?_ (List.forall₂_reverse_iff.mpr h)
  · rw [SortedMap.lookup_extend]
    unfold lastOf
    generalize row.columns.reverse.find? _ = column at hfind ⊢
    generalize entries.reverse.find? _ = entry at hfind ⊢
    cases hfind with
    | none => exact .none
    | some hab => exact .some hab.2
  · intro column entry hcolumn
    rw [hcolumn.1, Bool.eq_iff_iff, beq_iff_eq, decide_eq_true_iff]
    constructor
    · intro heq
      rw [heq]
    · exact Utf8.asBytes_injective

/-- The columns read back are found by name as the entries are by key. -/
theorem get_read {m : List (List UInt8 × YsonValue)} (hkeys : ∀ entry ∈ m, ∃ n, entry.1 = asBytes n)
    (name : String) :
    (Api.Row.mk (m.map fun entry => (fromUtf8Lossy entry.1, ysonToValue entry.2.collapse))).get
      name = (SortedMap.lookup (asBytes name) m).map fun v => ysonToValue v.collapse := by
  unfold Api.Row.get
  rw [SortedMap.lookup_eq_find?, List.find?_map, Option.map_map, Option.map_map]
  have hfind : m.find? ((fun column => column.1 == name) ∘ fun entry =>
      (fromUtf8Lossy entry.1, ysonToValue entry.2.collapse)) =
      m.find? fun entry => decide (entry.1 = asBytes name) := by
    apply List.find?_congr
    intro entry hentry
    obtain ⟨n, hn⟩ := hkeys entry hentry
    show (fromUtf8Lossy entry.1 == name) = decide (entry.1 = asBytes name)
    rw [hn, Utf8.fromUtf8Lossy_asBytes, Bool.eq_iff_iff, beq_iff_eq, decide_eq_true_iff]
    constructor
    · intro heq
      rw [heq]
    · exact Utf8.asBytes_injective
  rw [hfind]
  rfl

/-- Under every name the row read back holds what the row holds. -/
def SameMeaning (row read : Api.Row) : Prop :=
  ∀ name, (read.get name).map meaning = (row.get name).map meaning

/-- What a row must be to mean the same when it is read back: no name is `$value` or begins with
`@`, and the last column of a name is read back as what the first one stands for. -/
structure SurvivesHttp (row : Api.Row) : Prop where
  plain : ∀ column ∈ row.columns, isPlainKey (asBytes column.1)
  last : ∀ name first last v w, row.get name = some first → lastOf row name = some last →
    meaning first = some v → meaning last = some w → asColumn w = v

omit [FloatText] in
theorem get_isSome_iff {row : Api.Row} {name : String} :
    (row.get name).isSome ↔ ∃ column ∈ row.columns, column.1 = name := by
  unfold Api.Row.get
  rw [Option.isSome_map, List.find?_isSome]
  simp only [beq_iff_eq]

omit [FloatText] in
theorem lastOf_isSome_iff {row : Api.Row} {name : String} :
    (lastOf row name).isSome ↔ ∃ column ∈ row.columns, column.1 = name := by
  unfold lastOf
  rw [Option.isSome_map, List.find?_isSome]
  simp only [List.mem_reverse, beq_iff_eq]

omit [FloatText] in
theorem mem_of_get {row : Api.Row} {name : String} {value : Api.Value}
    (h : row.get name = some value) : ∃ column ∈ row.columns, column.2 = value := by
  unfold Api.Row.get at h
  obtain ⟨column, hcolumn, rfl⟩ := Option.map_eq_some_iff.mp h
  exact ⟨column, List.mem_of_find?_eq_some hcolumn, rfl⟩

/-- What the row that is read back holds under a name. -/
theorem Encoded.get_read {row : Api.Row} {bytes : List UInt8}
    {entries : List (List UInt8 × YsonValue)} (hrow : Admitted row) (h : Encoded row bytes entries)
    (name : String) :
    Option.Rel (fun value read => ∃ w, meaning value = some w ∧ meaning read = some (asColumn w))
      (lastOf row name)
      ((Api.Row.mk ((SortedMap.extend [] entries).map fun entry =>
        (fromUtf8Lossy entry.1, ysonToValue entry.2.collapse))).get name) := by
  have hmem : ∀ entry ∈ SortedMap.extend [] entries, entry ∈ entries := by
    intro entry hentry
    exact (SortedMap.mem_extend hentry).resolve_left List.not_mem_nil
  have hkeys : ∀ entry ∈ SortedMap.extend [] entries, ∃ n, entry.1 = asBytes n := by
    intro entry hentry
    obtain ⟨column, _, hname, _⟩ := ExceptList.forall₂_right h.written entry (hmem entry hentry)
    exact ⟨column.1, hname⟩
  rw [Client.get_read hkeys]
  have hlast := lastOf_written h.written name
  cases hlookup : SortedMap.lookup (asBytes name) (SortedMap.extend [] entries) with
  | none =>
    rw [hlookup] at hlast
    generalize lastOf row name = value at hlast ⊢
    cases hlast
    exact .none
  | some w =>
    rw [hlookup] at hlast
    generalize lastOf row name = value at hlast ⊢
    cases hlast with
    | some hvalue =>
      have hsettled := (hrow.entry h.written _ (hmem _ (SortedMap.mem_of_lookup hlookup))).2
      exact .some ⟨w, hvalue, meaning_ysonToValue hsettled⟩

/-- **A row is read back as a row of the same meaning exactly when it survives.** -/
theorem Encoded.same_iff {row : Api.Row} {bytes : List UInt8}
    {entries : List (List UInt8 × YsonValue)} (hrow : Admitted row)
    (h : Encoded row bytes entries) :
    (∃ read, readRow bytes = .ok (some read) ∧ SameMeaning row read) ↔ SurvivesHttp row := by
  have hplain : ∀ read, readRow bytes = .ok (some read) → SameMeaning row read →
      ∀ column ∈ row.columns, isPlainKey (asBytes column.1) := by
    intro read hread hsame column hcolumn
    unfold readRow at hread
    rw [@EncodedAs.fromSlice _ bytes _ .binary h.encoded] at hread
    cases hvalue : (ysonMap entries).doc.value depthLimit 0 with
    | error e =>
      rw [hvalue] at hread
      cases hread
    | ok value =>
      rw [hvalue] at hread
      have hstrings := (ysonMap entries).doc_stringsFit (hrow.map_valid h.written).1
      have hsettled := Doc.value_settled _ (Nat.zero_le _) hstrings hvalue
      have hkeys := plain_of_read hsettled.unambiguous (Except.ok.inj hread)
      have hfound : (row.get column.1).isSome := get_isSome_iff.mpr ⟨column, hcolumn, rfl⟩
      have hback : (read.get column.1).isSome := by
        rw [← Option.isSome_map, hsame column.1, Option.isSome_map]
        exact hfound
      obtain ⟨column', hcolumn', hname⟩ := get_isSome_iff.mp hback
      rw [← hname]
      exact hkeys column' hcolumn'
  constructor
  · intro hback
    obtain ⟨read, hread, hsame⟩ := hback
    have hnames := hplain read hread hsame
    refine ⟨hnames, ?_⟩
    intro name first last v w hfirst hlast hv hw
    rw [h.read_plain hrow hnames] at hread
    obtain rfl := Option.some.inj (Except.ok.inj hread)
    have hname := hsame name
    have hread := h.get_read hrow name
    rw [hlast] at hread
    generalize Api.Row.get _ name = value at hname hread
    cases hread with
    | some hvalue =>
      obtain ⟨w', hw', hmeaning⟩ := hvalue
      cases hw.symm.trans hw'
      rw [hfirst] at hname
      have hboth := Option.some.inj hname
      rw [hmeaning, hv] at hboth
      exact Option.some.inj hboth
  · intro hsurvives
    refine ⟨_, h.read_plain hrow hsurvives.plain, ?_⟩
    intro name
    have hread := h.get_read hrow name
    cases hfirst : row.get name with
    | none =>
      cases hlast : lastOf row name with
      | none =>
        rw [hlast] at hread
        generalize Api.Row.get _ name = value at hread ⊢
        cases hread
        rfl
      | some last =>
        have hsome := get_isSome_iff.mpr (lastOf_isSome_iff.mp (Option.isSome_of_eq_some hlast))
        rw [hfirst] at hsome
        cases hsome
    | some first =>
      cases hlast : lastOf row name with
      | none =>
        have hsome := lastOf_isSome_iff.mpr (get_isSome_iff.mp (Option.isSome_of_eq_some hfirst))
        rw [hlast] at hsome
        cases hsome
      | some last =>
        obtain ⟨column, hcolumn, rfl⟩ := mem_of_get hfirst
        obtain ⟨v, hv, _⟩ := hrow.values column hcolumn
        rw [hlast] at hread
        generalize Api.Row.get _ name = value at hread ⊢
        cases hread with
        | some hvalue =>
          obtain ⟨w, hw, hmeaning⟩ := hvalue
          have hcolumn' := hsurvives.last name _ _ v w hfirst hlast hv hw
          rw [Option.map_some, Option.map_some, hmeaning, hv, hcolumn']

/-! ## All rows -/

/-- Written and read again, the rows are as many and in the same order, none is missing, and each
one stands in this relation to its original. -/
def ReadBack (R : Api.Row → Api.Row → Prop) (rows : List Api.Row) : Prop :=
  ∃ fragment read, rowsToFragment rows = .ok fragment ∧
    fragmentToRows fragment = .ok (read.map some) ∧ List.Forall₂ R rows read

/-- The fragment that admitted rows are written as, and how it is read. -/
theorem fragment_read {rows : List Api.Row} (h : ∀ row ∈ rows, Admitted row) :
    ∃ fragment encoded, rowsToFragment rows = .ok fragment ∧
      fragmentToRows fragment = encoded.mapM readRow ∧
      List.Forall₂ (fun row bytes => Admitted row ∧ ∃ entries, Encoded row bytes entries)
        rows encoded := by
  obtain ⟨encoded, hrun, hall⟩ := rowsToFragmentLoop_ok h []
  have hboth : List.Forall₂ (fun row bytes => Admitted row ∧ ∃ entries, Encoded row bytes entries)
      rows encoded := by
    clear hrun
    induction hall with
    | nil => exact .nil
    | cons hrow _ ih =>
      obtain ⟨hadmitted, hrest⟩ := List.forall_mem_cons.mp h
      exact .cons ⟨hadmitted, hrow⟩ (ih hrest)
  refine ⟨fragment separator encoded, encoded, hrun, ?_, hboth⟩
  have hrecords : ∀ bytes ∈ encoded, IsRecord (scanMeasure .binary) isSeparator bytes := by
    intro bytes hbytes
    obtain ⟨row, _, hadmitted, entries, hencoded⟩ := ExceptList.forall₂_right hboth bytes hbytes
    apply isRecord_of_encodedAs hencoded.encoded
    -- the scanner counts no more levels than the decoder, which takes the row
    have hlevels := (ysonMap entries).nesting_le
    have hfits := (hadmitted.map_valid hencoded.written).2
    exact (ysonMap entries).doc_scans
      (Nat.le_trans (Nat.add_le_add_left hlevels 0) hfits)
  have hdata : (fragment separator encoded).dropWhile isSeparator = fragment separator encoded := by
    cases encoded with
    | nil => rfl
    | cons bytes encoded =>
      rw [fragment_cons]
      exact ((hrecords bytes List.mem_cons_self).dropWhile_append scanMeasure_stable _).1
  unfold fragmentToRows
  rw [fragmentToRowsLoop_fragment hrecords hdata (Nat.lt_succ_self _)]
  cases encoded.mapM readRow <;> rfl

theorem readBack_iff {rows : List Api.Row} (h : ∀ row ∈ rows, Admitted row) :
    ReadBack SameMeaning rows ↔ ∀ row ∈ rows, SurvivesHttp row := by
  obtain ⟨fragment, encoded, hwrite, hread, hall⟩ := fragment_read h
  have hloop : ReadBack SameMeaning rows ↔ ∃ read : List Api.Row,
      encoded.mapM readRow = .ok (read.map some) ∧ List.Forall₂ SameMeaning rows read := by
    unfold ReadBack
    rw [hwrite]
    constructor
    · intro hback
      obtain ⟨fragment', read, hfragment, hrun, hsame⟩ := hback
      cases hfragment
      exact ⟨read, hread.symm.trans hrun, hsame⟩
    · intro hback
      obtain ⟨read, hrun, hsame⟩ := hback
      exact ⟨fragment, read, rfl, hread.trans hrun, hsame⟩
  rw [hloop]
  clear hloop hwrite hread h
  induction hall with
  | nil =>
    constructor
    · intro _ row hrow
      cases hrow
    · intro _
      exact ⟨[], rfl, .nil⟩
  | @cons row bytes rows encoded hrow _ ih =>
    obtain ⟨hadmitted, entries, hencoded⟩ := hrow
    rw [List.forall_mem_cons, ← hencoded.same_iff hadmitted, ih.symm]
    constructor
    · intro hback
      obtain ⟨read, hrun, hsame⟩ := hback
      cases hsame with
      | @cons _ first _ rest hfirst hrest =>
        have hruns := ExceptList.mapM_ok_iff.mp hrun
        rw [List.map_cons, List.forall₂_cons] at hruns
        exact ⟨⟨first, hruns.1, hfirst⟩, rest, ExceptList.mapM_ok_iff.mpr hruns.2, hrest⟩
    · intro hback
      obtain ⟨⟨first, hrun, hfirst⟩, rest, hruns, hrest⟩ := hback
      refine ⟨first :: rest, ?_, .cons hfirst hrest⟩
      rw [ExceptList.mapM_ok_iff, List.map_cons]
      exact .cons hrun (ExceptList.mapM_ok_iff.mp hruns)

/-- What the row that came over HTTP holds is what the row holds, and what the row that came over
RPC holds, whichever table numbers its columns. -/
def SameOverBoth (row read : Api.Row) : Prop :=
  SameMeaning row read ∧ ∀ columns values, Rpc.rowToWire row columns = .ok values →
    ∃ named, Rpc.rowFromWire values columns = .ok named ∧ SameMeaning named read

/-- **Rows mean the same over HTTP as over RPC exactly when each of them survives HTTP.** -/
theorem row_meaning_iff {rows : List Api.Row} (h : ∀ row ∈ rows, Admitted row) :
    ReadBack SameOverBoth rows ↔ ∀ row ∈ rows, SurvivesHttp row := by
  rw [← readBack_iff h]
  constructor
  · intro hback
    obtain ⟨fragment, read, hwrite, hread, hsame⟩ := hback
    exact ⟨fragment, read, hwrite, hread, hsame.imp fun _ _ hboth => hboth.1⟩
  · intro hback
    obtain ⟨fragment, read, hwrite, hread, hsame⟩ := hback
    refine ⟨fragment, read, hwrite, hread, hsame.imp ?_⟩
    intro row read hrow
    refine ⟨hrow, ?_⟩
    intro columns values hvalues
    exact ⟨row, Rpc.rowFromWire_rowToWire hvalues, hrow⟩

/-- A row without values that need decoding. -/
theorem admitted_of_scalars {row : Api.Row}
    (hnames : ∀ column ∈ row.columns, (asBytes column.1).length ≤ isizeMax)
    (hvalues : ∀ column ∈ row.columns, Held column.2 ∧ ∀ bytes, column.2 ≠ .any bytes) :
    Admitted row where
  names := hnames
  held column hcolumn := (hvalues column hcolumn).1
  values := by
    intro column hcolumn
    have hany := (hvalues column hcolumn).2
    generalize column.2 = value at hany
    cases value with
    | any bytes => exact absurd rfl (hany bytes)
    | null | int64 _ | uint64 _ | double _ | boolean _ | string _ =>
      exact ⟨_, rfl, show 1 ≤ depthLimit by decide⟩

omit [FloatText] in
theorem row_meaning_scalars :
    @ReadBack plainFloatText (@SameOverBoth plainFloatText) [⟨[("a", .int64 1), ("b", .null)]⟩] ↔
      ∀ row ∈ [Api.Row.mk [("a", .int64 1), ("b", .null)]],
        @SurvivesHttp plainFloatText row := by
  let _ : FloatText := plainFloatText
  apply row_meaning_iff
  rw [List.forall_mem_singleton]
  apply admitted_of_scalars
  · decide +kernel
  · simp [Held]

/-- Two values in one column, of which the reader gets the second. -/
def repeatedName : Api.Row := ⟨[("a", .int64 1), ("a", .int64 2)]⟩

/-- A column whose name is that of an attribute. -/
def attributeName : Api.Row := ⟨[("@a", .int64 1)]⟩

/-- A scalar with attributes, which are not read back. -/
def attributedScalar : Api.Row := ⟨[("a", .any (ascii "<x=1>5"))]⟩

omit [FloatText] in
theorem admitted_attributedScalar : @Admitted plainFloatText attributedScalar := by
  let _ : FloatText := plainFloatText
  constructor
  · decide +kernel
  · unfold attributedScalar
    rw [List.forall_mem_singleton]
    show (ascii "<x=1>5").length ≤ isizeMax
    decide +kernel
  · unfold attributedScalar
    rw [List.forall_mem_singleton]
    have hlevels : ((anyMeaning (ascii "<x=1>5")).map fun v => v.doc.levels) = some 1 := by
      decide +kernel
    obtain ⟨v, hv, hone⟩ := Option.map_eq_some_iff.mp hlevels
    refine ⟨v, hv, ?_⟩
    unfold Doc.Fits
    rw [hone]
    decide

/-- The interface admits the row, and it does not come back over HTTP as it does over RPC. -/
def LostOverHttp (row : Api.Row) : Prop := Admitted row ∧ ¬ ReadBack SameOverBoth [row]

theorem lostOverHttp {row : Api.Row} (h : Admitted row) (hsurvives : ¬ SurvivesHttp row) :
    LostOverHttp row := by
  refine ⟨h, ?_⟩
  intro hback
  obtain ⟨fragment, read, hwrite, hread, hsame⟩ := hback
  have hmeaning : ReadBack SameMeaning [row] :=
    ⟨fragment, read, hwrite, hread, hsame.imp fun _ _ hboth => hboth.1⟩
  rw [readBack_iff (List.forall_mem_singleton.mpr h)] at hmeaning
  exact hsurvives (hmeaning row List.mem_cons_self)

omit [FloatText] in
/-- A repeated name, a name with a meaning in YSON, and attributes on a scalar. -/
theorem row_meaning_lost :
    @LostOverHttp plainFloatText repeatedName ∧ @LostOverHttp plainFloatText attributeName ∧
      @LostOverHttp plainFloatText attributedScalar := by
  let _ : FloatText := plainFloatText
  refine ⟨lostOverHttp ?_ ?_, lostOverHttp ?_ ?_, lostOverHttp admitted_attributedScalar ?_⟩
  · apply admitted_of_scalars
    · decide +kernel
    · simp [repeatedName, Held]
  · intro hsurvives
    have heq := hsurvives.last "a" (.int64 1) (.int64 2) _ _ (by decide) (by decide) rfl rfl
    cases heq
  · apply admitted_of_scalars
    · decide +kernel
    · simp [attributeName, Held]
  · intro hsurvives
    have hplain := hsurvives.plain _ List.mem_cons_self
    have hnot : isPlainKey (asBytes "@a") = false := by decide +kernel
    rw [hnot] at hplain
    cases hplain
  · intro hsurvives
    have hattributes : ((anyMeaning (ascii "<x=1>5")).map fun v =>
        (v.attributes.isSome, (asColumn v).attributes.isSome)) = some (true, false) := by
      decide +kernel
    obtain ⟨v, hv, hboth⟩ := Option.map_eq_some_iff.mp hattributes
    have heq := hsurvives.last "a" _ _ v v rfl rfl hv hv
    rw [heq] at hboth
    have hsome := congrArg Prod.fst hboth
    have hnone := congrArg Prod.snd hboth
    exact Bool.noConfusion (hsome.symm.trans hnone)

end Ytsaurus.Client
