import Ytsaurus.Proof.Job.Chunks
import Ytsaurus.Proof.Job.Groups

/-!
# `Proof/Job/Controls.lean` — what control records do to the rows behind them

Rows are positioned by folding over the records in front of them: every recognised attribute
of a control record takes effect, a table index before the others, and a row moves the row index
on by one. That is `positioned`, the statement of what control records are for; its indices are
integers, so that one more is always one more.

The reader differs from it in two ways. `classify_attributed` returns at the first recognised
attribute in key order, so the others of the same record have no effect; and its row index is an
`i64` that `consume` adds one to, whatever it is. Where no control record carries two recognised
attributes (`Single`) and no row stands at the largest index (`counts`), the two agree
(`positioned_events`), whether the rows are read one by one or by groups.

A record is a control record when it is an entity with attributes, which the reader finds out by
decoding it (`controlOf`). Attributes that nobody recognises are passed over and change nothing,
so they may stand beside a recognised one, before it or behind it in key order; the reader's loop
and the fold are compared by what is found under the recognised names (`same_effect`). Both are
about recognised attributes of the type they should have; with another type the record is refused.
-/

set_option autoImplicit false

namespace Ytsaurus.Job

open Yson Framing

/-! ## Attributes -/

def int64Of : YsonNode → Option Int64
  | .int64 i => some i
  | _ => none

def booleanOf : YsonNode → Option Bool
  | .boolean b => some b
  | _ => none

/-- What an attribute of this name says, if it is an int64. -/
def int64At (name : String) (attributes : List (List UInt8 × YsonValue)) : Option Int64 :=
  (SortedMap.lookup (ascii name) attributes).bind fun v => int64Of v.node

/-- Whether a control record is a key switch. -/
def switches (attributes : List (List UInt8 × YsonValue)) : Bool :=
  ((SortedMap.lookup (ascii "key_switch") attributes).bind fun v => booleanOf v.node).getD false

/-- Where a row is. Unlike the reader's own `Indices`, a position does not wrap. -/
structure Position where
  tableIndex : Int
  rowIndex : Option Int
  rangeIndex : Option Int
  deriving DecidableEq, Repr

/-- Every recognised attribute takes effect; a table index clears the others first. -/
def Position.applyAll (position : Position) (attributes : List (List UInt8 × YsonValue)) :
    Position :=
  let table : Position :=
    match int64At "table_index" attributes with
    | some i => ⟨i.toInt, none, none⟩
    | none => position
  { table with
    rowIndex := ((int64At "row_index" attributes).map Int64.toInt).or table.rowIndex
    rangeIndex := ((int64At "range_index" attributes).map Int64.toInt).or table.rangeIndex }

/-- Behind a row, one further on. -/
def Position.next (position : Position) : Position :=
  { position with rowIndex := position.rowIndex.map (· + 1) }

/-- The position that the reader's indices stand for. -/
def Indices.position (indices : Indices) : Position :=
  ⟨indices.tableIndex.toInt, indices.rowIndex.map Int64.toInt, indices.rangeIndex.map Int64.toInt⟩

def indexNames : List (List UInt8) :=
  [ascii "table_index", ascii "row_index", ascii "range_index"]

def recognised : List (List UInt8) := ascii "key_switch" :: indexNames

/-- Recognised attributes have the type they should. -/
def WellTyped (attributes : List (List UInt8 × YsonValue)) : Prop :=
  ∀ e ∈ attributes, (e.1 ∈ indexNames → (int64Of e.2.node).isSome) ∧
    (e.1 = ascii "key_switch" → (booleanOf e.2.node).isSome)

instance (attributes : List (List UInt8 × YsonValue)) : Decidable (WellTyped attributes) := by
  unfold WellTyped
  infer_instance

/-- At most one attribute is a recognised one. -/
def AtMostOne (attributes : List (List UInt8 × YsonValue)) : Prop :=
  (attributes.filter fun e => decide (e.1 ∈ recognised)).length ≤ 1

instance (attributes : List (List UInt8 × YsonValue)) : Decidable (AtMostOne attributes) := by
  unfold AtMostOne
  infer_instance

/-! ## Positions -/

variable [FloatText]

/-- The attributes of a record that is a control record: an entity behind `<`. -/
def controlOf (record : List UInt8) (format : YsonFormat) :
    Except YsonError (Option (List (List UInt8 × YsonValue))) :=
  if firstSignificantByte record format = some 0x3C then
    (YsonValue.fromSlice record format).map fun v =>
      if v.node.isEntity then some (v.attributes.getD []) else none
  else .ok none

/-- An event as it should be: a row at its position, or a key switch. -/
inductive Placed where
  | row (position : Position) (format : YsonFormat) (offset : Nat) (bytes : List UInt8)
  | keySwitch

def Placed.position? : Placed → Option Position
  | .row position _ _ _ => some position
  | .keySwitch => none

/-- An event of the reader, the indices read as numbers. -/
def Event.placed : Event → Placed
  | .row r =>
    .row (Indices.position ⟨r.tableIndex, r.rowIndex, r.rangeIndex⟩) r.format r.offset r.bytes
  | .keySwitch => .keySwitch

/-- The events of these records, every row positioned by all the control records in front of
it, and how they end. -/
def positioned (format : YsonFormat) (ending : Ending YsonError) :
    Position → List (Nat × List UInt8) → List Placed × Option JobError
  | _, [] => ([], outcomeOf ending)
  | position, (offset, record) :: records =>
    match controlOf record format with
    | .error e => ([], some (.yson offset e))
    | .ok none =>
      let rest := positioned format ending position.next records
      (.row position format offset record :: rest.1, rest.2)
    | .ok (some attributes) =>
      let rest := positioned format ending (position.applyAll attributes) records
      if switches attributes then (.keySwitch :: rest.1, rest.2) else rest

/-- No row stands at the largest index there is, where the next one would have no number. -/
def counts (format : YsonFormat) : Position → List (Nat × List UInt8) → Bool
  | _, [] => true
  | position, (_, record) :: records =>
    match controlOf record format with
    | .error _ => true
    | .ok none =>
      position.rowIndex.all (fun i => decide (i < Int64.maxValue.toInt)) &&
        counts format position.next records
    | .ok (some attributes) => counts format (position.applyAll attributes) records

/-! ## One control record -/

section Record

variable {attributes : List (List UInt8 × YsonValue)}

omit [FloatText] in
theorem int64Of_isSome {node : YsonNode} (h : (int64Of node).isSome) : ∃ i, node = .int64 i := by
  cases node with
  | int64 i => exact ⟨i, rfl⟩
  | _ => cases h

omit [FloatText] in
theorem booleanOf_isSome {node : YsonNode} (h : (booleanOf node).isSome) :
    ∃ b, node = .boolean b := by
  cases node with
  | boolean b => exact ⟨b, rfl⟩
  | _ => cases h

omit [FloatText] in
theorem lookup_cons_ne {name key : List UInt8} (v : YsonValue) (h : key ≠ name) :
    SortedMap.lookup name ((key, v) :: attributes) = SortedMap.lookup name attributes := by
  rw [SortedMap.lookup, if_neg]
  intro hcompare
  exact h (Std.LawfulEqOrd.eq_of_compare hcompare).symm

omit [FloatText] in
theorem lookup_eq_none {name : List UInt8} (h : ∀ e ∈ attributes, e.1 ≠ name) :
    SortedMap.lookup name attributes = none := by
  induction attributes with
  | nil => rfl
  | cons e attributes ih =>
    obtain ⟨hne, hrest⟩ := List.forall_mem_cons.mp h
    rw [lookup_cons_ne e.2 hne, ih hrest]

omit [FloatText] in
/-- Where one attribute is the only recognised one, looking up a recognised name finds it or
nothing. -/
theorem lookup_only {name key : List UInt8} (v : YsonValue)
    (hrest : ∀ e ∈ attributes, e.1 ∉ recognised) (hname : name ∈ recognised) :
    SortedMap.lookup name ((key, v) :: attributes) = if key = name then some v else none := by
  by_cases hkey : key = name
  · subst hkey
    rw [if_pos rfl, SortedMap.lookup, if_pos Std.ReflCmp.compare_self]
  · rw [if_neg hkey, lookup_cons_ne v hkey]
    apply lookup_eq_none
    intro e he heq
    rw [← heq] at hname
    exact hrest e he hname

omit [FloatText] in
/-- Only what is found under the recognised names has an effect. -/
theorem same_effect {attributes' : List (List UInt8 × YsonValue)}
    (h : ∀ name ∈ recognised,
      SortedMap.lookup name attributes = SortedMap.lookup name attributes') :
    switches attributes = switches attributes' ∧
      ∀ position : Position, position.applyAll attributes = position.applyAll attributes' := by
  constructor
  · unfold switches
    rw [h _ List.mem_cons_self]
  · intro position
    unfold Position.applyAll int64At
    rw [h (ascii "table_index") (by decide), h (ascii "row_index") (by decide),
      h (ascii "range_index") (by decide)]

omit [FloatText] in
/-- An attribute nobody recognises changes nothing. -/
theorem unknown_inert {key : List UInt8} (v : YsonValue) (hkey : key ∉ recognised) :
    switches ((key, v) :: attributes) = switches attributes ∧
      ∀ position : Position,
        position.applyAll ((key, v) :: attributes) = position.applyAll attributes := by
  apply same_effect
  intro name hname
  apply lookup_cons_ne
  intro heq
  exact hkey (heq ▸ hname)

omit [FloatText] in
/-- An attribute in front of unknown ones is as good as alone. -/
theorem as_alone (key : List UInt8) (v : YsonValue) (hrest : ∀ e ∈ attributes, e.1 ∉ recognised) :
    switches ((key, v) :: attributes) = switches [(key, v)] ∧
      ∀ position : Position,
        position.applyAll ((key, v) :: attributes) = position.applyAll [(key, v)] := by
  apply same_effect
  intro name hname
  rw [lookup_only v hrest hname, lookup_only v (List.forall_mem_nil _) hname]

omit [FloatText] in
/-- **One recognised attribute takes effect**: the reader makes of a control record with at
most one of them what all its attributes say. -/
theorem classifyAttributes_all (offset : Nat) (htyped : WellTyped attributes)
    (hone : AtMostOne attributes) :
    ∃ control, classifyAttributes offset attributes = .ok control ∧ control ≠ .row ∧
      (control = .keySwitch ↔ switches attributes = true) ∧
      ∀ indices : Indices,
        (indices.control control).position = indices.position.applyAll attributes := by
  induction attributes with
  | nil =>
    refine ⟨.skip, rfl, ?_, ?_, fun indices => rfl⟩
    · intro h
      cases h
    · constructor
      · intro h
        cases h
      · intro h
        cases h
  | cons entry attributes ih =>
    obtain ⟨key, v⟩ := entry
    obtain ⟨hentry, htypedRest⟩ := List.forall_mem_cons.mp htyped
    by_cases hknown : key ∈ recognised
    · -- the others are unknown
      have hrest : ∀ e ∈ attributes, e.1 ∉ recognised := by
        unfold AtMostOne at hone
        rw [List.filter_cons_of_pos (by exact decide_eq_true hknown), List.length_cons] at hone
        have hnone := List.eq_nil_of_length_eq_zero (Nat.le_zero.mp (Nat.le_of_succ_le_succ hone))
        intro e he hmem
        exact List.filter_eq_nil_iff.mp hnone e he (decide_eq_true hmem)
      obtain ⟨tags, node⟩ := v
      obtain ⟨hswitch, hindices⟩ := as_alone key ⟨tags, node⟩ hrest
      rw [hswitch]
      simp only [hindices]
      simp only [recognised, indexNames, List.mem_cons, List.not_mem_nil, or_false] at hknown
      rcases hknown with rfl | rfl | rfl | rfl
      · obtain ⟨b, hb⟩ := booleanOf_isSome (hentry.2 rfl)
        cases hb
        cases b with
        | true => exact ⟨.keySwitch, rfl, Classified.noConfusion, iff_of_true rfl rfl, fun _ => rfl⟩
        | false =>
          exact ⟨.skip, rfl, Classified.noConfusion,
          iff_of_false Classified.noConfusion Bool.false_ne_true, fun _ => rfl⟩
      · obtain ⟨i, hi⟩ := int64Of_isSome (hentry.1 (show ascii "table_index" ∈ indexNames by decide))
        cases hi
        exact ⟨.tableIndex i, rfl, Classified.noConfusion,
          iff_of_false Classified.noConfusion Bool.false_ne_true, fun _ => rfl⟩
      · obtain ⟨i, hi⟩ := int64Of_isSome (hentry.1 (show ascii "row_index" ∈ indexNames by decide))
        cases hi
        exact ⟨.rowIndex i, rfl, Classified.noConfusion,
          iff_of_false Classified.noConfusion Bool.false_ne_true, fun _ => rfl⟩
      · obtain ⟨i, hi⟩ := int64Of_isSome (hentry.1 (show ascii "range_index" ∈ indexNames by decide))
        cases hi
        exact ⟨.rangeIndex i, rfl, Classified.noConfusion,
          iff_of_false Classified.noConfusion Bool.false_ne_true, fun _ => rfl⟩
    · obtain ⟨control, hclass, hrow, hswitch, hindices⟩ := ih htypedRest (by
        unfold AtMostOne at hone
        rwa [List.filter_cons_of_neg (by exact fun h => hknown (of_decide_eq_true h))] at hone)
      obtain ⟨hsame, hall⟩ := @unknown_inert attributes key v hknown
      simp only [recognised, indexNames, List.mem_cons, List.not_mem_nil, or_false, not_or] at hknown
      obtain ⟨hswitchKey, htableKey, hrowKey, hrangeKey⟩ := hknown
      refine ⟨control, ?_, hrow, ?_, ?_⟩
      · rw [classifyAttributes, if_neg hswitchKey, if_neg htableKey, if_neg hrowKey,
          if_neg hrangeKey]
        exact hclass
      · rw [hsame]
        exact hswitch
      · intro indices
        rw [hall]
        exact hindices indices

end Record

/-! ## A stream of records -/

section Stream

variable {record : List UInt8} {format : YsonFormat} {offset : Nat}
  {attributes : List (List UInt8 × YsonValue)}

theorem classify_error {e : YsonError} (h : controlOf record format = .error e) :
    classify record format offset = .error (.yson offset e) := by
  unfold controlOf at h
  unfold classify
  by_cases hfirst : firstSignificantByte record format = some 0x3C
  · rw [if_pos hfirst] at h ⊢
    unfold classifyAttributed
    rw [ExceptList.map_eq_error.mp h]
  · rw [if_neg hfirst] at h
    cases h

theorem classify_none (h : controlOf record format = .ok none) :
    classify record format offset = .ok .row := by
  unfold controlOf at h
  unfold classify
  by_cases hfirst : firstSignificantByte record format = some 0x3C
  · rw [if_pos hfirst] at h ⊢
    obtain ⟨v, hv, hentity⟩ := ExceptList.map_eq_ok.mp h
    unfold classifyAttributed
    rw [hv]
    obtain ⟨tags, node⟩ := v
    cases node with
    | entity => cases hentity
    | _ => rfl
  · rw [if_neg hfirst]

theorem classify_some (h : controlOf record format = .ok (some attributes)) :
    classify record format offset = classifyAttributes offset attributes := by
  unfold controlOf at h
  unfold classify
  by_cases hfirst : firstSignificantByte record format = some 0x3C
  · rw [if_pos hfirst] at h ⊢
    obtain ⟨v, hv, hentity⟩ := ExceptList.map_eq_ok.mp h
    unfold classifyAttributed
    rw [hv]
    obtain ⟨tags, node⟩ := v
    cases node with
    | entity =>
      cases hentity
      cases tags <;> rfl
    | _ => cases hentity
  · rw [if_neg hfirst] at h
    cases h

/-- The control records of a stream are in the domain, and carry one recognised attribute. -/
def Single (records : List (Nat × List UInt8)) : Prop :=
  ∀ r ∈ records, ∀ attributes, controlOf r.2 .binary = .ok (some attributes) →
    WellTyped attributes ∧ AtMostOne attributes

omit [FloatText] in
/-- Away from the largest number, one more is one more. -/
theorem position_next {indices : Indices}
    (h : indices.position.rowIndex.all (fun i => decide (i < Int64.maxValue.toInt)) = true) :
    indices.next.position = indices.position.next := by
  obtain ⟨table, row, range⟩ := indices
  cases row with
  | none => rfl
  | some i =>
    have hlt : i.toInt < 9223372036854775807 := of_decide_eq_true h
    have hge := i.le_toInt
    have hnext : (i + 1).toInt = i.toInt + 1 := by
      rw [Int64.toInt_add]
      exact Int.bmod_eq_of_le (by show _ ≤ i.toInt + 1; omega) (by show i.toInt + 1 < _; omega)
    unfold Indices.next Indices.position Position.next
    simp only [Option.map_some, hnext]

/-- **The reader's fold is the intended one**, record by record. -/
theorem interpret_positioned {ending : Ending YsonError} (indices : Indices)
    {records : List (Nat × List UInt8)} (h : Single records)
    (hcounts : counts .binary indices.position records = true) :
    (interpret .binary ending indices records).1.map Event.placed =
        (positioned .binary ending indices.position records).1 ∧
      (interpret .binary ending indices records).2 =
        (positioned .binary ending indices.position records).2 := by
  induction records generalizing indices with
  | nil => exact ⟨rfl, rfl⟩
  | cons r records ih =>
    obtain ⟨offset, record⟩ := r
    obtain ⟨hrecord, hrest⟩ := List.forall_mem_cons.mp h
    unfold counts at hcounts
    cases hcontrol : controlOf record .binary with
    | error e =>
      rw [interpret, positioned, hcontrol, classify_error hcontrol]
      exact ⟨rfl, rfl⟩
    | ok found =>
      rw [hcontrol] at hcounts
      cases found with
      | none =>
        obtain ⟨hlast, hcounts⟩ := Bool.and_eq_true_iff.mp hcounts
        rw [← position_next hlast] at hcounts
        obtain ⟨hevents, hend⟩ := ih indices.next hrest hcounts
        rw [position_next hlast] at hevents hend
        rw [interpret, positioned, hcontrol, classify_none hcontrol]
        exact ⟨congrArg (Placed.row indices.position .binary offset record :: ·) hevents, hend⟩
      | some attributes =>
        obtain ⟨htyped, hone⟩ := hrecord attributes hcontrol
        obtain ⟨control, hclass, hrow, hswitch, hindices⟩ :=
          classifyAttributes_all offset htyped hone
        rw [← classify_some hcontrol] at hclass
        dsimp only at hcounts
        rw [← hindices] at hcounts
        rw [positioned, hcontrol]
        dsimp only
        rw [← hindices]
        by_cases hisSwitch : control = .keySwitch
        · subst hisSwitch
          obtain ⟨hevents, hend⟩ := ih indices hrest hcounts
          rw [interpret, hclass, if_pos (hswitch.mp rfl)]
          exact ⟨congrArg (Placed.keySwitch :: ·) hevents, hend⟩
        · rw [interpret_control hclass hrow hisSwitch, if_neg fun hsw => hisSwitch (hswitch.mpr hsw)]
          exact ih _ hrest hcounts

/-- **Control records position every row**, as long as each carries one recognised attribute
at most and no row is the last that can be counted: whether it is read by `next_event` or by
groups, skipped in part or not, each row has the indices that all the records in front of it add
up to. -/
theorem positioned_events {stream : List UInt8} {script : List ReadStep} {limit : Nat}
    {records : List (Nat × List UInt8)} {ending : Ending YsonError} (bytes : Nat)
    (asks : Nat → Nat) (hquiet : Quiet script)
    (hsplits : Splits (scanMeasure .binary) isSeparator 0 stream records ending)
    (hfits : Fits limit records ending) (hsingle : Single records)
    (hcounts : counts .binary ⟨0, none, none⟩ records = true) :
    let reader := JobReader.over stream script bytes limit
    let expected := positioned .binary ending ⟨0, none, none⟩ records
    (reader.events.1.map Event.placed = expected.1 ∧ reader.events.2 = expected.2) ∧
      reader.groups.visit asks = (asked asks 0 (reported reader.events.1), expected.2) := by
  intro reader expected
  have hevents : reader.events.1.map Event.placed = expected.1 ∧ reader.events.2 = expected.2 := by
    rw [events_eq_interpret bytes hquiet hsplits hfits]
    exact interpret_positioned ⟨0, none, none⟩ hsingle hcounts
  have hsound : reader.Sound := JobReader.Sound.of_none rfl
  refine ⟨hevents, ?_⟩
  rw [visit_groups hsound asks, hevents.2]

theorem Single.of_found {records : List (Nat × List UInt8)}
    (h : ∀ r ∈ records, ∃ found, controlOf r.2 .binary = .ok found ∧
      ∀ attributes ∈ found, WellTyped attributes ∧ AtMostOne attributes) : Single records := by
  intro r hr attributes hcontrol
  obtain ⟨found, hfound, hall⟩ := h r hr
  rw [hcontrol] at hfound
  cases hfound
  exact hall attributes rfl

/-- Records that are complete are found behind each other. -/
theorem splits_records {records : List (List UInt8)}
    (h : ∀ r ∈ records, scanValue r .binary = .ok (.complete r.length) ∧
      ∀ b ∈ r.head?, isSeparator b = false) :
    Splits (scanMeasure .binary) isSeparator 0 (fragment 0x3B records) (placed 0 records)
      .clean := by
  apply splits_fragment scanMeasure_stable (show isSeparator 0x3B = true from rfl)
  intro r hr
  obtain ⟨hcomplete, hhead⟩ := h r hr
  exact ⟨scanMeasure_complete.mpr hcomplete, hhead⟩

/-- `<row_index=5>#`, two empty rows, `<table_index=1>#`, `<range_index=2;unknown=#>#`, and a row
of the other table. -/
def positionedRows : List (List UInt8) :=
  [ascii "<" ++ [0x01, 0x12] ++ ascii "row_index=" ++ [0x02, 0x0A] ++ ascii ">#",
    ascii "\x7b\x7d", ascii "\x7b\x7d",
    ascii "<" ++ [0x01, 0x16] ++ ascii "table_index=" ++ [0x02, 0x02] ++ ascii ">#",
    ascii "<" ++ [0x01, 0x16] ++ ascii "range_index=" ++ [0x02, 0x04, 0x3B, 0x01, 0x0E] ++
      ascii "unknown=#>#",
    ascii "\x7b\x7d"]

omit [FloatText] in
theorem positioned_events_rows :
    let reader := JobReader.over (fragment 0x3B positionedRows) [] 64 100
    let expected := @positioned plainFloatText .binary .clean ⟨0, none, none⟩
      (placed 0 positionedRows)
    (((@JobReader.events plainFloatText reader).1.map Event.placed = expected.1 ∧
        (@JobReader.events plainFloatText reader).2 = expected.2) ∧
      @Groups.visit plainFloatText reader.groups (fun _ => 2) =
        (asked (fun _ => 2) 0 (reported (@JobReader.events plainFloatText reader).1),
          expected.2)) ∧
      expected.1.filterMap Placed.position? =
        [⟨0, some 5, none⟩, ⟨0, some 6, none⟩, ⟨1, none, some 2⟩] := by
  intro reader expected
  have hsplits := @splits_records plainFloatText positionedRows (by decide +kernel)
  refine ⟨?_, by decide +kernel⟩
  apply @positioned_events plainFloatText _ _ _ _ _ 64 (fun _ => 2) (List.forall_mem_nil _) hsplits
  · exact @Fits.of_length plainFloatText _ _ _ _ _ hsplits (by decide)
  · apply @Single.of_found plainFloatText
    intro r hr
    simp only [positionedRows, placed, List.mem_cons, List.not_mem_nil, or_false] at hr
    rcases hr with rfl | rfl | rfl | rfl | rfl | rfl
    all_goals exact ExceptList.exists_ok_and (by decide +kernel)
  · decide +kernel

/-- `<row_index=5;table_index=1>#`, and an empty row behind it. -/
def positionedTwice : List (List UInt8) :=
  [ascii "<" ++ [0x01, 0x12] ++ ascii "row_index=" ++ [0x02, 0x0A, 0x3B, 0x01, 0x16] ++
      ascii "table_index=" ++ [0x02, 0x02] ++ ascii ">#",
    ascii "\x7b\x7d"]

omit [FloatText] in
/-- The table index is lost: the row behind it is reported with table 0 and not 1. -/
theorem table_index_ignored :
    @Splits UInt8 YsonError (@scanMeasure plainFloatText .binary) isSeparator 0
        (fragment 0x3B positionedTwice) (placed 0 positionedTwice) .clean ∧
      (∀ r ∈ placed 0 positionedTwice, ∃ found, @controlOf plainFloatText r.2 .binary = .ok found ∧
        ∀ attributes ∈ found, WellTyped attributes) ∧
      (@JobReader.events plainFloatText
          (JobReader.over (fragment 0x3B positionedTwice) [] 64 100)).1.map Event.placed ≠
        (@positioned plainFloatText .binary .clean ⟨0, none, none⟩
          (placed 0 positionedTwice)).1 := by
  refine ⟨@splits_records plainFloatText positionedTwice (by decide +kernel), ?_, ?_⟩
  · intro r hr
    simp only [positionedTwice, placed, List.mem_cons, List.not_mem_nil, or_false] at hr
    rcases hr with rfl | rfl
    · exact ExceptList.exists_ok_and (by decide +kernel)
    · exact ExceptList.exists_ok_and (by decide +kernel)
  · intro heq
    have hpositions := congrArg (List.filterMap Placed.position?) heq
    revert hpositions
    decide +kernel

end Stream

end Ytsaurus.Job
