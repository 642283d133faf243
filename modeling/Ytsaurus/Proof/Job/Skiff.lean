import Mathlib.Data.List.Induction
import Ytsaurus.Job.Skiff
import Ytsaurus.Lib.Drain
import Ytsaurus.Proof.Skiff.Format
import Ytsaurus.Proof.Skiff.Reencode
import Ytsaurus.Proof.Skiff.Row

/-!
# `Proof/Job/Skiff.lean` — the positions of Skiff rows

Every row the reader hands out carries the position that its own table's rows so far announce,
and the columns of its table that are no system columns. One row is a step of its table's
`ControlState` (`rowStep`); a run is those steps, table by table; and what the steps come to is
the last explicit index and the rows since it (`PositionOf`).

The reader finds out once which columns of a table are system columns (`LaidOut`): they stand in
front, each at most once, with the type that such a column has to have. A row index may be omitted,
and then it is one more than that of the row before it in the same table; a range index that is
omitted stays what it was; a key switch is said by each row for itself. Rows of different tables
come in any order and have nothing to do with each other, which is what `rowsOf` and `Tracks` are
about: the state of a table is the fold over the rows of that table.

A count does not wrap. Where the next index would be beyond the largest one it stays there, and
the positions are stated so (`PositionOf`); a table with no system column at all has its rows
counted from the first. The rows themselves are whatever the decoder reads, so the statement
compares the run of the reader with the run of its decoder, with the limits it was given.
-/

set_option autoImplicit false

namespace Ytsaurus.Job

open Skiff StateExcept

/-! ## What the decoder reads -/

/-- The value is one that the decoder reads with this schema. -/
def Decoded [ValueLayout] (schema : Schema) (value : Value) : Prop :=
  ∃ s s', Decode.decodeValue schema s = .ok (value, s')

section

variable [ValueLayout]

theorem decodeFields_decoded {children : List Schema} {s s' : Cursor} {values : List Value}
    (h : Decode.decodeFields (children.map Decode.decodeValue) s = .ok (values, s')) :
    List.Forall₂ Decoded children values := by
  induction children generalizing s values with
  | nil =>
    cases h
    exact .nil
  | cons child children ih =>
    rw [List.map_cons, Decode.decodeFields] at h
    obtain ⟨value, s₁, hvalue, h₁⟩ := bind_eq_ok.mp h
    obtain ⟨more, s₂, hmore, hpure⟩ := bind_eq_ok.mp h₁
    cases hpure
    exact .cons ⟨s, s₁, hvalue⟩ (ih hmore)

/-- What is read below the charge of a node. -/
theorem decoded_node {wireType : WireType} {name : Option String} {children : List Schema}
    {value : Value} (h : Decoded ⟨wireType, name, children⟩ value) :
    ∃ s s', Decode.decodeNode wireType (children.map Decode.decodeValue) s =
      .ok (value, s') := by
  obtain ⟨s, s', h⟩ := h
  rw [Decode.decodeValue_node] at h
  obtain ⟨_, s₁, _, hnode⟩ := bind_eq_ok.mp h
  exact ⟨s₁, s', hnode⟩

theorem decoded_tuple {schema : Schema} (htuple : schema.wireType = .tuple) {value : Value}
    (h : Decoded schema value) :
    ∃ values, value = .tuple values ∧ List.Forall₂ Decoded schema.children values := by
  obtain ⟨wireType, name, children⟩ := schema
  cases htuple
  obtain ⟨s, s', hnode⟩ := decoded_node h
  obtain ⟨values, s₁, hvalues, hpure⟩ := bind_eq_ok.mp hnode
  cases hpure
  exact ⟨values, rfl, decodeFields_decoded hvalues⟩

theorem decoded_boolean {schema : Schema} (hboolean : schema.wireType = .boolean) {value : Value}
    (h : Decoded schema value) : ∃ b, value = .boolean b := by
  obtain ⟨wireType, name, children⟩ := schema
  cases hboolean
  obtain ⟨s, s', hnode⟩ := decoded_node h
  obtain ⟨byte, s₁, _, hpure⟩ := bind_eq_ok.mp hnode
  cases hpure
  exact ⟨_, rfl⟩

theorem decoded_nothing {schema : Schema} (hnothing : schema.wireType = .nothing) {value : Value}
    (h : Decoded schema value) : value = .nothing := by
  obtain ⟨wireType, name, children⟩ := schema
  cases hnothing
  obtain ⟨s, s', hnode⟩ := decoded_node h
  cases hnode
  rfl

theorem decoded_int64 {schema : Schema} (hint : schema.wireType = .int64) {value : Value}
    (h : Decoded schema value) : ∃ index, value = .int64 index := by
  obtain ⟨wireType, name, children⟩ := schema
  cases hint
  obtain ⟨s, s', hnode⟩ := decoded_node h
  obtain ⟨index, s₁, _, hpure⟩ := bind_eq_ok.mp hnode
  cases hpure
  exact ⟨_, rfl⟩

/-- An optional index, given or omitted. -/
inductive OptionalIndex : Value → Option (BitVec 64) → Prop
  | omitted : OptionalIndex (.variant 0 .nothing) none
  | given (index : BitVec 64) : OptionalIndex (.variant 1 (.int64 index)) (some index)

theorem decoded_optional {schema : Schema} (hoptional : optionalInt64 schema = true)
    {value : Value} (h : Decoded schema value) : ∃ index, OptionalIndex value index := by
  unfold optionalInt64 at hoptional
  split at hoptional
  · rename_i name nothing int64
    rw [Bool.and_eq_true, beq_iff_eq, beq_iff_eq] at hoptional
    obtain ⟨s, s', hnode⟩ := decoded_node h
    obtain ⟨tag, s₁, _, h₁⟩ := bind_eq_ok.mp hnode
    obtain ⟨child, s₂, hlift, h₂⟩ := bind_eq_ok.mp h₁
    obtain ⟨inner, s₃, hinner, hpure⟩ := bind_eq_ok.mp h₂
    cases hpure
    obtain ⟨_, _, hchild, _, rfl, _⟩ := Decode.child_of_decode hlift
    -- the tag names one of the two children
    unfold variantChild at hchild
    match htag : tag.toNat with
    | 0 =>
      rw [htag] at hchild
      cases hchild
      cases decoded_nothing hoptional.1 ⟨_, _, hinner⟩
      have htag' : tag = 0 := BitVec.eq_of_toNat_eq htag
      subst htag'
      exact ⟨none, .omitted⟩
    | 1 =>
      rw [htag] at hchild
      cases hchild
      obtain ⟨index, rfl⟩ := decoded_int64 hoptional.2 ⟨_, _, hinner⟩
      have htag' : tag = 1 := BitVec.eq_of_toNat_eq htag
      subst htag'
      exact ⟨some index, .given index⟩
    | n + 2 =>
      rw [htag] at hchild
      cases hchild
  · cases hoptional

end

/-! ## Layouts -/

/-- The schema announces the system column. -/
structure Announces (schema : Schema) (column : SystemColumn) : Prop where
  name : schema.name.bind SystemColumn.ofName = some column
  check : column.checkSchema schema = .ok ()

/-- The columns that are no system columns. -/
def IsData (schema : Schema) : Prop := schema.name.bind SystemColumn.ofName = none

instance (schema : Schema) : Decidable (IsData schema) :=
  inferInstanceAs (Decidable (_ = none))

theorem fromSchema_eq_ok {table : Nat} {schema : Schema} {found : Option SystemColumn}
    (h : SystemColumn.fromSchema table schema = .ok found) :
    (IsData schema ∧ found = none) ∨ ∃ column, found = some column ∧ Announces schema column := by
  unfold SystemColumn.fromSchema at h
  split at h
  · rename_i hname
    cases h
    exact .inl ⟨hname, rfl⟩
  · rename_i column hname
    split at h
    · cases h
    · rename_i hcheck
      cases h
      exact .inr ⟨column, rfl, hname, hcheck⟩

/-- The table's columns are system columns, each at most once, and then data columns. -/
structure LaidOut (children : List Schema) (columns : List SystemColumn)
    (system data : List Schema) : Prop where
  split : children = system ++ data
  system : List.Forall₂ Announces system columns
  data : ∀ child ∈ data, IsData child
  nodup : columns.Nodup

theorem scan_data {table : Nat} {seen columns : List SystemColumn} {children : List Schema}
    (h : TableLayout.scan table true seen children = .ok columns) :
    columns = seen ∧ ∀ child ∈ children, IsData child := by
  induction children with
  | nil =>
    cases h
    exact ⟨rfl, List.forall_mem_nil _⟩
  | cons child children ih =>
    unfold TableLayout.scan at h
    obtain ⟨found, hfound, hrest⟩ := ExceptList.bind_eq_ok.mp h
    rcases fromSchema_eq_ok hfound with ⟨hdata, rfl⟩ | ⟨column, rfl, _⟩
    · obtain ⟨hcolumns, hall⟩ := ih hrest
      exact ⟨hcolumns, List.forall_mem_cons.mpr ⟨hdata, hall⟩⟩
    · cases hrest

theorem scan_spec {table : Nat} {seen columns : List SystemColumn} {children : List Schema}
    (h : TableLayout.scan table false seen children = .ok columns) (hseen : seen.Nodup) :
    ∃ more system data, columns = seen ++ more ∧ children = system ++ data ∧
      List.Forall₂ Announces system more ∧ (∀ child ∈ data, IsData child) ∧ columns.Nodup := by
  induction children generalizing seen with
  | nil =>
    cases h
    exact ⟨[], [], [], (List.append_nil _).symm, rfl, .nil, List.forall_mem_nil _, hseen⟩
  | cons child children ih =>
    unfold TableLayout.scan at h
    obtain ⟨found, hfound, hrest⟩ := ExceptList.bind_eq_ok.mp h
    rcases fromSchema_eq_ok hfound with ⟨hdata, rfl⟩ | ⟨column, rfl, hannounces⟩
    · obtain ⟨hcolumns, hall⟩ := scan_data hrest
      subst hcolumns
      exact ⟨[], [], child :: children, (List.append_nil _).symm, rfl, .nil,
        List.forall_mem_cons.mpr ⟨hdata, hall⟩, hseen⟩
    · dsimp only at hrest
      rw [if_neg Bool.false_ne_true] at hrest
      by_cases hmem : column ∈ seen
      · rw [if_pos hmem] at hrest
        cases hrest
      · rw [if_neg hmem] at hrest
        have hseen' : (seen ++ [column]).Nodup :=
          List.nodup_append.mpr ⟨hseen, List.nodup_singleton _, by
            intro a ha b hb
            cases List.mem_singleton.mp hb
            exact fun heq => hmem (heq ▸ ha)⟩
        obtain ⟨more, system, data, hcolumns, hsplit, hsystem, hdata, hnodup⟩ := ih hrest hseen'
        refine ⟨column :: more, child :: system, data, ?_, ?_, .cons hannounces hsystem, hdata,
          hnodup⟩
        · rw [hcolumns, List.append_assoc]
          rfl
        · rw [hsplit]
          rfl

theorem layout_spec {table : Nat} {schema : Schema} {layout : TableLayout}
    (h : TableLayout.fromSchema table schema = .ok layout) :
    ∃ system data, LaidOut schema.children layout.systemColumns system data := by
  obtain ⟨columns, hscan, rfl⟩ := ExceptList.map_eq_ok.mp h
  obtain ⟨more, system, data, hcolumns, hsplit, hsystem, hdata, hnodup⟩ :=
    scan_spec hscan List.nodup_nil
  rw [List.nil_append] at hcolumns
  subst hcolumns
  exact ⟨system, data, hsplit, hsystem, hdata, hnodup⟩

/-! ## What a row announces -/

/-- What a row holds in the column with this name. -/
def cell (name : String) : List Schema → List Value → Option Value
  | child :: children, value :: values =>
    if child.name = some name then some value else cell name children values
  | _, _ => none

/-- The values of a row in its data columns. -/
def dataColumns : List Schema → List Value → List Value
  | child :: children, value :: values =>
    if IsData child then value :: dataColumns children values else dataColumns children values
  | _, _ => []

/-- The index that a value gives. -/
def indexOf : Option Value → Option (BitVec 64)
  | some (.variant _ (.int64 index)) => some index
  | _ => none

/-- The boolean that a value is, if it is one. -/
def switchOf (otherwise : Bool) : Option Value → Bool
  | some (.boolean b) => b
  | _ => otherwise

theorem ofName_name (column : SystemColumn) : SystemColumn.ofName column.name = some column := by
  cases column <;> rfl

theorem ofName_eq_some {name : String} {column : SystemColumn}
    (h : SystemColumn.ofName name = some column) : name = column.name := by
  unfold SystemColumn.ofName at h
  split at h
  · cases h
    assumption
  · split at h
    · cases h
      assumption
    · split at h
      · cases h
        assumption
      · cases h

/-- A column has the name of the system column it announces. -/
theorem Announces.name_eq {schema : Schema} {column : SystemColumn} (h : Announces schema column) :
    schema.name = some column.name := by
  obtain ⟨name, hname, hcolumn⟩ := Option.bind_eq_some_iff.mp h.name
  rw [hname, ofName_eq_some hcolumn]

theorem Announces.ne_name {schema : Schema} {column other : SystemColumn}
    (h : Announces schema column) (hne : column ≠ other) : schema.name ≠ some other.name := by
  intro hname
  have hcolumn := h.name
  rw [hname] at hcolumn
  exact hne (Option.some.inj (hcolumn.symm.trans (ofName_name other)))

theorem IsData.ne_name {schema : Schema} (h : IsData schema) (column : SystemColumn) :
    schema.name ≠ some column.name := by
  intro hname
  unfold IsData at h
  rw [hname] at h
  cases h.symm.trans (ofName_name column)

theorem cell_data {column : SystemColumn} {data : List Schema} (h : ∀ child ∈ data, IsData child)
    (values : List Value) : cell column.name data values = none := by
  induction data generalizing values with
  | nil => cases values <;> rfl
  | cons child data ih =>
    cases values with
    | nil => rfl
    | cons value values =>
      obtain ⟨hchild, hrest⟩ := List.forall_mem_cons.mp h
      unfold cell
      rw [if_neg (hchild.ne_name column)]
      exact ih hrest values

theorem cell_absent {column : SystemColumn} {system : List Schema} {columns : List SystemColumn}
    (h : List.Forall₂ Announces system columns) (habsent : column ∉ columns)
    (values : List Value) : cell column.name system values = none := by
  induction h generalizing values with
  | nil => cases values <;> rfl
  | @cons child announced system columns hannounces _ ih =>
    cases values with
    | nil => rfl
    | cons value values =>
      unfold cell
      rw [if_neg (hannounces.ne_name fun heq => habsent (heq ▸ List.mem_cons_self))]
      exact ih (fun hmem => habsent (List.mem_cons_of_mem _ hmem)) values

/-- A system column is in front of the data columns. -/
theorem cell_append {column : SystemColumn} {system data : List Schema}
    (h : ∀ child ∈ data, IsData child) (values : List Value) :
    cell column.name (system ++ data) values =
      cell column.name system (values.take system.length) := by
  induction system generalizing values with
  | nil => exact cell_data h values
  | cons child system ih =>
    cases values with
    | nil => rfl
    | cons value values =>
      rw [List.cons_append, List.length_cons, List.take_succ_cons]
      unfold cell
      split
      · rfl
      · exact ih values

/-- The data columns are what is behind the system columns. -/
theorem dataColumns_eq {system data : List Schema} {columns : List SystemColumn}
    (hsystem : List.Forall₂ Announces system columns) (hdata : ∀ child ∈ data, IsData child)
    {values : List Value} (hlength : values.length = (system ++ data).length) :
    dataColumns (system ++ data) values = values.drop system.length := by
  induction hsystem generalizing values with
  | nil =>
    show dataColumns data values = values
    induction data generalizing values with
    | nil => exact (List.length_eq_zero_iff.mp hlength).symm
    | cons child data ih =>
      cases values with
      | nil => rfl
      | cons value values =>
        obtain ⟨hchild, hrest⟩ := List.forall_mem_cons.mp hdata
        unfold dataColumns
        rw [if_pos hchild, ih hrest (Nat.succ.inj hlength)]
  | @cons child column system columns hannounces _ ih =>
    cases values with
    | nil => rfl
    | cons value values =>
      have hnot : ¬ IsData child := fun h => by
        cases h.symm.trans hannounces.name
      rw [List.cons_append]
      unfold dataColumns
      rw [if_neg hnot]
      exact ih (Nat.succ.inj hlength)

theorem cell_head {child : Schema} {column : SystemColumn} (h : Announces child column)
    (children : List Schema) (value : Value) (values : List Value) :
    cell column.name (child :: children) (value :: values) = some value := by
  unfold cell
  rw [if_pos h.name_eq]

theorem cell_other {child : Schema} {column other : SystemColumn} (h : Announces child column)
    (hne : column ≠ other) (children : List Schema) (value : Value) (values : List Value) :
    cell other.name (child :: children) (value :: values) = cell other.name children values := by
  rw [cell, if_neg (h.ne_name hne)]

/-! ## One row -/

/-- The state behind a row that holds this in the columns of the two indices. -/
def announce (state : ControlState) (rowCell rangeCell : Option Value) : ControlState where
  rowIndex :=
    match rowCell with
    | some value => (indexOf (some value)).getD (saturatingSucc state.rowIndex)
    | none => state.rowIndex
  rangeIndex := (indexOf rangeCell).getD state.rangeIndex

theorem applyRowIndex_eq {value : Value} {index : Option (BitVec 64)}
    (h : OptionalIndex value index) (state : ControlState) (table : Nat) :
    applyRowIndex state table value =
      .ok { state with rowIndex := (indexOf (some value)).getD (saturatingSucc state.rowIndex) } := by
  cases h <;> rfl

theorem applyRangeIndex_eq {value : Value} {index : Option (BitVec 64)}
    (h : OptionalIndex value index) (state : ControlState) (table : Nat) :
    applyRangeIndex state table value =
      .ok { state with rangeIndex := (indexOf (some value)).getD state.rangeIndex } := by
  cases h <;> rfl

theorem optional_of_check {schema : Schema} {reason : String}
    (h : (if optionalInt64 schema then .ok () else .error reason : Except String Unit) = .ok ()) :
    optionalInt64 schema = true := by
  apply Classical.byContradiction
  intro hne
  cases (if_neg hne).symm.trans h

/-- **The system columns of a row**, in any order, change the state as they announce. -/
theorem applyColumns_eq [ValueLayout] {table : Nat} {system : List Schema}
    {columns : List SystemColumn} {values : List Value}
    (hsystem : List.Forall₂ Announces system columns)
    (hdecoded : List.Forall₂ Decoded system values) (hnodup : columns.Nodup) (keySwitch : Bool)
    (state : ControlState) :
    SkiffJobReader.applyColumns table columns values keySwitch state =
      .ok (switchOf keySwitch (cell SystemColumn.keySwitch.name system values),
        announce state (cell SystemColumn.rowIndex.name system values)
          (cell SystemColumn.rangeIndex.name system values)) := by
  induction hsystem generalizing values keySwitch state with
  | nil =>
    cases hdecoded
    rfl
  | @cons child column system columns hannounces hsystem ih =>
    cases hdecoded with
    | @cons _ value _ values hvalue hvalues =>
      obtain ⟨hfresh, hrest⟩ := List.nodup_cons.mp hnodup
      have habsent := cell_absent hsystem hfresh values
      have hcheck := hannounces.check
      unfold SkiffJobReader.applyColumns
      cases column with
      | keySwitch =>
        have hboolean : child.wireType = .boolean := by
          apply Classical.byContradiction
          intro hne
          cases (if_pos (Or.inl hne)).symm.trans hcheck
        obtain ⟨b, rfl⟩ := decoded_boolean hboolean hvalue
        rw [cell_head hannounces,
          cell_other hannounces (show SystemColumn.keySwitch ≠ .rowIndex by decide),
          cell_other hannounces (show SystemColumn.keySwitch ≠ .rangeIndex by decide)]
        show SkiffJobReader.applyColumns table columns values b state = _
        rw [ih hvalues hrest, habsent]
        rfl
      | rowIndex =>
        obtain ⟨index, hindex⟩ := decoded_optional (optional_of_check hcheck) hvalue
        rw [cell_head hannounces,
          cell_other hannounces (show SystemColumn.rowIndex ≠ .keySwitch by decide),
          cell_other hannounces (show SystemColumn.rowIndex ≠ .rangeIndex by decide)]
        unfold SkiffJobReader.applyColumn
        rw [applyRowIndex_eq hindex]
        show SkiffJobReader.applyColumns table columns values keySwitch
          ⟨(indexOf (some value)).getD (saturatingSucc state.rowIndex), state.rangeIndex⟩ = _
        rw [ih hvalues hrest, habsent]
        rfl
      | rangeIndex =>
        obtain ⟨index, hindex⟩ := decoded_optional (optional_of_check hcheck) hvalue
        rw [cell_head hannounces,
          cell_other hannounces (show SystemColumn.rangeIndex ≠ .keySwitch by decide),
          cell_other hannounces (show SystemColumn.rangeIndex ≠ .rowIndex by decide)]
        unfold SkiffJobReader.applyColumn
        rw [applyRangeIndex_eq hindex]
        show SkiffJobReader.applyColumns table columns values keySwitch
          ⟨state.rowIndex, (indexOf (some value)).getD state.rangeIndex⟩ = _
        rw [ih hvalues hrest, habsent]
        rfl

/-- What a row does to the state of its table. -/
def rowStep (schema : Schema) (state : ControlState) (values : List Value) : ControlState :=
  if schema.children.all fun child => decide (IsData child) then
    { state with rowIndex := saturatingSucc state.rowIndex }
  else
    announce state (cell SystemColumn.rowIndex.name schema.children values)
      (cell SystemColumn.rangeIndex.name schema.children values)

/-- **A row of a table** is handed out with the state it announces, without its system columns. -/
theorem takeRow_eq [ValueLayout] {table : Nat} {schema : Schema} {layout : TableLayout}
    (hlayout : TableLayout.fromSchema table schema = .ok layout) (state : ControlState)
    {values : List Value} (hdecoded : List.Forall₂ Decoded schema.children values) :
    SkiffJobReader.takeRow table layout state values =
      .ok (⟨table, (rowStep schema state values).rowIndex, (rowStep schema state values).rangeIndex,
        switchOf false (cell SystemColumn.keySwitch.name schema.children values),
        .tuple (dataColumns schema.children values)⟩, rowStep schema state values) := by
  obtain ⟨system, data, hsplit, hsystem, hdata, hnodup⟩ := layout_spec hlayout
  obtain ⟨columns⟩ := layout
  have hlength := hdecoded.length_eq
  have hcolumns : columns.length = system.length := hsystem.length_eq.symm
  rw [hsplit] at hdecoded hlength
  have htaken : List.Forall₂ Decoded system (values.take system.length) := by
    have htake := List.forall₂_take system.length hdecoded
    rw [List.take_left] at htake
    exact htake
  have hshort : ¬ values.length < columns.length := by
    rw [hcolumns, ← hlength, List.length_append]
    exact Nat.not_lt.mpr (Nat.le_add_right _ _)
  have hstate : SkiffJobReader.countRow ⟨columns⟩
      (announce state (cell SystemColumn.rowIndex.name system (values.take system.length))
        (cell SystemColumn.rangeIndex.name system (values.take system.length))) =
      rowStep schema state values := by
    unfold rowStep SkiffJobReader.countRow
    rw [hsplit, cell_append hdata, cell_append hdata]
    cases hsystem with
    | nil =>
      rw [List.nil_append,
        if_pos (List.all_eq_true.mpr fun child hchild => decide_eq_true (hdata child hchild))]
      rfl
    | @cons child _ system _ hannounces _ =>
      have hnot : ¬ IsData child := fun h => by
        cases h.symm.trans hannounces.name
      rw [List.cons_append, if_neg fun hall => hnot (of_decide_eq_true
        (List.all_eq_true.mp hall child List.mem_cons_self))]
      rfl
  unfold SkiffJobReader.takeRow
  dsimp only
  rw [if_neg hshort, hcolumns, applyColumns_eq hsystem htaken hnodup, hsplit,
    cell_append hdata, dataColumns_eq hsystem hdata hlength.symm]
  dsimp only [Except.map]
  rw [hstate]

/-! ## A table's rows -/

/-- The state behind these rows of a table. -/
def stateAfter (schema : Schema) (rows : List (List Value)) : ControlState :=
  rows.foldl (rowStep schema) .default

theorem stateAfter_snoc (schema : Schema) (rows : List (List Value)) (values : List Value) :
    stateAfter schema (rows ++ [values]) = rowStep schema (stateAfter schema rows) values := by
  unfold stateAfter
  rw [List.foldl_append]
  rfl

/-- What the rows of a table give in this column, in order. -/
def indices (column : SystemColumn) (schema : Schema) (rows : List (List Value)) :
    List (Option (BitVec 64)) :=
  rows.map fun values => indexOf (cell column.name schema.children values)

/-- The last index that was given, from 0. -/
def lastExplicit (given : List (Option (BitVec 64))) : Int :=
  ((given.reverse.findSome? id).map BitVec.toInt).getD 0

/-- How many rows have omitted the index since the last one that gave it. -/
def omittedSince (given : List (Option (BitVec 64))) : Nat :=
  (given.reverse.takeWhile Option.isNone).length

/-- The schema has this system column. -/
def HasColumn (column : SystemColumn) (schema : Schema) : Prop :=
  ∃ child ∈ schema.children, child.name = some column.name

/-- **The position of a table's last row**: the last explicit index and the rows since, where the
table has the column of row indices; the number of rows, where it has no system column. -/
structure PositionOf (schema : Schema) (rows : List (List Value)) (rowIndex rangeIndex : Int) :
    Prop where
  explicit : HasColumn .rowIndex schema → rowIndex =
    min (lastExplicit (indices .rowIndex schema rows) +
      omittedSince (indices .rowIndex schema rows)) i64Max.toInt
  counted : (∀ column, ¬ HasColumn column schema) → rowIndex =
    min (rows.length : Int) i64Max.toInt
  range : rangeIndex = lastExplicit (indices .rangeIndex schema rows)

theorem lastExplicit_given (given : List (Option (BitVec 64))) (index : BitVec 64) :
    lastExplicit (given ++ [some index]) = index.toInt := by
  simp [lastExplicit]

theorem lastExplicit_omitted (given : List (Option (BitVec 64))) :
    lastExplicit (given ++ [none]) = lastExplicit given := by
  simp [lastExplicit]

theorem omittedSince_given (given : List (Option (BitVec 64))) (index : BitVec 64) :
    omittedSince (given ++ [some index]) = 0 := by
  simp [omittedSince]

theorem omittedSince_omitted (given : List (Option (BitVec 64))) :
    omittedSince (given ++ [none]) = omittedSince given + 1 := by
  simp [omittedSince]

theorem i64Max_toInt : i64Max.toInt = 9223372036854775807 := rfl

theorem toInt_le_max (index : BitVec 64) : index.toInt ≤ i64Max.toInt := by
  have hlt := index.toInt_lt
  rw [i64Max_toInt]
  omega

theorem saturatingSucc_toInt (index : BitVec 64) :
    (saturatingSucc index).toInt = min (index.toInt + 1) i64Max.toInt := by
  unfold saturatingSucc
  split
  · rename_i heq
    rw [heq, i64Max_toInt]
    rfl
  · rename_i hne
    have hle := toInt_le_max index
    have hne' : index.toInt ≠ i64Max.toInt := fun heq => hne (BitVec.eq_of_toInt_eq heq)
    have hge := index.le_toInt
    rw [i64Max_toInt] at hle hne' ⊢
    rw [BitVec.toInt_add]
    have hone : (1 : BitVec 64).toInt = 1 := rfl
    rw [hone, Int.bmod_eq_of_le (by omega) (by omega)]
    omega

/-- A schema with the column of row indices has a cell in it. -/
theorem cell_isSome {column : SystemColumn} {children : List Schema} {values : List Value}
    (hcolumn : ∃ child ∈ children, child.name = some column.name)
    (hlength : values.length = children.length) : ∃ value, cell column.name children values =
      some value := by
  induction children generalizing values with
  | nil =>
    obtain ⟨_, hmem, _⟩ := hcolumn
    cases hmem
  | cons child children ih =>
    cases values with
    | nil => cases hlength
    | cons value values =>
      unfold cell
      by_cases hname : child.name = some column.name
      · rw [if_pos hname]
        exact ⟨value, rfl⟩
      · rw [if_neg hname]
        refine ih ?_ (Nat.succ.inj hlength)
        obtain ⟨other, hmem, hother⟩ := hcolumn
        rcases List.mem_cons.mp hmem with rfl | hmem
        · exact absurd hother hname
        · exact ⟨other, hmem, hother⟩

/-- Without any system column, every column is a data column. -/
theorem all_data_iff {schema : Schema} :
    (schema.children.all fun child => decide (IsData child)) = true ↔
      ∀ column, ¬ HasColumn column schema := by
  rw [List.all_eq_true]
  constructor
  · rintro h column ⟨child, hmem, hname⟩
    exact (of_decide_eq_true (h child hmem)).ne_name column hname
  · intro h child hmem
    apply decide_eq_true
    cases hname : child.name.bind SystemColumn.ofName with
    | none => exact hname
    | some column =>
      obtain ⟨name, hchild, hcolumn⟩ := Option.bind_eq_some_iff.mp hname
      rw [ofName_eq_some hcolumn] at hchild
      exact absurd ⟨child, hmem, hchild⟩ (h column)

theorem indices_snoc (column : SystemColumn) (schema : Schema) (rows : List (List Value))
    (values : List Value) : indices column schema (rows ++ [values]) =
      indices column schema rows ++ [indexOf (cell column.name schema.children values)] := by
  unfold indices
  rw [List.map_append]
  rfl

theorem rowStep_range (schema : Schema) (state : ControlState) (values : List Value) :
    (rowStep schema state values).rangeIndex =
      (indexOf (cell SystemColumn.rangeIndex.name schema.children values)).getD
        state.rangeIndex := by
  unfold rowStep
  split
  · rename_i hall
    have hdata : ∀ child ∈ schema.children, IsData child := fun child hchild =>
      of_decide_eq_true (List.all_eq_true.mp hall child hchild)
    rw [cell_data hdata]
    rfl
  · rfl

/-- **What the steps come to.** -/
theorem stateAfter_position {schema : Schema} {rows : List (List Value)}
    (hrows : ∀ values ∈ rows, values.length = schema.children.length) :
    PositionOf schema rows (stateAfter schema rows).rowIndex.toInt
      (stateAfter schema rows).rangeIndex.toInt := by
  induction rows using List.reverseRecOn with
  | nil => exact ⟨fun _ => rfl, fun _ => rfl, rfl⟩
  | append_singleton rows values ih =>
    obtain ⟨hfront, hlast⟩ := List.forall_mem_append.mp hrows
    obtain ⟨hexplicit, hcounted, hrange⟩ := ih hfront
    rw [stateAfter_snoc]
    refine ⟨?_, ?_, ?_⟩
    · intro hcolumn
      have hsome : ¬ (schema.children.all fun child => decide (IsData child)) = true :=
        fun hall => all_data_iff.mp hall _ hcolumn
      obtain ⟨value, hvalue⟩ := cell_isSome hcolumn (hlast values (List.mem_singleton.mpr rfl))
      unfold rowStep
      rw [if_neg hsome, indices_snoc, hvalue]
      show ((indexOf (some value)).getD (saturatingSucc (stateAfter schema rows).rowIndex)).toInt =
        _
      cases indexOf (some value) with
      | some index =>
        have hmax := toInt_le_max index
        rw [lastExplicit_given, omittedSince_given]
        show index.toInt = _
        omega
      | none =>
        rw [lastExplicit_omitted, omittedSince_omitted]
        show (saturatingSucc _).toInt = _
        rw [saturatingSucc_toInt, hexplicit hcolumn]
        omega
    · intro hnone
      unfold rowStep
      rw [if_pos (all_data_iff.mpr hnone), List.length_append]
      show (saturatingSucc _).toInt = _
      rw [saturatingSucc_toInt, hcounted hnone, List.length_singleton]
      omega
    · rw [rowStep_range, indices_snoc]
      cases indexOf (cell SystemColumn.rangeIndex.name schema.children values) with
      | some index =>
        rw [lastExplicit_given]
        rfl
      | none =>
        rw [lastExplicit_omitted]
        exact hrange

/-! ## A run of the reader -/

/-- The rows of one table, as they were decoded. -/
def rowsOf (table : Nat) (decoded : List (Nat × Value)) : List (List Value) :=
  decoded.filterMap fun row =>
    match row with
    | (index, .tuple values) => if index = table then some values else none
    | _ => none

theorem rowsOf_snoc_same (table : Nat) (decoded : List (Nat × Value)) (values : List Value) :
    rowsOf table (decoded ++ [(table, .tuple values)]) = rowsOf table decoded ++ [values] := by
  simp [rowsOf]

theorem rowsOf_snoc_other {table other : Nat} (h : other ≠ table) (decoded : List (Nat × Value))
    (values : List Value) :
    rowsOf table (decoded ++ [(other, .tuple values)]) = rowsOf table decoded := by
  simp [rowsOf, h]

/-- The schema of a table is a tuple, since the format passed its check. -/
theorem tableSchema_tuple {format : Format} {table : Nat} {schema : Schema}
    (h : format.tableSchema table = .ok schema) :
    schema.wireType = .tuple ∧ table < format.tableSchemas.length := by
  cases hreference : format.tableSchemas[table]? with
  | none =>
    unfold FormatParts.tableSchema at h
    rw [hreference] at h
    cases h
  | some reference =>
    refine ⟨?_, (List.getElem?_eq_some_iff.mp hreference).1⟩
    have hmem : (reference, table) ∈ format.tableSchemas.zipIdx :=
      List.mem_zipIdx_iff_getElem?.mpr hreference
    have hcheck := (FormatParts.validate_eq_ok format.valid).2 _ hmem
    have htable : schema.validateTableSchema = .ok () := by
      unfold FormatParts.checkReference at hcheck
      cases reference with
      | inline inlined =>
        obtain ⟨_, _, hrest⟩ := ExceptList.bind_eq_ok.mp hcheck
        obtain ⟨found, hfound, htable⟩ := ExceptList.bind_eq_ok.mp hrest
        cases h.symm.trans hfound
        exact htable
      | registry name =>
        dsimp only at hcheck
        split at hcheck
        · cases hcheck
        · obtain ⟨found, hfound, htable⟩ := ExceptList.bind_eq_ok.mp hcheck
          cases h.symm.trans hfound
          exact htable
    apply Classical.byContradiction
    intro hne
    cases (if_pos hne).symm.trans htable

theorem layout_of_table {format : Format} {layouts : List TableLayout}
    (hlayouts : SkiffJobReader.layoutsOf format = .ok layouts) {table : Nat} {schema : Schema}
    (hschema : format.tableSchema table = .ok schema) :
    ∃ layout, layouts[table]? = some layout ∧
      TableLayout.fromSchema table schema = .ok layout := by
  obtain ⟨hlength, hall⟩ := List.forall₂_iff_get.mp (ExceptList.mapM_ok_iff.mp hlayouts)
  have hlt := (tableSchema_tuple hschema).2
  have hrange : table < (List.range format.tableSchemas.length).length := by
    rw [List.length_range]
    exact hlt
  have htable : table < layouts.length := hlength ▸ hrange
  have hlayout := hall table hrange htable
  simp only [List.get_eq_getElem, List.getElem_range, hschema] at hlayout
  exact ⟨_, List.getElem?_eq_getElem htable, hlayout⟩

section

variable [ValueLayout]

/-- A row that the decoder read is one of a table of its format. -/
theorem decoded_of_nextRow {decoder decoder' : Decoder} {table : Nat} {value : Value}
    (h : decoder.nextRow = .ok (some (table, value), decoder')) :
    decoder'.format = decoder.format ∧ ∃ schema, decoder.format.tableSchema table = .ok schema ∧
      Decoded schema value := by
  cases hinput : decoder.input with
  | nil =>
    rw [Decoder.nextRow_nil hinput] at h
    cases h
  | cons first rest =>
    rw [Decoder.nextRow_cons hinput] at h
    obtain ⟨front, hfront, hrow⟩ := ExceptList.bind_eq_ok.mp h
    obtain ⟨row, hdecoded, hpair⟩ := ExceptList.map_eq_ok.mp hrow
    cases hpair
    refine ⟨rfl, front.2.1, ?_, _, _, hdecoded⟩
    unfold Decoder.rowFront at hfront
    obtain ⟨tag, _, hfront⟩ := ExceptList.bind_eq_ok.mp hfront
    obtain ⟨schema, hschema, hpure⟩ := ExceptList.bind_eq_ok.mp hfront
    cases hpure
    dsimp only
    cases hfound : decoder.format.tableSchema (LittleEndian.ofLeBytes (first :: tag.1.val)) with
    | error e =>
      rw [hfound] at hschema
      cases hschema
    | ok found =>
      rw [hfound] at hschema
      cases hschema
      rfl

/-- The reader's states are what the rows decoded so far come to. -/
structure Tracks (format : Format) (reader : SkiffJobReader) (done : List (Nat × Value)) : Prop where
  sameFormat : reader.decoder.format = format
  layouts : SkiffJobReader.layoutsOf format = .ok reader.layouts
  state : ∀ {table : Nat} {schema : Schema}, format.tableSchema table = .ok schema →
    reader.state[table]? = some (stateAfter schema (rowsOf table done))
  whole : ∀ {table : Nat} {schema : Schema}, format.tableSchema table = .ok schema →
    ∀ values ∈ rowsOf table done, values.length = schema.children.length

/-- What a row is handed out as, when `done` are the decoded rows up to it. -/
def Described (format : Format) (done : List (Nat × Value)) (decoded : Nat × Value)
    (row : SkiffRow) : Prop :=
  ∃ schema values, format.tableSchema decoded.1 = .ok schema ∧ decoded.2 = .tuple values ∧
    row.tableIndex = decoded.1 ∧
    PositionOf schema (rowsOf decoded.1 done) row.rowIndex.toInt row.rangeIndex.toInt ∧
    row.keySwitch = switchOf false (cell SystemColumn.keySwitch.name schema.children values) ∧
    row.value = .tuple (dataColumns schema.children values)

/-- **One row of the reader.** -/
theorem nextRow_step {format : Format} {reader : SkiffJobReader} {done : List (Nat × Value)}
    (h : Tracks format reader done) {decoded : Nat × Value} {decoder : Decoder}
    (hnext : reader.decoder.nextRow = .ok (some decoded, decoder)) :
    ∃ row reader', reader.nextRow = .ok (some row, reader') ∧ reader'.decoder = decoder ∧
      Tracks format reader' (done ++ [decoded]) ∧
      Described format (done ++ [decoded]) decoded row := by
  obtain ⟨table, value⟩ := decoded
  obtain ⟨hformat, schema, hschema, hdecoded⟩ := decoded_of_nextRow hnext
  rw [h.sameFormat] at hformat hschema
  obtain ⟨values, rfl, hvalues⟩ := decoded_tuple (tableSchema_tuple hschema).1 hdecoded
  obtain ⟨layout, hlayout, hfrom⟩ := layout_of_table h.layouts hschema
  have hstate := h.state hschema
  have htake := takeRow_eq hfrom (stateAfter schema (rowsOf table done)) hvalues
  have hwhole : ∀ {other : Nat} {found : Schema}, format.tableSchema other = .ok found →
      ∀ values' ∈ rowsOf other (done ++ [(table, .tuple values)]),
        values'.length = found.children.length := by
    intro other found hfound values' hmem
    by_cases hother : table = other
    · subst hother
      cases hschema.symm.trans hfound
      rw [rowsOf_snoc_same] at hmem
      rcases List.mem_append.mp hmem with hmem | hmem
      · exact h.whole hschema values' hmem
      · cases List.mem_singleton.mp hmem
        exact hvalues.length_eq.symm
    · rw [rowsOf_snoc_other hother] at hmem
      exact h.whole hfound values' hmem
  let after := rowStep schema (stateAfter schema (rowsOf table done)) values
  let row : SkiffRow := ⟨table, after.rowIndex, after.rangeIndex,
    switchOf false (cell SystemColumn.keySwitch.name schema.children values),
    .tuple (dataColumns schema.children values)⟩
  refine ⟨row, { reader with decoder := decoder, state := reader.state.set table after }, ?_, rfl,
    ⟨hformat, h.layouts, ?_, hwhole⟩, schema, values, hschema, rfl, rfl, ?_, rfl, rfl⟩
  · unfold SkiffJobReader.nextRow
    rw [hnext]
    dsimp only
    rw [hlayout, hstate]
    dsimp only
    rw [htake]
    rfl
  · intro other found hfound
    dsimp only
    by_cases hother : table = other
    · subst hother
      cases hschema.symm.trans hfound
      rw [rowsOf_snoc_same, stateAfter_snoc, List.getElem?_set_self
        (List.getElem?_eq_some_iff.mp hstate).1]
    · rw [rowsOf_snoc_other hother, List.getElem?_set_ne hother]
      exact h.state hfound
  · have hposition := stateAfter_position (hwhole hschema)
    rw [rowsOf_snoc_same, stateAfter_snoc] at hposition
    rw [rowsOf_snoc_same]
    exact hposition

/-- How the reader ends, when its decoder ends so. -/
def endsLike : Drain.Outcome CodecError → Drain.Outcome SkiffError
  | .finished => .finished
  | .failed e => .failed (.skiff e)
  | .unfinished => .unfinished

/-- The reader hands out one row for each row that is decoded. -/
theorem tracks_runs {format : Format} {reader : SkiffJobReader} {done : List (Nat × Value)}
    {rows : List SkiffRow} {outcome : Drain.Outcome SkiffError} (h : Tracks format reader done)
    (hruns : Drain.Runs SkiffJobReader.nextRow reader rows outcome) :
    ∃ decoded end', Drain.Runs Decoder.nextRow reader.decoder decoded end' ∧
      outcome = endsLike end' ∧ decoded.length = rows.length ∧
      ∀ (i : Nat) (raw : Nat × Value) (row : SkiffRow), decoded[i]? = some raw →
        rows[i]? = some row → Described format (done ++ decoded.take (i + 1)) raw row := by
  induction hruns generalizing done with
  | @failed reader e hnext =>
    cases hdecoder : reader.decoder.nextRow with
    | error e' =>
      unfold SkiffJobReader.nextRow at hnext
      rw [hdecoder] at hnext
      cases hnext
      exact ⟨[], .failed e', .failed hdecoder, rfl, rfl, fun i raw row hraw _ => by cases hraw⟩
    | ok next =>
      obtain ⟨decoded, decoder⟩ := next
      cases decoded with
      | none =>
        unfold SkiffJobReader.nextRow at hnext
        rw [hdecoder] at hnext
        cases hnext
      | some decoded =>
        obtain ⟨row, reader', hrow, _⟩ := nextRow_step h hdecoder
        cases hnext.symm.trans hrow
  | @finished reader reader' hnext =>
    cases hdecoder : reader.decoder.nextRow with
    | error e' =>
      unfold SkiffJobReader.nextRow at hnext
      rw [hdecoder] at hnext
      cases hnext
    | ok next =>
      obtain ⟨decoded, decoder⟩ := next
      cases decoded with
      | none =>
        exact ⟨[], .finished, .finished hdecoder, rfl, rfl, fun i raw row hraw _ => by cases hraw⟩
      | some decoded =>
        obtain ⟨row, reader', hrow, _⟩ := nextRow_step h hdecoder
        cases hnext.symm.trans hrow
  | @yields reader reader' first rows outcome hnext _ ih =>
    cases hdecoder : reader.decoder.nextRow with
    | error e' =>
      unfold SkiffJobReader.nextRow at hnext
      rw [hdecoder] at hnext
      cases hnext
    | ok next =>
      obtain ⟨decoded, decoder⟩ := next
      cases decoded with
      | none =>
        unfold SkiffJobReader.nextRow at hnext
        rw [hdecoder] at hnext
        cases hnext
      | some head =>
        obtain ⟨row, after, hrow, rfl, htracks, hdescribed⟩ := nextRow_step h hdecoder
        cases hnext.symm.trans hrow
        obtain ⟨decoded, end', hdecoded, houtcome, hlength, hall⟩ := ih htracks
        refine ⟨head :: decoded, end', .yields hdecoder hdecoded, houtcome,
          congrArg (· + 1) hlength, ?_⟩
        intro i raw row hraw hrow
        cases i with
        | zero =>
          cases hraw
          cases hrow
          exact hdescribed
        | succ i =>
          have hrest := hall i raw row hraw hrow
          rw [List.append_assoc] at hrest
          exact hrest

/-- **The positions of Skiff rows are tracked per table**, for every stream, with whatever limits:
each row is described by the rows of its own table up to it. -/
theorem positions_tracked {input : List UInt8} {format : Format} {reader : SkiffJobReader}
    (hnew : SkiffJobReader.new input format = .ok reader) (maxBlobBytes maxRowBytes : Nat)
    {rows : List SkiffRow} {outcome : Drain.Outcome SkiffError}
    (hruns : Drain.Runs SkiffJobReader.nextRow
      ((reader.withMaxBlobBytes maxBlobBytes).withMaxRowBytes maxRowBytes) rows outcome) :
    ∃ decoded end', Drain.Runs Decoder.nextRow
        (((Decoder.new input format).withMaxBlobBytes maxBlobBytes).withMaxRowBytes maxRowBytes)
        decoded end' ∧
      outcome = endsLike end' ∧ decoded.length = rows.length ∧
      ∀ (i : Nat) (raw : Nat × Value) (row : SkiffRow), decoded[i]? = some raw →
        rows[i]? = some row → Described format (decoded.take (i + 1)) raw row := by
  obtain ⟨layouts, hlayouts, rfl⟩ := ExceptList.map_eq_ok.mp hnew
  have htracks : Tracks format
      ((SkiffJobReader.withMaxBlobBytes ⟨Decoder.new input format, layouts,
        List.replicate layouts.length .default⟩ maxBlobBytes).withMaxRowBytes maxRowBytes) [] := by
    refine ⟨rfl, hlayouts, ?_, fun _ _ hmem => by cases hmem⟩
    intro table schema hschema
    obtain ⟨layout, hlayout, _⟩ := layout_of_table hlayouts hschema
    exact List.getElem?_replicate_of_lt (List.getElem?_eq_some_iff.mp hlayout).1
  exact tracks_runs htracks hruns

end

/-- A table with row indices and one data column. -/
def indexedTable : Schema :=
  ⟨.tuple, none, [⟨.variant8, some "$row_index", [.leaf .nothing, .leaf .int64]⟩,
    .named "a" .boolean]⟩

def twoTables : Format := ⟨⟨[.inline indexedTable, .inline indexedTable], .empty⟩, rfl⟩

/-- Row 5 of the first table, row 7 of the second, and of the first the one behind its own. -/
def interleaved : List UInt8 :=
  [0, 0, 1, 5, 0, 0, 0, 0, 0, 0, 0, 1, 1, 0, 1, 7, 0, 0, 0, 0, 0, 0, 0, 0, 0, 0, 0, 1]

def interleavedReader : SkiffJobReader :=
  ⟨.new interleaved twoTables, [⟨[.rowIndex]⟩, ⟨[.rowIndex]⟩], [.default, .default]⟩

theorem positions_tracked_interleaved :
    ∃ rows : List SkiffRow,
      rows.map (fun row => (row.tableIndex, row.rowIndex)) = [(0, 5), (1, 7), (0, 6)] ∧
      ∃ decoded end', @Drain.Runs _ _ _ (@Decoder.nextRow ⟨32⟩)
          (((Decoder.new interleaved twoTables).withMaxBlobBytes 1000).withMaxRowBytes 1000)
          decoded end' ∧
        .finished = endsLike end' ∧ decoded.length = rows.length ∧
        ∀ (i : Nat) (raw : Nat × Value) (row : SkiffRow), decoded[i]? = some raw →
          rows[i]? = some row → Described twoTables (decoded.take (i + 1)) raw row := by
  let _ : ValueLayout := ⟨32⟩
  have hnew : SkiffJobReader.new interleaved twoTables = .ok interleavedReader := rfl
  have hdrained : (Drain.drain SkiffJobReader.nextRow 4
      ((interleavedReader.withMaxBlobBytes 1000).withMaxRowBytes 1000)).2 = .finished := by
    decide +kernel
  exact ⟨_, by decide +kernel, positions_tracked hnew 1000 1000 (.of_drain hdrained)⟩

end Ytsaurus.Job
