import Ytsaurus.Proof.Rpc.Convert
import Ytsaurus.Rpc.Blocking

/-!
# `Proof/Rpc/Blocking.lean` — the name table of a request

The table that `column_names` builds has every name of the rows once, so what can go wrong with
a row is only that a place in the table is no `u16`. A number stands for one name, whichever way
it is read, and what has none is an error.

The client converts named rows to numbered ones for the request and back for the answer. Two
mistakes would be silent: a name that gets the number of another, and a number that is dropped or
read under another name. That neither can happen comes down to the table having no name twice
(`columnNames_spec`); the number of a name is its first place, and the name at that place is the
name (`columnToWire_id`). A row may still have a name twice itself, and it keeps both columns.

The statements are about every row, not only about those the table was built from. For a row of the
request the one possible failure is the table being too long; for another row it is a name the
table lacks; and in the other direction a number outside of the table, which the error names with
the length of the table (`rowFromWireLoop_cases`).
-/

set_option autoImplicit false

namespace Ytsaurus
namespace Rpc

/-! ## The name table -/

theorem addName_eq (names : List String) (name : String) :
    addName names name = if name ∈ names then names else names ++ [name] := by
  have hany : (names.any fun known => known == name) = true ↔ name ∈ names := by simp
  unfold addName
  by_cases h : name ∈ names
  · rw [if_pos (hany.mpr h), if_pos h]
  · rw [if_neg (mt hany.mp h), if_neg h]

theorem mem_addName {names : List String} {name other : String} :
    other ∈ addName names name ↔ other ∈ names ∨ other = name := by
  rw [addName_eq]
  by_cases h : name ∈ names
  · rw [if_pos h]
    constructor
    · exact .inl
    · rintro (h' | rfl)
      · exact h'
      · exact h
  · rw [if_neg h, List.mem_append, List.mem_singleton]

theorem addName_nodup {names : List String} (h : names.Nodup) (name : String) :
    (addName names name).Nodup := by
  rw [addName_eq]
  by_cases hmem : name ∈ names
  · rwa [if_pos hmem]
  · rw [if_neg hmem, List.nodup_append]
    refine ⟨h, List.pairwise_singleton _ name, ?_⟩
    intro a ha b hb
    rw [List.mem_singleton] at hb
    rintro rfl
    exact hmem (hb ▸ ha)

theorem addNames_spec {names : List String} (h : names.Nodup) (added : List String) :
    (added.foldl addName names).Nodup ∧
      ∀ name, name ∈ added.foldl addName names ↔ name ∈ names ∨ name ∈ added := by
  induction added generalizing names with
  | nil =>
    refine ⟨h, fun name => ?_⟩
    simp
  | cons first added ih =>
    obtain ⟨hnodup, hmem⟩ := ih (addName_nodup h first)
    refine ⟨hnodup, fun name => ?_⟩
    rw [List.foldl_cons, hmem, mem_addName, List.mem_cons, or_assoc]

/-- **The name table**: no name twice, and the names of all the rows. -/
theorem columnNames_spec (rows : List Api.Row) : (columnNames rows).Nodup ∧
    ∀ name, name ∈ columnNames rows ↔ ∃ row ∈ rows, name ∈ row.names := by
  have hall : ∀ (rows : List Api.Row) (names : List String), names.Nodup →
      (rows.foldl (fun names row => row.names.foldl addName names) names).Nodup ∧
      ∀ name, name ∈ rows.foldl (fun names row => row.names.foldl addName names) names ↔
        name ∈ names ∨ ∃ row ∈ rows, name ∈ row.names := by
    intro rows
    induction rows with
    | nil =>
      intro names h
      refine ⟨h, fun name => ?_⟩
      simp
    | cons row rows ih =>
      intro names h
      obtain ⟨hnodup, hmem⟩ := addNames_spec h row.names
      obtain ⟨hnodup', hmem'⟩ := ih _ hnodup
      refine ⟨hnodup', fun name => ?_⟩
      have hexists : (∃ r ∈ row :: rows, name ∈ r.names) ↔
          name ∈ row.names ∨ ∃ r ∈ rows, name ∈ r.names := by simp
      rw [List.foldl_cons, hmem', hmem, or_assoc, hexists]
  obtain ⟨hnodup, hmem⟩ := hall rows [] List.nodup_nil
  refine ⟨hnodup, fun name => ?_⟩
  rw [columnNames, hmem]
  simp

/-! ## Numbers -/

/-- A number stands for one name. -/
theorem columnToWire_id {columns : List String} {a b : String × Api.Value}
    {va vb : Wire.UnversionedValue} (ha : columnToWire columns a = .ok va)
    (hb : columnToWire columns b = .ok vb) (hid : va.id = vb.id) : a.1 = b.1 := by
  have hname := (columnToWire_ok ha).1
  rw [hid, (columnToWire_ok hb).1] at hname
  exact (Option.some.inj hname).symm

/-- A column whose name is in the table is numbered, or its place is no `u16`. -/
theorem columnToWire_of_mem {columns : List String} {column : String × Api.Value}
    (h : column.1 ∈ columns) :
    (∃ value, columnToWire columns column = .ok value) ∨
      (columnToWire columns column = .error .tooManyColumns ∧
        ∃ id, columns[id]? = some column.1 ∧ 0xffff < id) := by
  unfold columnToWire
  cases hfound : columns.findIdx? fun name => name == column.1 with
  | none =>
    have hnone := List.findIdx?_eq_none_iff.mp hfound column.1 h
    rw [beq_self_eq_true] at hnone
    cases hnone
  | some id =>
    dsimp only
    by_cases hid : id ≤ 0xffff
    · rw [if_pos hid]
      exact .inl ⟨_, rfl⟩
    · rw [if_neg hid]
      obtain ⟨hlt, hname, _⟩ := List.findIdx?_eq_some_iff_getElem.mp hfound
      refine .inr ⟨rfl, id, ?_, Nat.not_le.mp hid⟩
      rw [List.getElem?_eq_getElem hlt, eq_of_beq hname]

/-- A name that the table lacks has no number. -/
theorem columnToWire_not_mem {columns : List String} {column : String × Api.Value}
    (h : column.1 ∉ columns) :
    columnToWire columns column = .error (.notInNameTable column.1 columns) := by
  have hnone : (columns.findIdx? fun name => name == column.1) = none := by
    rw [List.findIdx?_eq_none_iff]
    intro name hmem
    rw [beq_eq_false_iff_ne]
    rintro rfl
    exact h hmem
  unfold columnToWire
  rw [hnone]

/-! ## Rows -/

/-- Whether a row is converted is whether each of its columns is. -/
theorem rowToWire_cases (row : Api.Row) (columns : List String) :
    (∃ values, rowToWire row columns = .ok values ∧ rowFromWire values columns = .ok row) ∨
      ∃ e, rowToWire row columns = .error e ∧
        ∃ column ∈ row.columns, columnToWire columns column = .error e := by
  cases hrun : rowToWire row columns with
  | ok values => exact .inl ⟨values, rfl, rowFromWire_rowToWire hrun⟩
  | error e => exact .inr ⟨e, rfl, ExceptList.mapM_error hrun⟩

/-- **A row of the request** comes back as it was, or one of its columns has a place that is no
`u16`. -/
theorem rowToWire_of_mem {rows : List Api.Row} {row : Api.Row} (hrow : row ∈ rows) :
    (∃ values, rowToWire row (columnNames rows) = .ok values ∧
      rowFromWire values (columnNames rows) = .ok row) ∨
    (rowToWire row (columnNames rows) = .error .tooManyColumns ∧
      ∃ column ∈ row.columns, ∃ id, (columnNames rows)[id]? = some column.1 ∧ 0xffff < id) := by
  rcases rowToWire_cases row (columnNames rows) with h | ⟨e, hrun, column, hcolumn, he⟩
  · exact .inl h
  · have hmem : column.1 ∈ columnNames rows := by
      apply ((columnNames_spec rows).2 column.1).mpr
      exact ⟨row, hrow, List.mem_map_of_mem hcolumn⟩
    rcases columnToWire_of_mem hmem with ⟨value, hok⟩ | ⟨herror, hid⟩
    · rw [he] at hok
      cases hok
    · rw [he] at herror
      cases herror
      exact .inr ⟨hrun, column, hcolumn, hid⟩

/-- A row with a name that the table lacks is refused. -/
theorem rowToWire_not_mem {row : Api.Row} {columns : List String} {column : String × Api.Value}
    (hcolumn : column ∈ row.columns) (h : column.1 ∉ columns) :
    ∃ e, rowToWire row columns = .error e := by
  cases hrun : rowToWire row columns with
  | error e => exact ⟨e, rfl⟩
  | ok values =>
    obtain ⟨value, _, hvalue⟩ :=
      ExceptList.forall₂_left (ExceptList.mapM_ok_iff.mp hrun) column hcolumn
    rw [columnToWire_not_mem h] at hvalue
    cases hvalue

/-- **What a wire row is read as**: each value under the name its number stands for, in order;
a number that stands for none is reported. -/
theorem rowFromWireLoop_cases (columns : List String) (named : Api.Row) (values : Wire.Row) :
    (∃ row, rowFromWireLoop columns named values = .ok ⟨named.columns ++ row⟩ ∧
      List.Forall₂ (fun value column => columns[value.id.toNat]? = some column.1 ∧
        column.2 = fromWireValue value.value) values row) ∨
    ∃ value ∈ values, columns.length ≤ value.id.toNat ∧
      rowFromWireLoop columns named values = .error (.unknownId value.id columns.length) := by
  induction values generalizing named with
  | nil =>
    left
    refine ⟨[], ?_, .nil⟩
    rw [rowFromWireLoop, List.append_nil]
  | cons value values ih =>
    rw [rowFromWireLoop]
    cases hname : columns[value.id.toNat]? with
    | none =>
      exact .inr ⟨value, List.mem_cons_self, List.getElem?_eq_none_iff.mp hname, rfl⟩
    | some name =>
      dsimp only
      rcases ih (named.set name (fromWireValue value.value)) with ⟨row, hrun, hrow⟩ | hnone
      · left
        refine ⟨(name, fromWireValue value.value) :: row, ?_, .cons ⟨hname, rfl⟩ hrow⟩
        rw [hrun]
        show Except.ok (Api.Row.mk ((named.columns ++ [(name, fromWireValue value.value)]) ++ row)) = _
        rw [List.append_assoc, List.singleton_append]
      · obtain ⟨unknown, hmem, hid, hrun⟩ := hnone
        exact .inr ⟨unknown, List.mem_cons_of_mem value hmem, hid, hrun⟩

theorem rowFromWire_cases (values : Wire.Row) (columns : List String) :
    (∃ row, rowFromWire values columns = .ok row ∧
      List.Forall₂ (fun value column => columns[value.id.toNat]? = some column.1 ∧
        column.2 = fromWireValue value.value) values row.columns) ∨
    ∃ value ∈ values, columns.length ≤ value.id.toNat ∧
      rowFromWire values columns = .error (.unknownId value.id columns.length) := by
  rcases rowFromWireLoop_cases columns .new values with ⟨row, hrun, hrow⟩ | hnone
  · exact .inl ⟨⟨row⟩, hrun, hrow⟩
  · exact .inr hnone

/-- A wire row with a number outside the table is refused. -/
theorem rowFromWire_unknown {values : Wire.Row} {columns : List String}
    {value : Wire.UnversionedValue} (hvalue : value ∈ values)
    (h : columns.length ≤ value.id.toNat) :
    ∃ id, rowFromWire values columns = .error (.unknownId id columns.length) := by
  rcases rowFromWire_cases values columns with ⟨row, _, hrow⟩ | ⟨unknown, _, _, hrun⟩
  · obtain ⟨column, _, hname, _⟩ := ExceptList.forall₂_left hrow value hvalue
    rw [List.getElem?_eq_none h] at hname
    cases hname
  · exact ⟨unknown.id, hrun⟩

/-- **Named rows survive the wire.** -/
theorem named_rows_survive (rows : List Api.Row) :
    -- every row comes back as it was, or a place in the table is no `u16`
    (∀ row ∈ rows,
      (∃ values, rowToWire row (columnNames rows) = .ok values ∧
        rowFromWire values (columnNames rows) = .ok row) ∨
      (rowToWire row (columnNames rows) = .error .tooManyColumns ∧
        ∃ column ∈ row.columns, ∃ id, (columnNames rows)[id]? = some column.1 ∧ 0xffff < id)) ∧
    -- a number stands for one name
    (columnNames rows).Nodup ∧
    (∀ a b va vb, columnToWire (columnNames rows) a = .ok va →
      columnToWire (columnNames rows) b = .ok vb → va.id = vb.id → a.1 = b.1) ∧
    -- a number outside the table, or a name that is not in it, is an error, and nothing else is
    -- dropped or put elsewhere
    (∀ values : Wire.Row, (∃ value ∈ values, (columnNames rows).length ≤ value.id.toNat) →
      ∃ id, rowFromWire values (columnNames rows) =
        .error (.unknownId id (columnNames rows).length)) ∧
    (∀ (values : Wire.Row) (row : Api.Row), rowFromWire values (columnNames rows) = .ok row →
      List.Forall₂ (fun value column => (columnNames rows)[value.id.toNat]? = some column.1 ∧
        column.2 = fromWireValue value.value) values row.columns) ∧
    ∀ row : Api.Row, (∃ column ∈ row.columns, column.1 ∉ columnNames rows) →
      ∃ e, rowToWire row (columnNames rows) = .error e := by
  refine ⟨fun row => rowToWire_of_mem, (columnNames_spec rows).1, fun a b va vb => columnToWire_id,
    ?_, ?_, ?_⟩
  · rintro values ⟨value, hvalue, hid⟩
    exact rowFromWire_unknown hvalue hid
  · intro values row hrun
    rcases rowFromWire_cases values (columnNames rows) with ⟨row', hrun', hrow⟩ | ⟨_, _, _, herror⟩
    · rw [hrun] at hrun'
      cases hrun'
      exact hrow
    · rw [hrun] at herror
      cases herror
  · rintro row ⟨column, hcolumn, hnone⟩
    exact rowToWire_not_mem hcolumn hnone

end Rpc
end Ytsaurus
