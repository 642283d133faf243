import Ytsaurus.Lib.ExceptList
import Ytsaurus.Rpc.Convert

/-!
# `Proof/Rpc/Convert.lean` — a row that can be numbered comes back

Numbering takes the first place of a name in the table, and that place holds the name; so
wherever `row_to_wire` succeeds, `row_from_wire` with the same table gives the row back, its
repeated names included.
-/

set_option autoImplicit false

namespace Ytsaurus
namespace Rpc

theorem fromWireValue_toWireValue (value : Api.Value) :
    fromWireValue (toWireValue value) = value := by
  cases value <;> rfl

/-- The column that a number stands for. -/
theorem columnToWire_ok {columns : List String} {column : String × Api.Value}
    {value : Wire.UnversionedValue} (h : columnToWire columns column = .ok value) :
    columns[value.id.toNat]? = some column.1 ∧ fromWireValue value.value = column.2 := by
  unfold columnToWire at h
  cases hfound : columns.findIdx? fun name => name == column.1 with
  | none =>
    rw [hfound] at h
    cases h
  | some id =>
    rw [hfound] at h
    by_cases hid : id ≤ 0xffff
    · obtain rfl := Except.ok.inj ((if_pos hid).symm.trans h)
      obtain ⟨hlt, hname, _⟩ := List.findIdx?_eq_some_iff_getElem.mp hfound
      have hnumber : (BitVec.ofNat 16 id).toNat = id := by
        rw [BitVec.toNat_ofNat]
        exact Nat.mod_eq_of_lt (Nat.lt_succ_of_le hid)
      constructor
      · show columns[(BitVec.ofNat 16 id).toNat]? = some column.1
        rw [hnumber, List.getElem?_eq_getElem hlt, eq_of_beq hname]
      · exact fromWireValue_toWireValue column.2
    · cases (if_neg hid).symm.trans h

theorem rowFromWireLoop_columns {columns : List String} {row : List (String × Api.Value)}
    {values : Wire.Row} (named : Api.Row)
    (h : List.Forall₂ (fun column value => columnToWire columns column = .ok value) row values) :
    rowFromWireLoop columns named values = .ok ⟨named.columns ++ row⟩ := by
  induction h generalizing named with
  | nil =>
    rw [rowFromWireLoop, List.append_nil]
  | @cons column value row values hcolumn _ ih =>
    obtain ⟨hname, hvalue⟩ := columnToWire_ok hcolumn
    rw [rowFromWireLoop, hname]
    dsimp only
    rw [ih, hvalue]
    show Except.ok (Api.Row.mk ((named.columns ++ [(column.1, column.2)]) ++ row)) = _
    rw [List.append_assoc, List.singleton_append]

/-- **A row comes back from the wire as it was.** -/
theorem rowFromWire_rowToWire {row : Api.Row} {columns : List String} {values : Wire.Row}
    (h : rowToWire row columns = .ok values) : rowFromWire values columns = .ok row :=
  rowFromWireLoop_columns .new (ExceptList.mapM_ok_iff.mp h)

end Rpc
end Ytsaurus
