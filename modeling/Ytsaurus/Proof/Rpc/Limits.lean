import Ytsaurus.Rpc.Wire
import Ytsaurus.Lib.ExceptList
import Mathlib.Algebra.BigOperators.Ring.List
import Mathlib.Algebra.Ring.Nat
import Mathlib.Algebra.Order.BigOperators.Group.List
import Mathlib.Algebra.Order.Ring.Nat

/-!
# `Proof/Rpc/Limits.lean` — what the writer accepts, and how much it writes

`validateAndMeasure` keeps a running size and compares it with the limit after every
addition. Sizes only grow, so the comparison that counts is the last one, and the running
size at the end is `encodedSize` (`validateAndMeasure_eq_ok`). That is also the number of
bytes that are written, which needs no limit (`encodeRowsetUnchecked_length`).

`WithinLimits` is what a user of the writer has to know: four bounds, each a constant of the
protocol, on the rows, on the values of a row, on the bytes of a value and on the whole. The
writer tests them in the order it comes across them, and the first that fails is its error; which
one that is, is not said here. The additions of the loop are checked for overflow in the source
as well as against the limit, and within the limit nothing overflows.

Every element is padded to eight bytes, so the size is a multiple of eight (`dvd_encodedSize`).
-/

set_option autoImplicit false

namespace Ytsaurus
namespace Rpc
namespace Wire

open LittleEndian

/-- The length of a value's blob fits. -/
def ValueFits (value : UnversionedValue) : Prop :=
  ∀ blob, value.value.blob = some blob → blob.length ≤ maxValueLength

/-- A row that is not null has few enough values, and none that is too long. -/
def RowFits (row : MaybeRow) : Prop :=
  ∀ values, row = some values → values.length ≤ maxValuesPerRow ∧ ∀ v ∈ values, ValueFits v

/-- The four limits of a rowset. -/
structure WithinLimits (rows : List MaybeRow) : Prop where
  rowCount : rows.length ≤ maxRowsPerRowset
  valueCount : ∀ row, some row ∈ rows → row.length ≤ maxValuesPerRow
  valueLength : ∀ row, some row ∈ rows → ∀ value ∈ row, ∀ blob, value.value.blob = some blob →
    blob.length ≤ maxValueLength
  totalSize : encodedSize rows ≤ maxRowsetSize

theorem WithinLimits.rowFits {rows : List MaybeRow} (h : WithinLimits rows) :
    ∀ row ∈ rows, RowFits row := by
  intro row hrow values hvalues
  subst hvalues
  exact ⟨h.valueCount values hrow, h.valueLength values hrow⟩

/-! ## The running size -/

/-- An addition succeeds within the limit; within it nothing overflows. -/
theorem addToRowsetSize_eq_ok {size additional result : Nat} :
    addToRowsetSize size additional = .ok result ↔
      size + additional ≤ maxRowsetSize ∧ result = size + additional := by
  have hlimit : maxRowsetSize ≤ usizeMax := by decide
  unfold addToRowsetSize
  by_cases hover : size + additional > usizeMax
  · rw [if_pos hover]
    constructor
    · intro h
      cases h
    · intro h
      exact absurd (Nat.le_trans h.1 hlimit) (Nat.not_le.mpr hover)
  · rw [if_neg hover]
    by_cases hlarge : size + additional > maxRowsetSize
    · rw [if_pos hlarge]
      constructor
      · intro h
        cases h
      · intro h
        exact absurd h.1 (Nat.not_le.mpr hlarge)
    · rw [if_neg hlarge]
      constructor
      · intro h
        exact ⟨Nat.not_lt.mp hlarge, (Except.ok.inj h).symm⟩
      · intro h
        rw [h.2]

theorem validateValue_eq_ok {value : UnversionedValue} :
    validateValue value = .ok () ↔ ValueFits value := by
  unfold validateValue ValueFits
  cases value.value.blob with
  | none =>
    constructor
    · intro _ blob hblob
      cases hblob
    · intro _
      rfl
  | some blob =>
    dsimp only
    by_cases hlong : blob.length > maxValueLength
    · rw [if_pos hlong]
      constructor
      · intro h
        cases h
      · intro h
        exact absurd (h blob rfl) (Nat.not_le.mpr hlong)
    · rw [if_neg hlong]
      constructor
      · intro _ blob' hblob
        cases hblob
        exact Nat.not_lt.mp hlong
      · intro _
        rfl

theorem validateRow_eq_ok {size result : Nat} {row : Row} (hsize : size ≤ maxRowsetSize) :
    validateRow size row = .ok result ↔
      (∀ v ∈ row, ValueFits v) ∧ result = size + (row.map UnversionedValue.wireSize).sum ∧
        result ≤ maxRowsetSize := by
  induction row generalizing size with
  | nil =>
    rw [validateRow]
    constructor
    · intro h
      cases h
      exact ⟨List.forall_mem_nil _, rfl, hsize⟩
    · intro h
      rw [h.2.1]
      rfl
  | cons value row ih =>
    rw [validateRow, ExceptList.bind_eq_ok, List.map_cons, List.sum_cons, ← Nat.add_assoc,
      List.forall_mem_cons]
    constructor
    · rintro ⟨_, hvalue, h⟩
      obtain ⟨next, hadd, hrest⟩ := ExceptList.bind_eq_ok.mp h
      obtain ⟨hnext, rfl⟩ := addToRowsetSize_eq_ok.mp hadd
      obtain ⟨hrow, hresult⟩ := (ih hnext).mp hrest
      exact ⟨⟨validateValue_eq_ok.mp hvalue, hrow⟩, hresult⟩
    · rintro ⟨⟨hvalue, hrow⟩, hresult, hmax⟩
      have hnext : size + value.wireSize ≤ maxRowsetSize := by omega
      refine ⟨(), validateValue_eq_ok.mpr hvalue, ?_⟩
      rw [ExceptList.bind_eq_ok]
      exact ⟨_, addToRowsetSize_eq_ok.mpr ⟨hnext, rfl⟩, (ih hnext).mpr ⟨hrow, hresult, hmax⟩⟩

/-- One row, in the loop over the rows. -/
theorem validateRows_cons_eq_ok {index size result : Nat} {row : MaybeRow}
    {rows : List MaybeRow} :
    validateRows index size (row :: rows) = .ok result ↔
      RowFits row ∧ size + rowSize row ≤ maxRowsetSize ∧
        validateRows (index + 1) (size + rowSize row) rows = .ok result := by
  cases row with
  | none =>
    have hfits : RowFits none := by
      intro values hvalues
      cases hvalues
    rw [validateRows, ExceptList.bind_eq_ok]
    constructor
    · rintro ⟨next, hadd, hrest⟩
      obtain ⟨hnext, rfl⟩ := addToRowsetSize_eq_ok.mp hadd
      exact ⟨hfits, hnext, hrest⟩
    · rintro ⟨_, hnext, hrest⟩
      exact ⟨_, addToRowsetSize_eq_ok.mpr ⟨hnext, rfl⟩, hrest⟩
  | some row =>
    rw [validateRows, ExceptList.bind_eq_ok]
    unfold rowSize
    rw [← Nat.add_assoc]
    constructor
    · rintro ⟨next, hadd, h⟩
      obtain ⟨hnext, rfl⟩ := addToRowsetSize_eq_ok.mp hadd
      by_cases hcount : row.length > maxValuesPerRow
      · rw [if_pos hcount] at h
        cases h
      · rw [if_neg hcount] at h
        obtain ⟨after, hrow, hrest⟩ := ExceptList.bind_eq_ok.mp h
        obtain ⟨hvalues, rfl, hafter⟩ := (validateRow_eq_ok hnext).mp hrow
        refine ⟨?_, hafter, hrest⟩
        intro values hvalues'
        cases hvalues'
        exact ⟨Nat.not_lt.mp hcount, hvalues⟩
    · rintro ⟨hfits, hafter, hrest⟩
      obtain ⟨hcount, hvalues⟩ := hfits row rfl
      have hnext : size + alignment ≤ maxRowsetSize := by omega
      refine ⟨_, addToRowsetSize_eq_ok.mpr ⟨hnext, rfl⟩, ?_⟩
      rw [if_neg (Nat.not_lt.mpr hcount)]
      apply ExceptList.bind_eq_ok.mpr
      exact ⟨_, (validateRow_eq_ok hnext).mpr ⟨hvalues, rfl, hafter⟩, hrest⟩

theorem validateRows_eq_ok {index size result : Nat} {rows : List MaybeRow}
    (hsize : size ≤ maxRowsetSize) :
    validateRows index size rows = .ok result ↔
      (∀ row ∈ rows, RowFits row) ∧ result = size + (rows.map rowSize).sum ∧
        result ≤ maxRowsetSize := by
  induction rows generalizing index size with
  | nil =>
    rw [validateRows]
    constructor
    · intro h
      cases h
      exact ⟨List.forall_mem_nil _, rfl, hsize⟩
    · intro h
      rw [h.2.1]
      rfl
  | cons row rows ih =>
    rw [validateRows_cons_eq_ok, List.map_cons, List.sum_cons, ← Nat.add_assoc,
      List.forall_mem_cons]
    constructor
    · rintro ⟨hrow, hnext, hrest⟩
      obtain ⟨hrows, hresult⟩ := (ih hnext).mp hrest
      exact ⟨⟨hrow, hrows⟩, hresult⟩
    · rintro ⟨⟨hrow, hrows⟩, hresult, hmax⟩
      have hnext : size + rowSize row ≤ maxRowsetSize := by omega
      exact ⟨hrow, hnext, (ih hnext).mpr ⟨hrows, hresult, hmax⟩⟩

/-- **The writer accepts exactly the rowsets within the limits**, and measures `encodedSize`. -/
theorem validateAndMeasure_eq_ok {rows : List MaybeRow} {size : Nat} :
    validateAndMeasure rows = .ok size ↔ WithinLimits rows ∧ size = encodedSize rows := by
  have hstart : alignment ≤ maxRowsetSize := by decide
  unfold validateAndMeasure
  by_cases hcount : rows.length > maxRowsPerRowset
  · rw [if_pos hcount]
    constructor
    · intro h
      cases h
    · intro h
      exact absurd h.1.rowCount (Nat.not_le.mpr hcount)
  · rw [if_neg hcount, validateRows_eq_ok hstart]
    constructor
    · rintro ⟨hrows, rfl, hsize⟩
      refine ⟨⟨Nat.not_lt.mp hcount, ?_, ?_, hsize⟩, rfl⟩
      · intro row hrow
        exact (hrows _ hrow row rfl).1
      · intro row hrow
        exact (hrows _ hrow row rfl).2
    · rintro ⟨h, rfl⟩
      exact ⟨h.rowFits, rfl, h.totalSize⟩

/-! ## The size that is written -/

theorem valueHeader_length (value : UnversionedValue) :
    (valueHeader value).length = alignment := by
  unfold valueHeader
  rw [List.length_append, List.length_append, List.length_append, toLeBytes_length,
    leBytes_length]
  rfl

theorem padded_length (blob : List UInt8) :
    (blob ++ List.replicate (paddingFor blob.length) (0 : UInt8)).length =
      blob.length + paddingFor blob.length := by
  rw [List.length_append, List.length_replicate]

theorem encodeValueUnchecked_length (value : UnversionedValue) :
    (encodeValueUnchecked value).length = value.wireSize := by
  unfold encodeValueUnchecked
  rw [List.length_append, valueHeader_length]
  unfold UnversionedValue.wireSize
  cases value.value with
  | null => rfl
  | int64 v | uint64 v | double v => exact congrArg (alignment + ·) (toLeBytes_length 8 v)
  | boolean v => exact congrArg (alignment + ·) (toLeBytes_length 8 _)
  | string b | any b | composite b => exact congrArg (alignment + ·) (padded_length b)

theorem encodeRowUnchecked_length (row : MaybeRow) :
    (encodeRowUnchecked row).length = rowSize row := by
  cases row with
  | none => exact leBytes_length 8 nullRowMarker
  | some row =>
    rw [encodeRowUnchecked, List.length_append, leBytes_length, List.length_flatMap]
    unfold rowSize
    rw [List.map_congr_left fun value _ => encodeValueUnchecked_length value]
    rfl

/-- **A rowset takes `encodedSize` bytes.** -/
theorem encodeRowsetUnchecked_length (rows : List MaybeRow) :
    (encodeRowsetUnchecked rows).length = encodedSize rows := by
  rw [encodeRowsetUnchecked, List.length_append, leBytes_length, List.length_flatMap,
    List.map_congr_left fun row _ => encodeRowUnchecked_length row]
  rfl

/-! ## Alignment -/

theorem dvd_padded (length : Nat) : alignment ∣ length + paddingFor length := by
  unfold paddingFor alignment
  omega

theorem dvd_wireSize (value : UnversionedValue) : alignment ∣ value.wireSize := by
  unfold UnversionedValue.wireSize
  apply Nat.dvd_add (Nat.dvd_refl alignment)
  cases value.value with
  | null => exact Nat.dvd_zero alignment
  | int64 _ | uint64 _ | double _ | boolean _ => exact Nat.dvd_refl alignment
  | string b | any b | composite b => exact dvd_padded b.length

theorem dvd_rowSize (row : MaybeRow) : alignment ∣ rowSize row := by
  cases row with
  | none => exact Nat.dvd_refl alignment
  | some row =>
    apply Nat.dvd_add (Nat.dvd_refl alignment)
    apply List.dvd_sum
    intro size hsize
    obtain ⟨value, _, rfl⟩ := List.mem_map.mp hsize
    exact dvd_wireSize value

/-- Every element is aligned, and so is the rowset. -/
theorem dvd_encodedSize (rows : List MaybeRow) : alignment ∣ encodedSize rows := by
  apply Nat.dvd_add (Nat.dvd_refl alignment)
  apply List.dvd_sum
  intro size hsize
  obtain ⟨row, _, rfl⟩ := List.mem_map.mp hsize
  exact dvd_rowSize row

end Wire
end Rpc
end Ytsaurus
