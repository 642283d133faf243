import Mathlib.Data.List.TakeWhile

/-!
# `Lib/Framing.lean` — records in a stream, and measuring them on a prefix

A stream is records with separators around them; a *measure* looks at the front of what has
arrived and says how long the record there is, that it is not all there, or that it is not a
record. `Splits` is what a whole stream is made of.

A reader sees the stream through a window that holds only a prefix of what is left. That is
harmless when the measure is `Stable`: a verdict other than *incomplete* is the verdict on
the whole stream, and a prefix on which a record is incomplete is shorter
than the record (`Stable.short`), so a window that may grow to the length of the longest
record will always show it.

A stream that was written as records with one separator behind each may also arrive cut
off. Its prefixes split cleanly exactly where the cut is at a record boundary
(`splits_take_fragment_iff`).
-/

set_option autoImplicit false

namespace Framing

variable {α ε : Type}

/-- What a measure makes of the front of its input. -/
inductive Measured (ε : Type) where
  | complete (len : Nat)
  | incomplete
  | malformed (e : ε)

/-- How a stream ends, with the offset and the length of what is left over. -/
inductive Ending (ε : Type) where
  | clean
  | truncated (offset len : Nat)
  | malformed (offset len : Nat) (e : ε)

/-- The length of an unfinished or malformed tail. -/
def Ending.tail : Ending ε → Option Nat
  | .clean => none
  | .truncated _ len => some len
  | .malformed _ len _ => some len

/-- The stream `s`, which starts at offset `off`, is these records (with their offsets) and
this ending. -/
inductive Splits (measure : List α → Measured ε) (isSep : α → Bool) :
    Nat → List α → List (Nat × List α) → Ending ε → Prop
  | clean {off : Nat} {s : List α} (h : s.dropWhile isSep = []) :
      Splits measure isSep off s [] .clean
  | truncated {off : Nat} {s : List α} (hs : s.dropWhile isSep ≠ [])
      (h : measure (s.dropWhile isSep) = .incomplete) :
      Splits measure isSep off s []
        (.truncated (off + (s.takeWhile isSep).length) (s.dropWhile isSep).length)
  | malformed {off : Nat} {s : List α} {e : ε} (hs : s.dropWhile isSep ≠ [])
      (h : measure (s.dropWhile isSep) = .malformed e) :
      Splits measure isSep off s []
        (.malformed (off + (s.takeWhile isSep).length) (s.dropWhile isSep).length e)
  | record {off len : Nat} {s : List α} {records : List (Nat × List α)} {ending : Ending ε}
      (hs : s.dropWhile isSep ≠ []) (h : measure (s.dropWhile isSep) = .complete len)
      (hrest : Splits measure isSep (off + (s.takeWhile isSep).length + len)
        ((s.dropWhile isSep).drop len) records ending) :
      Splits measure isSep off s
        ((off + (s.takeWhile isSep).length, (s.dropWhile isSep).take len) :: records) ending

/-- More input does not change a verdict, and the record is all a verdict needs. -/
structure Stable (measure : List α → Measured ε) : Prop where
  extend_complete : ∀ {x : List α} {n : Nat}, measure x = .complete n →
    ∀ z, measure (x ++ z) = .complete n
  extend_malformed : ∀ {x : List α} {e : ε}, measure x = .malformed e →
    ∀ z, measure (x ++ z) = .malformed e
  take_complete : ∀ {x : List α} {n : Nat}, measure x = .complete n →
    0 < n ∧ n ≤ x.length ∧ measure (x.take n) = .complete n

/-- A prefix on which a record is incomplete ends before the record does. -/
theorem Stable.short {measure : List α → Measured ε} (h : Stable measure) {x z : List α} {n : Nat}
    (hall : measure (x ++ z) = .complete n) (hx : measure x = .incomplete) : x.length < n := by
  by_contra hle
  have htake : (x ++ z).take n = x.take n := List.take_append_of_le_length (by omega)
  have hrecord := (h.take_complete hall).2.2
  rw [htake] at hrecord
  have hwhole := h.extend_complete hrecord (x.drop n)
  rw [List.take_append_drop, hx] at hwhole
  cases hwhole

/-! ## Separators in front -/

theorem dropWhile_ne_nil {isSep : α → Bool} {a : α} (x : List α) (ha : isSep a = false) :
    (a :: x).dropWhile isSep = a :: x := by
  rw [List.dropWhile_cons_of_neg]
  rw [ha]
  exact Bool.false_ne_true

/-- A separator in front only moves the offsets. -/
theorem Splits.cons_sep {measure : List α → Measured ε} {isSep : α → Bool} {sep : α}
    (hsep : isSep sep) {off : Nat} {s : List α} {records : List (Nat × List α)}
    {ending : Ending ε} : Splits measure isSep off (sep :: s) records ending ↔
      Splits measure isSep (off + 1) s records ending := by
  have hdrop : (sep :: s).dropWhile isSep = s.dropWhile isSep := List.dropWhile_cons_of_pos hsep
  have htake : off + ((sep :: s).takeWhile isSep).length =
      off + 1 + (s.takeWhile isSep).length := by
    rw [List.takeWhile_cons_of_pos hsep, List.length_cons]
    omega
  constructor
  · intro h
    cases h with
    | clean h =>
      rw [hdrop] at h
      exact .clean h
    | truncated hs h =>
      rw [hdrop] at hs h
      rw [htake, hdrop]
      exact .truncated hs h
    | malformed hs h =>
      rw [hdrop] at hs h
      rw [htake, hdrop]
      exact .malformed hs h
    | record hs h hrest =>
      rw [hdrop] at hs h
      rw [htake, hdrop] at hrest
      rw [htake, hdrop]
      exact .record hs h hrest
  · intro h
    cases h with
    | clean h => exact .clean (hdrop.trans h)
    | truncated hs h =>
      rw [← htake, ← hdrop]
      exact .truncated (by rwa [hdrop]) (by rwa [hdrop])
    | malformed hs h =>
      rw [← htake, ← hdrop]
      exact .malformed (by rwa [hdrop]) (by rwa [hdrop])
    | record hs h hrest =>
      rw [← htake, ← hdrop] at hrest ⊢
      exact .record (by rwa [hdrop]) (by rwa [hdrop]) hrest

/-- Separators in front only move the offsets. -/
theorem Splits.append_seps {measure : List α → Measured ε} {isSep : α → Bool} {seps s : List α}
    (hseps : ∀ a ∈ seps, isSep a) {off : Nat} {records : List (Nat × List α)}
    {ending : Ending ε} : Splits measure isSep off (seps ++ s) records ending ↔
      Splits measure isSep (off + seps.length) s records ending := by
  induction seps generalizing off with
  | nil => exact Iff.rfl
  | cons a seps ih =>
    obtain ⟨ha, hseps⟩ := List.forall_mem_cons.mp hseps
    rw [List.cons_append, Splits.cons_sep ha, ih hseps, List.length_cons, Nat.add_assoc,
      Nat.add_comm 1]

/-- A stream that splits cleanly may be continued. -/
theorem Splits.append {measure : List α → Measured ε} (hstable : Stable measure) {isSep : α → Bool}
    {off : Nat} {s t : List α} {records records' : List (Nat × List α)} {ending : Ending ε}
    (h : Splits measure isSep off s records .clean)
    (h' : Splits measure isSep (off + s.length) t records' ending) :
    Splits measure isSep off (s ++ t) (records ++ records') ending := by
  generalize hclean : Ending.clean = found at h
  induction h with
  | clean hnone =>
    refine (Splits.append_seps ?_).mpr h'
    exact List.dropWhile_eq_nil_iff.mp hnone
  | truncated _ _ => cases hclean
  | malformed _ _ => cases hclean
  | @record off len s records _ hs hmeasure hrest ih =>
    have hne : (s.dropWhile isSep).isEmpty = false := by
      rw [List.isEmpty_eq_false_iff]
      exact hs
    have hdrop : (s ++ t).dropWhile isSep = s.dropWhile isSep ++ t := by
      rw [List.dropWhile_append, hne, if_neg Bool.false_ne_true]
    have hlength : (s.takeWhile isSep).length + (s.dropWhile isSep).length = s.length := by
      rw [← List.length_append, List.takeWhile_append_dropWhile]
    have htake : (s ++ t).takeWhile isSep = s.takeWhile isSep := by
      rw [List.takeWhile_append, if_neg]
      have hpos := List.length_pos_iff.mpr hs
      omega
    have hle := (hstable.take_complete hmeasure).2.1
    -- the first record is the same one in the longer stream
    have hfirst : (off + (s.takeWhile isSep).length, (s.dropWhile isSep).take len) =
        (off + ((s ++ t).takeWhile isSep).length, ((s ++ t).dropWhile isSep).take len) := by
      rw [hdrop, htake, List.take_append_of_le_length hle]
    rw [List.cons_append, hfirst]
    apply Splits.record
    · rw [hdrop]
      exact List.append_ne_nil_of_left_ne_nil hs t
    · rw [hdrop]
      exact hstable.extend_complete hmeasure t
    · rw [hdrop, htake, List.drop_append_of_le_length hle]
      refine ih ?_ hclean
      have hoff : off + (s.takeWhile isSep).length + len + ((s.dropWhile isSep).drop len).length =
          off + s.length := by
        rw [List.length_drop]
        omega
      rw [hoff]
      exact h'

/-- What a stream without separators in front is made of: the verdict on it decides. -/
theorem Splits.of_verdict {measure : List α → Measured ε} {isSep : α → Bool} {off : Nat}
    {s : List α} {records : List (Nat × List α)} {ending : Ending ε}
    (h : Splits measure isSep off s records ending) (hs : s ≠ []) (hdrop : s.dropWhile isSep = s) :
    (measure s = .incomplete ∧ records = [] ∧ ending = .truncated off s.length) ∨
      (∃ e, measure s = .malformed e ∧ records = [] ∧ ending = .malformed off s.length e) ∨
      ∃ len rest, measure s = .complete len ∧ records = (off, s.take len) :: rest ∧
        Splits measure isSep (off + len) (s.drop len) rest ending := by
  have htake : s.takeWhile isSep = [] := by
    have happend : s.takeWhile isSep ++ s.dropWhile isSep = s := List.takeWhile_append_dropWhile
    rw [hdrop] at happend
    exact List.append_left_eq_self.mp happend
  cases h with
  | clean hclean => exact absurd (hdrop.symm.trans hclean) hs
  | truncated _ h =>
    rw [hdrop] at h
    refine .inl ⟨h, rfl, ?_⟩
    rw [htake, hdrop]
    rfl
  | malformed _ h =>
    rw [hdrop] at h
    refine .inr (.inl ⟨_, h, rfl, ?_⟩)
    rw [htake, hdrop]
    rfl
  | record _ h hrest =>
    rw [hdrop] at h
    rw [htake, hdrop] at hrest
    refine .inr (.inr ⟨_, _, h, ?_, hrest⟩)
    rw [htake, hdrop]
    rfl

/-- Every stream splits: a record is not empty, so what is left gets shorter. -/
theorem Stable.splits_exists {measure : List α → Measured ε} (h : Stable measure)
    (isSep : α → Bool) (off : Nat) (s : List α) :
    ∃ records ending, Splits measure isSep off s records ending := by
  induction hn : s.length using Nat.strongRecOn generalizing off s with
  | ind n ih =>
  subst hn
  by_cases hs : s.dropWhile isSep = []
  · exact ⟨[], .clean, .clean hs⟩
  · cases hmeasure : measure (s.dropWhile isSep) with
    | incomplete => exact ⟨[], _, .truncated hs hmeasure⟩
    | malformed e => exact ⟨[], _, .malformed hs hmeasure⟩
    | complete len =>
      have hlen := (h.take_complete hmeasure).1
      have hpos := List.length_pos_iff.mpr hs
      have hle : (s.dropWhile isSep).length ≤ s.length :=
        (List.dropWhile_suffix isSep).length_le
      have hshorter : ((s.dropWhile isSep).drop len).length < s.length := by
        rw [List.length_drop]
        omega
      obtain ⟨records, ending, hrest⟩ := ih _ hshorter
        (off + (s.takeWhile isSep).length + len) ((s.dropWhile isSep).drop len) rfl
      exact ⟨_, ending, .record hs hmeasure hrest⟩

/-- A stream has at most as many records as elements. -/
theorem Splits.count_le {measure : List α → Measured ε} (hstable : Stable measure)
    {isSep : α → Bool} {off : Nat} {s : List α} {records : List (Nat × List α)}
    {ending : Ending ε} (h : Splits measure isSep off s records ending) :
    records.length ≤ s.length := by
  induction h with
  | clean _ => exact Nat.zero_le _
  | truncated _ _ => exact Nat.zero_le _
  | malformed _ _ => exact Nat.zero_le _
  | @record off len s records ending hs hmeasure _ ih =>
    have hlen := (hstable.take_complete hmeasure).1
    have hpos := List.length_pos_iff.mpr hs
    have hle : (s.dropWhile isSep).length ≤ s.length := (List.dropWhile_suffix isSep).length_le
    rw [List.length_drop] at ih
    rw [List.length_cons]
    omega

/-! ## Cutting a stream -/

/-- The measure finds all of it, and it does not begin with a separator. -/
structure IsRecord (measure : List α → Measured ε) (isSep : α → Bool) (r : List α) : Prop where
  complete : measure r = .complete r.length
  head : ∀ a ∈ r.head?, isSep a = false

/-- Records with a separator behind each. -/
def fragment (sep : α) (records : List (List α)) : List α := records.flatMap (· ++ [sep])

/-- The first `cut` elements of a fragment end behind a record or behind its separator, or
are none at all. -/
def AtBoundary (sep : α) (records : List (List α)) (cut : Nat) : Prop :=
  ∃ k ≤ records.length, cut = (fragment sep (records.take k)).length ∨
    cut + 1 = (fragment sep (records.take k)).length

/-- The records of a fragment that lie within its first `cut` elements. -/
def within : List (List α) → Nat → List (List α)
  | [], _ => []
  | r :: records, cut =>
    if r.length ≤ cut then r :: within records (cut - (r.length + 1)) else []

section Cut

variable {measure : List α → Measured ε} {isSep : α → Bool} {sep : α} {r : List α}
  {records : List (List α)} {cut off : Nat}

theorem fragment_cons (sep : α) (r : List α) (records : List (List α)) :
    fragment sep (r :: records) = r ++ sep :: fragment sep records := by
  unfold fragment
  rw [List.flatMap_cons, List.append_assoc, List.singleton_append]

theorem fragment_cons_length (sep : α) (r : List α) (records : List (List α)) :
    (fragment sep (r :: records)).length = r.length + 1 + (fragment sep records).length := by
  rw [fragment_cons, List.length_append, List.length_cons]
  omega

/-- A cut of a fragment is in front of the first record, within it, behind it, or behind its
separator. -/
theorem atBoundary_cons :
    AtBoundary sep (r :: records) cut ↔
      cut = 0 ∨ cut = r.length ∨ ∃ m, cut = r.length + 1 + m ∧ AtBoundary sep records m := by
  constructor
  · intro h
    obtain ⟨k, hk, hcut⟩ := h
    cases k with
    | zero =>
      rw [List.take_zero] at hcut
      exact .inl (by rcases hcut with hcut | hcut <;> simp [fragment] at hcut; exact hcut)
    | succ k =>
      rw [List.take_succ_cons, fragment_cons_length] at hcut
      rw [List.length_cons] at hk
      rcases hcut with hcut | hcut
      · exact .inr (.inr ⟨_, hcut, k, by omega, .inl rfl⟩)
      · cases hlength : (fragment sep (records.take k)).length with
        | zero => exact .inr (.inl (by omega))
        | succ m => exact .inr (.inr ⟨m, by omega, k, by omega, .inr (by omega)⟩)
  · intro h
    rcases h with rfl | rfl | ⟨m, rfl, k, hk, hcut⟩
    · exact ⟨0, Nat.zero_le _, .inl rfl⟩
    · refine ⟨1, by rw [List.length_cons]; omega, .inr ?_⟩
      rw [List.take_succ_cons, fragment_cons_length, List.take_zero]
      rfl
    · refine ⟨k + 1, by rw [List.length_cons]; omega, ?_⟩
      rw [List.take_succ_cons, fragment_cons_length]
      rcases hcut with hcut | hcut
      · exact .inl (by omega)
      · exact .inr (by omega)

theorem IsRecord.length_pos (hstable : Stable measure) (h : IsRecord measure isSep r) :
    0 < r.length := (hstable.take_complete h.complete).1

/-- What begins like a record is not all separators. -/
theorem IsRecord.dropWhile_take (h : IsRecord measure isSep r) (cut : Nat) (z : List α) :
    ((r.take cut) ++ z).dropWhile isSep = (r.take cut) ++ z ∨ r.take cut = [] := by
  cases r with
  | nil => exact .inr List.take_nil
  | cons a r =>
    cases cut with
    | zero => exact .inr rfl
    | succ cut => exact .inl (dropWhile_ne_nil _ (h.head a rfl))

/-- A record cut short does not split cleanly. -/
theorem not_splits_take (hstable : Stable measure) (h : IsRecord measure isSep r)
    (hpos : 0 < cut) (hcut : cut < r.length) :
    ¬ ∃ found, Splits measure isSep off (r.take cut) found .clean := by
  have hlength : (r.take cut).length = cut := List.length_take_of_le hcut.le
  have hne : r.take cut ≠ [] := List.ne_nil_of_length_pos (by omega)
  have hdrop : (r.take cut).dropWhile isSep = r.take cut := by
    have hcases := h.dropWhile_take cut []
    rw [List.append_nil] at hcases
    exact hcases.resolve_right hne
  intro hsplits
  obtain ⟨found, hsplits⟩ := hsplits
  cases hsplits with
  | clean hclean => exact hne (hdrop.symm.trans hclean)
  | record hs hmeasure hrest =>
    rw [hdrop] at hmeasure
    -- the verdict on the prefix would be the verdict on the record
    have hle := (hstable.take_complete hmeasure).2.1
    have hwhole := hstable.extend_complete hmeasure (r.drop cut)
    rw [List.take_append_drop, h.complete] at hwhole
    cases hwhole
    omega

/-- No separators stand in front of a record. -/
theorem IsRecord.dropWhile_append (hstable : Stable measure) (h : IsRecord measure isSep r)
    (s : List α) : (r ++ s).dropWhile isSep = r ++ s ∧ (r ++ s).takeWhile isSep = [] := by
  have hpos := h.length_pos hstable
  have hdrop : (r ++ s).dropWhile isSep = r ++ s := by
    have hcases := h.dropWhile_take r.length s
    rw [List.take_length] at hcases
    exact hcases.resolve_right (List.ne_nil_of_length_pos hpos)
  refine ⟨hdrop, ?_⟩
  have happend : (r ++ s).takeWhile isSep ++ (r ++ s).dropWhile isSep = r ++ s :=
    List.takeWhile_append_dropWhile
  rw [hdrop] at happend
  exact List.append_left_eq_self.mp happend

/-- A record in front is the first one found. -/
theorem splits_record (hstable : Stable measure) (h : IsRecord measure isSep r) {s : List α}
    {found : List (Nat × List α)} {ending : Ending ε}
    (hsplits : Splits measure isSep (off + r.length) s found ending) :
    Splits measure isSep off (r ++ s) ((off, r) :: found) ending := by
  obtain ⟨hdrop, htake⟩ := h.dropWhile_append hstable s
  have hne : r ++ s ≠ [] :=
    List.append_ne_nil_of_left_ne_nil (List.ne_nil_of_length_pos (h.length_pos hstable)) s
  have hrecord : Splits measure isSep off (r ++ s)
      ((off + ((r ++ s).takeWhile isSep).length, ((r ++ s).dropWhile isSep).take r.length) :: found)
      ending := by
    apply Splits.record
    · rwa [hdrop]
    · rw [hdrop]
      exact hstable.extend_complete h.complete s
    · rwa [hdrop, htake, List.drop_left]
  rwa [hdrop, htake, List.take_left] at hrecord

theorem splits_record_iff (hstable : Stable measure) (h : IsRecord measure isSep r)
    (s : List α) :
    (∃ found, Splits measure isSep off (r ++ s) found .clean) ↔
      ∃ found, Splits measure isSep (off + r.length) s found .clean := by
  obtain ⟨hdrop, _⟩ := h.dropWhile_append hstable s
  have hne : r ++ s ≠ [] :=
    List.append_ne_nil_of_left_ne_nil (List.ne_nil_of_length_pos (h.length_pos hstable)) s
  constructor
  · intro hsplits
    obtain ⟨found, hsplits⟩ := hsplits
    rcases hsplits.of_verdict hne hdrop with ⟨_, _, hending⟩ | ⟨_, _, _, hending⟩ |
      ⟨len, rest, hmeasure, _, hrest⟩
    · cases hending
    · cases hending
    · rw [hstable.extend_complete h.complete s] at hmeasure
      cases hmeasure
      rw [List.drop_left] at hrest
      exact ⟨rest, hrest⟩
  · intro hsplits
    obtain ⟨found, hsplits⟩ := hsplits
    exact ⟨_, splits_record hstable h hsplits⟩

/-- The records of a fragment, each with its offset. -/
def placed (off : Nat) : List (List α) → List (Nat × List α)
  | [] => []
  | r :: records => (off, r) :: placed (off + r.length + 1) records

/-- A fragment splits into the records that it was put together from. -/
theorem splits_fragment (hstable : Stable measure) (hsep : isSep sep)
    (hrecords : ∀ r ∈ records, IsRecord measure isSep r) :
    Splits measure isSep off (fragment sep records) (placed off records) .clean := by
  induction records generalizing off with
  | nil => exact .clean rfl
  | cons r records ih =>
    obtain ⟨hrecord, hrest⟩ := List.forall_mem_cons.mp hrecords
    rw [fragment_cons]
    apply splits_record hstable hrecord
    exact (Splits.cons_sep hsep).mpr (ih hrest)

/-- **A prefix of a fragment splits cleanly exactly when it is cut at a record boundary.** -/
theorem splits_take_fragment_iff (hstable : Stable measure) (hsep : isSep sep)
    (hrecords : ∀ r ∈ records, IsRecord measure isSep r)
    (hcut : cut ≤ (fragment sep records).length) :
    (∃ found, Splits measure isSep off ((fragment sep records).take cut) found .clean) ↔
      AtBoundary sep records cut := by
  induction records generalizing cut off with
  | nil =>
    have hzero : cut = 0 := Nat.le_zero.mp hcut
    subst hzero
    constructor
    · intro _
      exact ⟨0, Nat.le_refl 0, .inl rfl⟩
    · intro _
      exact ⟨[], .clean rfl⟩
  | cons r records ih =>
    obtain ⟨hr, hrest⟩ := List.forall_mem_cons.mp hrecords
    have hpos := hr.length_pos hstable
    rw [atBoundary_cons]
    rw [fragment_cons_length] at hcut
    rw [fragment_cons]
    by_cases hinside : cut < r.length
    · rw [List.take_append_of_le_length hinside.le]
      by_cases hzero : cut = 0
      · subst hzero
        constructor
        · intro _
          exact .inl rfl
        · intro _
          exact ⟨[], .clean rfl⟩
      · constructor
        · intro h
          exact absurd h (not_splits_take hstable hr (Nat.pos_of_ne_zero hzero) hinside)
        · intro h
          rcases h with h | h | ⟨m, h, _⟩
          · exact absurd h hzero
          · omega
          · omega
    · obtain ⟨n, rfl⟩ := Nat.exists_eq_add_of_le (Nat.not_lt.mp hinside)
      rw [List.take_length_add_append, splits_record_iff hstable hr]
      cases n with
      | zero =>
        constructor
        · intro _
          exact .inr (.inl rfl)
        · intro _
          exact ⟨[], .clean rfl⟩
      | succ m =>
        rw [List.take_succ_cons]
        have hsplits : (∃ found, Splits measure isSep (off + r.length + 1)
            ((fragment sep records).take m) found .clean) ↔ AtBoundary sep records m :=
          ih hrest (by omega)
        constructor
        · intro h
          obtain ⟨found, h⟩ := h
          exact .inr (.inr ⟨m, by omega, hsplits.mp ⟨found, (Splits.cons_sep hsep).mp h⟩⟩)
        · intro h
          rcases h with h | h | ⟨m', h, hboundary⟩
          · omega
          · omega
          · obtain rfl : m' = m := by omega
            obtain ⟨found, h⟩ := hsplits.mpr hboundary
            exact ⟨found, (Splits.cons_sep hsep).mpr h⟩

/-! ## What is left of the records -/

theorem mem_of_mem_within (h : r ∈ within records cut) : r ∈ records := by
  induction records generalizing cut with
  | nil => cases h
  | cons first records ih =>
    rw [within] at h
    by_cases hle : first.length ≤ cut
    · rw [if_pos hle] at h
      rcases List.mem_cons.mp h with rfl | h
      · exact List.mem_cons_self
      · exact List.mem_cons_of_mem _ (ih h)
    · rw [if_neg hle] at h
      cases h

/-- Records with a separator between any two. -/
def joined (sep : α) : List (List α) → List α
  | [] => []
  | r :: records => r ++ records.flatMap (sep :: ·)

theorem length_le_joined (h : r ∈ records) : r.length ≤ (joined sep records).length := by
  cases records with
  | nil => cases h
  | cons first records =>
    rw [joined, List.length_append]
    rcases List.mem_cons.mp h with rfl | h
    · exact Nat.le_add_right _ _
    · have hmem : sep :: r ∈ records.map (sep :: ·) := List.mem_map_of_mem h
      have hle := (List.sublist_flatten_of_mem hmem).length_le
      rw [List.length_cons, ← List.flatMap_def] at hle
      omega

theorem count_le_joined (h : ∀ r ∈ records, 0 < r.length) :
    records.length ≤ (joined sep records).length := by
  cases records with
  | nil => exact Nat.zero_le _
  | cons first records =>
    have hfirst := h first List.mem_cons_self
    have hrest : records.length ≤ (records.flatMap (sep :: ·)).length := by
      clear h
      induction records with
      | nil => exact Nat.zero_le _
      | cons r records ih =>
        rw [List.flatMap_cons, List.length_append, List.length_cons, List.length_cons]
        omega
    rw [joined, List.length_append, List.length_cons]
    omega

/-- At a boundary a prefix is the records within it, and perhaps the separator behind the
last one. -/
theorem take_fragment_of_atBoundary (hrecords : ∀ r ∈ records, 0 < r.length)
    (h : AtBoundary sep records cut) :
    ∃ trail, (trail = [] ∨ trail = [sep] ∧ within records cut ≠ []) ∧
      (fragment sep records).take cut = joined sep (within records cut) ++ trail := by
  induction records generalizing cut with
  | nil =>
    refine ⟨[], .inl rfl, ?_⟩
    exact List.take_nil
  | cons r records ih =>
    obtain ⟨hr, hrest⟩ := List.forall_mem_cons.mp hrecords
    have hnone : within records 0 = [] := by
      cases records with
      | nil => rfl
      | cons r' records => exact if_neg (Nat.not_le.mpr (hrest r' List.mem_cons_self))
    rw [fragment_cons]
    rcases atBoundary_cons.mp h with rfl | rfl | ⟨m, rfl, hboundary⟩
    · refine ⟨[], .inl rfl, ?_⟩
      rw [within, if_neg (Nat.not_le.mpr hr)]
      rfl
    · refine ⟨[], .inl rfl, ?_⟩
      rw [within, if_pos (Nat.le_refl _), Nat.sub_eq_zero_of_le (Nat.le_succ _), hnone,
        List.take_left]
      rw [joined, List.flatMap_nil, List.append_nil, List.append_nil]
    · obtain ⟨trail, htrail, htake⟩ := ih hrest hboundary
      rw [within, if_pos (by omega), Nat.add_sub_cancel_left, Nat.add_assoc,
        List.take_length_add_append, Nat.add_comm 1, List.take_succ_cons, htake]
      cases hwithin : within records m with
      | nil =>
        have hnil : trail = [] := by
          rcases htrail with htrail | ⟨_, hne⟩
          · exact htrail
          · exact absurd hwithin hne
        subst hnil
        exact ⟨[sep], .inr ⟨rfl, List.cons_ne_nil _ _⟩, by simp [joined]⟩
      | cons w records =>
        refine ⟨trail, htrail.imp_right fun h => ⟨h.1, List.cons_ne_nil _ _⟩, ?_⟩
        simp [joined]

end Cut

end Framing
