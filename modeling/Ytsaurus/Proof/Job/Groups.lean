import Ytsaurus.Proof.Job.Progress

/-!
# `Proof/Job/Groups.lean` — reduce groups partition the rows

The rows of a stream fall into the segments between its key switches. Visiting the groups of
a reader hands out those segments, each up to the number of rows asked for, whatever is left
unread of them (`visit_groups`).

A group that is dropped before its rows were read leaves them to the reader, and opening the next
group passes over them, up to the switch that ends the group and over that switch. A group may be
empty: a switch directly behind another, or in front of the first row, ends a group of no rows.
Behind the last switch there is a group only if there are rows (`reported`). These are the cases in
which an off-by-one would show.

What a caller does is a number for each group: how many rows it asks for, where asking for more
than there are means that it reads the group to its end. `Ahead` is the invariant between any two
calls: the reader is in good order and certain events are ahead of it. Each operation is described
by the events it takes off (`rows_spec`, `drainLoop_spec`, `openGroup_row`, `openGroup_keySwitch`),
with an error of the stream showing up where it is met. Nothing is asked of the stream or of the
input.
-/

set_option autoImplicit false

namespace Ytsaurus.Job

open Yson

/-! ## Segments -/

def Event.isSwitch : Event → Bool
  | .keySwitch => true
  | .row _ => false

def Event.row? : Event → Option Row
  | .keySwitch => none
  | .row r => some r

/-- The rows between the key switches. -/
def segments (events : List Event) : List (List Row) :=
  (events.splitOnP Event.isSwitch).map (List.filterMap Event.row?)

/-- The segments that are groups: nothing behind the last switch is none. -/
def reported (events : List Event) : List (List Row) :=
  if (segments events).getLast?.any List.isEmpty then (segments events).dropLast
  else segments events

theorem filterMap_row (rows : List Row) : (rows.map Event.row).filterMap Event.row? = rows := by
  rw [List.filterMap_map]
  exact List.filterMap_some

theorem rows_not_switch (rows : List Row) : ∀ e ∈ rows.map Event.row, e.isSwitch = false := by
  intro e he
  obtain ⟨row, _, rfl⟩ := List.mem_map.mp he
  rfl

theorem segments_rows (rows : List Row) : segments (rows.map .row) = [rows] := by
  unfold segments
  rw [List.splitOnP_eq_singleton (rows_not_switch rows), List.map_singleton, filterMap_row]

theorem segments_switch (rows : List Row) (events : List Event) :
    segments (rows.map .row ++ .keySwitch :: events) = rows :: segments events := by
  unfold segments
  rw [List.splitOnP_append_cons_of_forall_mem (rows_not_switch rows) .keySwitch rfl,
    List.map_cons, filterMap_row]

theorem reported_rows (rows : List Row) :
    reported (rows.map .row) = if rows = [] then [] else [rows] := by
  unfold reported
  rw [segments_rows]
  cases rows <;> rfl

theorem segments_ne_nil (events : List Event) : segments events ≠ [] := by
  unfold segments
  intro h
  exact List.splitOnP_ne_nil _ _ (List.map_eq_nil_iff.mp h)

theorem reported_switch (rows : List Row) (events : List Event) :
    reported (rows.map .row ++ .keySwitch :: events) = rows :: reported events := by
  have hne := segments_ne_nil events
  unfold reported
  rw [segments_switch, List.getLast?_cons_of_ne_nil hne, List.dropLast_cons_of_ne_nil hne]
  split <;> rfl

/-- Events are rows, perhaps with a switch behind them and more. -/
theorem events_cases (events : List Event) :
    (∃ rows : List Row, events = rows.map .row) ∨
      ∃ (rows : List Row) (rest : List Event), events = rows.map .row ++ .keySwitch :: rest := by
  induction events with
  | nil => exact .inl ⟨[], rfl⟩
  | cons e events ih =>
    cases e with
    | keySwitch => exact .inr ⟨[], events, rfl⟩
    | row row =>
      rcases ih with ⟨rows, rfl⟩ | ⟨rows, rest, rfl⟩
      · exact .inl ⟨row :: rows, rfl⟩
      · exact .inr ⟨row :: rows, rest, rfl⟩

variable [FloatText]

/-! ## The rows of one group -/

/-- What ends a segment: a switch, or the end of the events. -/
inductive Boundary : List Event → Prop
  | ended : Boundary []
  | switch (rest : List Event) : Boundary (.keySwitch :: rest)

section Group

variable {reader : JobReader} {outcome : Option JobError} {tail : List Event}

theorem rows_done {group : Group} (h : group.done = true) (asks : Nat) (reader : JobReader) :
    group.rows asks reader = ([], .ok reader) := by
  induction asks with
  | zero => rfl
  | succ asks ih =>
    have hnext : group.nextRow reader = .ok ((none, group), reader) := by
      unfold Group.nextRow
      rw [if_pos h]
      rfl
    rw [Group.rows, hnext]
    exact ih

/-- **Asking a group for rows** hands out the next ones of its segment. The reader is left
behind them, in front of the boundary at the latest, unless there it meets an error. -/
theorem rows_spec (htail : Boundary tail) (group : Group) (hdone : group.done = false)
    (asks : Nat) {rows : List Row} (h : Ahead reader (rows.map .row ++ tail) outcome) :
    (∃ reader', group.rows asks reader = (rows.take asks, .ok reader') ∧
        Ahead reader' ((rows.drop asks).map .row ++ tail) outcome) ∨
      (tail = [] ∧ ∃ e, outcome = some e ∧ rows.length < asks ∧
        group.rows asks reader = (rows.take asks, .error e)) := by
  induction asks generalizing rows reader with
  | zero => exact .inl ⟨reader, rfl, h⟩
  | succ asks ih =>
    cases rows with
    | nil =>
      cases htail with
      | ended =>
        cases outcome with
        | none =>
          obtain ⟨reader', hready, hahead⟩ := h.ended
          have hnext : group.nextRow reader = .ok ((none, { group with done := true }), reader') := by
            unfold Group.nextRow
            rw [if_neg (by rw [hdone]; exact Bool.false_ne_true), StateExcept.bind_ok hready]
            rfl
          refine .inl ⟨reader', ?_, hahead⟩
          rw [Group.rows, hnext]
          exact rows_done rfl asks reader'
        | some e =>
          have hnext : group.nextRow reader = .error e := by
            unfold Group.nextRow
            rw [if_neg (by rw [hdone]; exact Bool.false_ne_true), StateExcept.bind_error h.failed]
          refine .inr ⟨rfl, e, rfl, Nat.succ_pos asks, ?_⟩
          rw [Group.rows, hnext]
          rfl
      | switch rest =>
        obtain ⟨reader', len, hready, _, hahead, _⟩ := Ahead.keySwitch h
        have hnext : group.nextRow reader = .ok ((none, { group with done := true }), reader') := by
          unfold Group.nextRow
          rw [if_neg (by rw [hdone]; exact Bool.false_ne_true), StateExcept.bind_ok hready]
          rfl
        refine .inl ⟨reader', ?_, hahead⟩
        rw [Group.rows, hnext]
        exact rows_done rfl asks reader'
    | cons row rows =>
      obtain ⟨reader', len, hready, hrow, _, _, hahead⟩ := Ahead.row h
      have hnext : group.nextRow reader =
          .ok ((some row, group), reader'.consumed len) := by
        unfold Group.nextRow
        rw [if_neg (by rw [hdone]; exact Bool.false_ne_true), StateExcept.bind_ok hready, hrow]
        rfl
      have hrows : group.rows (asks + 1) reader =
          (row :: (group.rows asks (reader'.consumed len)).1,
            (group.rows asks (reader'.consumed len)).2) := by
        rw [Group.rows, hnext]
      rw [hrows]
      rcases ih hahead with ⟨reader₂, heq, hrest⟩ | ⟨htail, e, hout, hlong, heq⟩
      · refine .inl ⟨reader₂, ?_, hrest⟩
        rw [heq]
        rfl
      · refine .inr ⟨htail, e, hout, Nat.succ_lt_succ hlong, ?_⟩
        rw [heq]
        rfl

/-! ## Leaving a group -/

omit [FloatText] in
theorem discardPending_row {len : Nat} (h : reader.pending = some (.row len)) :
    discardPending reader = .ok ((), reader.consumed len) := by
  unfold discardPending
  rw [StateExcept.get_bind, h]
  rfl

omit [FloatText] in
theorem discardPending_keySwitch {len : Nat} (h : reader.pending = some (.keySwitch len)) :
    discardPending reader = .ok ((), reader.consumed len) := by
  unfold discardPending
  rw [StateExcept.get_bind, h]
  rfl

/-- What a drained reader has in front of it: the events behind the switch, or the end. -/
inductive Drained (outcome : Option JobError) :
    List Event → Except JobError (Bool × JobReader) → Prop
  | switch {rest : List Event} {reader : JobReader} (h : Ahead reader rest outcome) :
      Drained outcome (.keySwitch :: rest) (.ok (true, reader))
  | ended {reader : JobReader} (h : outcome = none) : Drained outcome [] (.ok (false, reader))
  | failed {e : JobError} (h : outcome = some e) : Drained outcome [] (.error e)

/-- Draining passes over the rows up to the boundary, and over the switch there. -/
theorem drainLoop_spec (htail : Boundary tail) {rows : List Row}
    (h : Ahead reader (rows.map .row ++ tail) outcome) {fuel : Nat} (hfuel : rows.length < fuel) :
    Drained outcome tail (drainLoop fuel reader) := by
  induction fuel generalizing rows reader with
  | zero => exact absurd hfuel (Nat.not_lt_zero _)
  | succ fuel ih =>
    cases rows with
    | nil =>
      cases htail with
      | ended =>
        cases outcome with
        | none =>
          obtain ⟨reader', hready, _⟩ := h.ended
          rw [drainLoop, StateExcept.bind_ok hready]
          exact .ended rfl
        | some e =>
          rw [drainLoop, StateExcept.bind_error h.failed]
          exact .failed rfl
      | switch rest =>
        obtain ⟨reader', len, hready, hpending, _, hahead⟩ := Ahead.keySwitch h
        rw [drainLoop, StateExcept.bind_ok hready]
        dsimp only
        rw [StateExcept.bind_ok (discardPending_keySwitch hpending)]
        exact .switch hahead
    | cons row rows =>
      obtain ⟨reader', len, hready, _, hpending, _, hahead⟩ := Ahead.row h
      rw [drainLoop, StateExcept.bind_ok hready]
      dsimp only
      rw [StateExcept.bind_ok (discardPending_row hpending)]
      exact ih hahead (Nat.lt_of_succ_lt_succ hfuel)

theorem drain_spec (htail : Boundary tail) {rows : List Row}
    (h : Ahead reader (rows.map .row ++ tail) outcome) : Drained outcome tail (drain reader) := by
  have hlength := h.length_le
  rw [List.length_append, List.length_map] at hlength
  unfold JobReader.remaining at hlength
  exact drainLoop_spec htail h (by omega)

end Group

/-! ## Opening a group -/

section Open

variable {reader : JobReader} {outcome : Option JobError} {events : List Event} {row : Row}

theorem openGroup_ended (h : Ahead reader [] none) :
    ∃ reader', openGroup [] reader = .ok ((none, false), reader') := by
  obtain ⟨reader', hready, _⟩ := h.ended
  refine ⟨reader', ?_⟩
  unfold openGroup
  rw [StateExcept.bind_ok hready]
  rfl

theorem openGroup_failed {e : JobError} (h : Ahead reader [] (some e)) :
    openGroup [] reader = .error e := by
  unfold openGroup
  rw [StateExcept.bind_error h.failed]

/-- At a switch the group is empty, and the reader is behind the switch. -/
theorem openGroup_keySwitch (h : Ahead reader (.keySwitch :: events) outcome) :
    ∃ reader', openGroup [] reader = .ok ((some ⟨true, ⟨[]⟩⟩, false), reader') ∧
      Ahead reader' events outcome := by
  obtain ⟨reader', len, hready, hpending, _, hahead⟩ := h.keySwitch
  refine ⟨reader'.consumed len, ?_, hahead⟩
  unfold openGroup
  rw [StateExcept.bind_ok hready]
  dsimp only
  rw [StateExcept.bind_ok (discardPending_keySwitch hpending)]
  rfl

/-- At a row the group is live, and the row still ahead. -/
theorem openGroup_row (h : Ahead reader (.row row :: events) outcome) :
    ∃ reader', openGroup [] reader = .ok ((some ⟨false, ⟨[]⟩⟩, true), reader') ∧
      Ahead reader' (.row row :: events) outcome := by
  obtain ⟨reader', len, hready, _, _, hahead, _⟩ := h.row
  refine ⟨reader', ?_, hahead⟩
  unfold openGroup
  rw [StateExcept.bind_ok hready]
  rfl

end Open

/-! ## Visiting the groups -/

/-- The first `asks index` rows of each group. -/
def asked (asks : Nat → Nat) : Nat → List (List Row) → List (List Row)
  | _, [] => []
  | index, rows :: groups => rows.take (asks index) :: asked asks (index + 1) groups

section Visit

variable {asks : Nat → Nat} {reader reader' : JobReader} {fuel index : Nat}

attribute [local simp] visitLoop

theorem visitLoop_none {inGroup inGroup' : Bool}
    (h : advance inGroup [] reader = .ok ((none, inGroup'), reader')) :
    visitLoop asks (fuel + 1) index ⟨reader, inGroup, []⟩ = ([], none) := by
  have hnext : nextGroup ⟨reader, inGroup, []⟩ = .ok (none, ⟨reader', inGroup', []⟩) := by
    unfold nextGroup
    rw [h]
  simp [hnext]

theorem visitLoop_error {inGroup : Bool} {e : JobError} (h : advance inGroup [] reader = .error e) :
    visitLoop asks (fuel + 1) index ⟨reader, inGroup, []⟩ = ([], some e) := by
  have hnext : nextGroup ⟨reader, inGroup, []⟩ = .error e := by
    unfold nextGroup
    rw [h]
  simp [hnext]

theorem visitLoop_group {inGroup inGroup' : Bool} {group : Group} {rows : List Row}
    {reader₂ : JobReader} (h : advance inGroup [] reader = .ok ((some group, inGroup'), reader'))
    (hrows : group.rows (asks index) reader' = (rows, .ok reader₂)) :
    visitLoop asks (fuel + 1) index ⟨reader, inGroup, []⟩ =
      (rows :: (visitLoop asks fuel (index + 1) ⟨reader₂, inGroup', []⟩).1,
        (visitLoop asks fuel (index + 1) ⟨reader₂, inGroup', []⟩).2) := by
  have hnext : nextGroup ⟨reader, inGroup, []⟩ = .ok (some group, ⟨reader', inGroup', []⟩) := by
    unfold nextGroup
    rw [h]
  simp [hnext, hrows]

theorem visitLoop_group_error {inGroup inGroup' : Bool} {group : Group} {rows : List Row}
    {e : JobError} (h : advance inGroup [] reader = .ok ((some group, inGroup'), reader'))
    (hrows : group.rows (asks index) reader' = (rows, .error e)) :
    visitLoop asks (fuel + 1) index ⟨reader, inGroup, []⟩ = ([rows], some e) := by
  have hnext : nextGroup ⟨reader, inGroup, []⟩ = .ok (some group, ⟨reader', inGroup', []⟩) := by
    unfold nextGroup
    rw [h]
  simp [hnext, hrows]

/-- Behind the switch that ends a group, the reader goes on as if it had been in none. -/
theorem visitLoop_drained (h : drain reader = .ok (true, reader')) :
    visitLoop asks (fuel + 1) index ⟨reader, true, []⟩ =
      visitLoop asks (fuel + 1) index ⟨reader', false, []⟩ := by
  have hadvance : advance true [] reader = advance false [] reader' := by
    unfold advance
    rw [if_pos rfl, StateExcept.bind_ok h]
    rfl
  have hnext : nextGroup ⟨reader, true, []⟩ = nextGroup ⟨reader', false, []⟩ := by
    unfold nextGroup
    rw [hadvance]
  rw [visitLoop, visitLoop, hnext]

theorem visitLoop_last (asks : Nat → Nat) (fuel index : Nat) {e : Option JobError}
    (h : Drained e [] (drain reader)) :
    visitLoop asks (fuel + 1) index ⟨reader, true, []⟩ = ([], e) := by
  generalize hx : drain reader = x at h
  cases h with
  | @ended reader₁ hnone =>
    subst hnone
    apply visitLoop_none
    show advance true [] reader = .ok ((none, false), reader₁)
    unfold advance
    rw [if_pos rfl, StateExcept.bind_ok hx]
    rfl
  | @failed e' hsome =>
    subst hsome
    apply visitLoop_error
    unfold advance
    rw [if_pos rfl, StateExcept.bind_error hx]

/-- **Visiting hands out the segments**, as far as each is asked for. -/
theorem visitLoop_spec {events : List Event} {outcome : Option JobError}
    (h : Ahead reader events outcome) (hfuel : events.length + 1 < fuel) :
    visitLoop asks fuel index ⟨reader, false, []⟩ = (asked asks index (reported events), outcome) := by
  induction hn : events.length using Nat.strongRecOn generalizing reader events fuel index with
  | ind n ih =>
  subst hn
  obtain ⟨fuel, rfl⟩ := Nat.exists_eq_succ_of_ne_zero (Nat.ne_zero_of_lt hfuel)
  rcases events_cases events with ⟨rows, rfl⟩ | ⟨rows, rest, rfl⟩
  · rw [reported_rows]
    cases rows with
    | nil =>
      cases outcome with
      | none =>
        obtain ⟨reader', hopen⟩ := openGroup_ended h
        exact visitLoop_none hopen
      | some e => exact visitLoop_error (openGroup_failed h)
    | cons row rows =>
      obtain ⟨reader', hopen, hahead⟩ := openGroup_row h
      have hadvance : advance false [] reader = .ok ((some ⟨false, ⟨[]⟩⟩, true), reader') := hopen
      have hahead' : Ahead reader' ((row :: rows).map .row ++ []) outcome := by
        rw [List.append_nil]
        exact hahead
      obtain ⟨fuel, rfl⟩ := Nat.exists_eq_succ_of_ne_zero
        (Nat.ne_zero_of_lt (Nat.lt_of_succ_lt_succ hfuel))
      rw [if_neg (List.cons_ne_nil _ _)]
      rcases rows_spec .ended ⟨false, ⟨[]⟩⟩ rfl (asks index) hahead' with
        ⟨reader₂, hrows, hrest⟩ | ⟨_, e, hout, _, hrows⟩
      · have hlast := visitLoop_last asks fuel (index + 1) (drain_spec .ended hrest)
        rw [visitLoop_group hadvance hrows, hlast]
        rfl
      · rw [visitLoop_group_error hadvance hrows, hout]
        rfl
  · rw [reported_switch]
    rw [List.length_append, List.length_map, List.length_cons] at hfuel
    have hless : rest.length < (rows.map Event.row ++ .keySwitch :: rest).length := by
      rw [List.length_append, List.length_cons]
      omega
    cases rows with
    | nil =>
      obtain ⟨reader', hopen, hahead⟩ := openGroup_keySwitch h
      have hadvance : advance false [] reader = .ok ((some ⟨true, ⟨[]⟩⟩, false), reader') := hopen
      rw [visitLoop_group hadvance (rows_done rfl _ reader'), ih _ hless hahead (by omega) rfl]
      rw [asked, List.take_nil]
    | cons row rows =>
      obtain ⟨reader', hopen, hahead⟩ := openGroup_row h
      have hadvance : advance false [] reader = .ok ((some ⟨false, ⟨[]⟩⟩, true), reader') := hopen
      have hahead' : Ahead reader' ((row :: rows).map .row ++ .keySwitch :: rest) outcome := hahead
      rcases rows_spec (.switch rest) ⟨false, ⟨[]⟩⟩ rfl (asks index) hahead' with
        ⟨reader₂, hrows, hrest⟩ | ⟨hnil, _⟩
      · have hdrained := drain_spec (.switch rest) hrest
        generalize hx : drain reader₂ = x at hdrained
        cases hdrained with
        | @switch _ reader₃ hahead₃ =>
        obtain ⟨fuel, rfl⟩ := Nat.exists_eq_succ_of_ne_zero
          (Nat.ne_zero_of_lt (Nat.lt_of_succ_lt_succ hfuel))
        rw [visitLoop_group hadvance hrows, visitLoop_drained hx,
          ih _ hless hahead₃ (by rw [List.length_cons] at hfuel; omega) rfl]
        rfl
      · cases hnil

end Visit

omit [FloatText] in
/-- The groups hold every row, each once and in order. -/
theorem reported_flatten (events : List Event) :
    (reported events).flatten = events.filterMap Event.row? := by
  induction hn : events.length using Nat.strongRecOn generalizing events with
  | ind n ih =>
  subst hn
  rcases events_cases events with ⟨rows, rfl⟩ | ⟨rows, rest, rfl⟩
  · rw [reported_rows, filterMap_row]
    cases rows with
    | nil => rfl
    | cons row rows =>
      rw [if_neg (List.cons_ne_nil _ _), List.flatten_singleton]
  · have hless : rest.length < (rows.map Event.row ++ .keySwitch :: rest).length := by
      rw [List.length_append, List.length_cons]
      omega
    rw [reported_switch, List.flatten_cons, ih _ hless rest rfl, List.filterMap_append,
      filterMap_row]
    rfl

/-- From any reader in good order, whatever was asked of it before. -/
theorem visit_groups {reader : JobReader} (h : reader.Sound) (asks : Nat → Nat) :
    reader.groups.visit asks =
      (asked asks 0 (reported reader.events.1), reader.events.2) := by
  have hahead := ahead h
  have hlength := hahead.length_le
  unfold JobReader.remaining at hlength
  exact visitLoop_spec hahead (by
    show _ < reader.window.length + reader.input.rest.length + 3
    omega)

/-- **Reduce groups partition the rows.** However a group is abandoned, iterating over the
groups hands out the rows of the segments between the key switches, as `next_event` gives
them: of each group as many as were asked for, the first ones, and of all groups together
every row once. -/
theorem groups_partition (input : Source) (format : YsonFormat) (bytes limit : Nat)
    (asks : Nat → Nat) :
    let reader := ((JobReader.withFormat input format).withBufferSize bytes).withMaxRecordBytes limit
    reader.groups.visit asks =
        (asked asks 0 (reported reader.events.1), reader.events.2) ∧
      (reported reader.events.1).flatten = reader.events.1.filterMap Event.row? ∧
      reader.events.2 ≠ some .outOfFuel := by
  intro reader
  have hsound : reader.Sound := JobReader.Sound.of_none rfl
  exact ⟨visit_groups hsound asks, reported_flatten _, (ahead hsound).ne_outOfFuel⟩

end Ytsaurus.Job
