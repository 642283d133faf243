import Ytsaurus.Job.Groups
import Ytsaurus.Proof.Job.Events

/-!
# `Proof/Job/Progress.lean` — a reader always gets on

Whatever its input does, a call of the reader ends: a refill reads a byte, finds the end or
fails, and a record that is passed over is not empty. What is left of the input (`remaining`)
bounds the events that can still come (`lined_exists`).

Nothing is assumed here: the input may fail, the stream may be malformed, the format may be either
one. So the events of a reader are not known from its stream, but there are such events, finitely
many, and how they end is an error of the code or the end of the input. For modules that speak of
any reader (groups, in particular) this is all that is needed.

`Sound` is what a reader in good order has: what is pending stands in the window and is not empty.
Every reader as it is built has it, and `ensure_pending` and `consume` keep it. The measure goes
down because consuming takes the pending record off the window, and refilling only moves bytes from
the input into it.
-/

set_option autoImplicit false

namespace Ytsaurus.Job

open Yson

namespace JobReader

/-- What is left of the input, in the window and behind it. -/
def remaining (reader : JobReader) : Nat := reader.window.length + reader.input.rest.length

/-- What is pending stands in the window, and is something. -/
structure Sound (reader : JobReader) : Prop where
  row : ∀ len, reader.pending = some (.row len) → 0 < len ∧ len ≤ reader.window.length
  keySwitch : ∀ len, reader.pending = some (.keySwitch len) →
    0 < len ∧ len ≤ reader.window.length

theorem Sound.of_none {reader : JobReader} (h : reader.pending = none) : reader.Sound := by
  constructor
  · intro len hpending
    rw [h] at hpending
    cases hpending
  · intro len hpending
    rw [h] at hpending
    cases hpending

theorem consumed_window (reader : JobReader) (len : Nat) :
    (reader.consumed len).window = reader.window.drop len := List.drop_drop.symm

theorem consumed_remaining {reader : JobReader} {len : Nat} (h : len ≤ reader.window.length) :
    (reader.consumed len).remaining + len = reader.remaining := by
  unfold remaining
  rw [consumed_window, List.length_drop]
  show reader.window.length - len + reader.input.rest.length + len = _
  omega

theorem consumed_sound (reader : JobReader) (len : Nat) : (reader.consumed len).Sound :=
  Sound.of_none rfl

end JobReader

/-! ## Refilling -/

/-- One read delivers the front of what is left, or fails. -/
theorem readLoop_spec (room : Nat) (rest : List UInt8) (script : List ReadStep) :
    (∃ message, readLoop room rest script = .error (.read message)) ∨
      ∃ n script', readLoop room rest script = .ok (rest.take n, ⟨rest.drop n, script'⟩) := by
  induction script with
  | nil => exact .inr ⟨room, [], rfl⟩
  | cons step script ih =>
    cases step with
    | interrupted => exact ih
    | chunk n hn => exact .inr ⟨min n room, script, rfl⟩
    | failed message => exact .inl ⟨message, rfl⟩

theorem readOnce_progress {reader : JobReader} (hpos : reader.pos ≤ reader.data.length) :
    (∃ e, e ≠ .outOfFuel ∧ readOnce reader = .error e) ∨
      ∃ reader', readOnce reader = .ok ((), reader') ∧ SameControl reader reader' ∧
        reader'.remaining ≤ reader.remaining ∧
        (reader'.inputDone = true ∨ reader'.input.rest.length < reader.input.rest.length) := by
  unfold readOnce
  rcases readLoop_spec (reader.capacity - reader.data.length) reader.input.rest
    reader.input.script with ⟨message, hread⟩ | ⟨n, script', hread⟩
  · rw [hread]
    refine .inl ⟨.read message, ?_, rfl⟩
    intro hfuel
    cases hfuel
  · rw [hread]
    have hsplit : (reader.input.rest.take n).length + (reader.input.rest.drop n).length =
        reader.input.rest.length := by
      rw [← List.length_append, List.take_append_drop]
    cases hbytes : reader.input.rest.take n with
    | nil =>
      refine .inr ⟨_, rfl, ⟨rfl, rfl, rfl, rfl, rfl, rfl⟩, ?_, .inl rfl⟩
      show reader.window.length + (reader.input.rest.drop n).length ≤ reader.remaining
      unfold JobReader.remaining
      omega
    | cons b bytes =>
      rw [hbytes, List.length_cons] at hsplit
      refine .inr ⟨_, rfl, ⟨rfl, rfl, rfl, rfl, rfl, rfl⟩, ?_, .inr ?_⟩
      · show ((reader.data ++ b :: bytes).drop reader.pos).length +
          (reader.input.rest.drop n).length ≤ reader.remaining
        rw [List.drop_append_of_le_length hpos, List.length_append, List.length_cons]
        show reader.window.length + _ + _ ≤ _
        unfold JobReader.remaining
        omega
      · show (reader.input.rest.drop n).length < reader.input.rest.length
        omega

theorem compact_window (reader : JobReader) :
    (compact reader).window = reader.window ∧ (compact reader).pos = 0 ∧
      (compact reader).input = reader.input ∧ SameControl reader (compact reader) := by
  unfold compact
  by_cases hpos : reader.pos > 0
  · rw [if_pos hpos]
    exact ⟨rfl, rfl, rfl, rfl, rfl, rfl, rfl, rfl, rfl⟩
  · rw [if_neg hpos]
    exact ⟨rfl, Nat.eq_zero_of_not_pos hpos, rfl, SameControl.refl reader⟩

theorem grow_progress (reader : JobReader) :
    (∃ e, e ≠ .outOfFuel ∧ grow reader = .error e) ∨
      ∃ reader', grow reader = .ok ((), reader') ∧ SameControl reader reader' ∧
        reader'.window = reader.window ∧ reader'.pos = reader.pos ∧
        reader'.input = reader.input := by
  unfold grow
  rw [StateExcept.get_bind]
  by_cases hfull : reader.data.length = reader.capacity
  · rw [if_pos hfull]
    by_cases hlimit : reader.capacity ≥ reader.maxRecordBytes
    · rw [if_pos hlimit]
      refine .inl ⟨_, ?_, rfl⟩
      intro hfuel
      cases hfuel
    · rw [if_neg hlimit]
      exact .inr ⟨_, rfl, ⟨rfl, rfl, rfl, rfl, rfl, rfl⟩, rfl, rfl, rfl⟩
  · rw [if_neg hfull]
    exact .inr ⟨reader, rfl, SameControl.refl reader, rfl, rfl, rfl⟩

/-- A refill moves bytes from the input into the window, finds the end or fails. -/
theorem fill_progress (reader : JobReader) :
    (∃ e, e ≠ .outOfFuel ∧ fill reader = .error e) ∨
      ∃ reader', fill reader = .ok ((), reader') ∧ SameControl reader reader' ∧
        reader'.remaining ≤ reader.remaining ∧
        (reader'.inputDone = true ∨ reader'.input.rest.length < reader.input.rest.length) := by
  obtain ⟨hwindow₁, hpos₁, hinput₁, hsame₁⟩ := compact_window reader
  unfold fill
  rw [StateExcept.modify_bind]
  rcases grow_progress (compact reader) with ⟨e, he, hgrow⟩ |
    ⟨reader₂, hgrow, hsame₂, hwindow₂, hpos₂, hinput₂⟩
  · exact .inl ⟨e, he, StateExcept.bind_error hgrow⟩
  · rw [StateExcept.bind_ok hgrow]
    have hzero : reader₂.pos ≤ reader₂.data.length := by
      rw [hpos₂, hpos₁]
      exact Nat.zero_le _
    rcases readOnce_progress hzero with hfail | ⟨reader₃, hread, hsame₃, hremaining, hprogress⟩
    · exact .inl hfail
    · refine .inr ⟨reader₃, hread, (hsame₁.trans hsame₂).trans hsame₃, ?_, ?_⟩
      · refine hremaining.trans (Nat.le_of_eq ?_)
        unfold JobReader.remaining
        rw [hwindow₂, hwindow₁, hinput₂, hinput₁]
      · rw [← hinput₁, ← hinput₂]
        exact hprogress

/-! ## Finding a record -/

variable [FloatText]

/-- What `next_record_len` can come to: a record in the window, the end, or an error. -/
inductive Found (reader : JobReader) : Except JobError (Option Nat × JobReader) → Prop
  | some {len : Nat} {reader' : JobReader} (hsame : SameControl reader reader') (hpos : 0 < len)
      (hle : len ≤ reader'.window.length) (hremaining : reader'.remaining ≤ reader.remaining) :
      Found reader (.ok (some len, reader'))
  | none {reader' : JobReader} (hsame : SameControl reader reader')
      (hdone : reader'.inputDone = true) (hwindow : reader'.window = []) :
      Found reader (.ok (none, reader'))
  | failed {e : JobError} (he : e ≠ .outOfFuel) : Found reader (.error e)

omit [FloatText] in
theorem Found.trans {r₁ r₂ : JobReader} (h : SameControl r₁ r₂)
    (hremaining : r₂.remaining ≤ r₁.remaining)
    {result : Except JobError (Option Nat × JobReader)} (hfound : Found r₂ result) :
    Found r₁ result := by
  cases hfound with
  | some hsame hpos hle hrest => exact .some (h.trans hsame) hpos hle (hrest.trans hremaining)
  | none hsame hdone hwindow => exact .none (h.trans hsame) hdone hwindow
  | failed he => exact .failed he

/-- The verdicts on a window. -/
theorem scanWindow_cases (reader : JobReader) :
    (∃ e, e ≠ .outOfFuel ∧ scanWindow reader = .error e) ∨
      scanWindow reader = .ok (none, reader) ∨
      ∃ len, 0 < len ∧ len ≤ reader.window.length ∧
        scanWindow reader = .ok (some len, reader) := by
  by_cases hnil : reader.window = []
  · exact .inr (.inl (scanWindow_nil hnil))
  · cases hmeasure : scanMeasure reader.format reader.window with
    | complete len =>
      obtain ⟨hle, hpos, _⟩ := scanValue_take (scanMeasure_complete.mp hmeasure)
      exact .inr (.inr ⟨len, hpos, hle, scanWindow_complete hnil hmeasure⟩)
    | malformed e =>
      refine .inl ⟨_, ?_, scanWindow_malformed hnil hmeasure⟩
      intro hfuel
      cases hfuel
    | incomplete => exact .inr (.inl (scanWindow_incomplete hnil hmeasure))

theorem nextRecordLenLoop_found {fuel : Nat} (reader : JobReader)
    (hfuel : (if reader.inputDone then 0 else reader.input.rest.length + 1) < fuel) :
    Found reader (nextRecordLenLoop fuel reader) := by
  induction fuel generalizing reader with
  | zero => exact absurd hfuel (Nat.not_lt_zero _)
  | succ fuel ih =>
  obtain ⟨reader₁, hskip, hsame, hwindow, hinput, hdone, _⟩ := skipSeparators_apply reader
  have hremaining : reader₁.remaining ≤ reader.remaining := by
    unfold JobReader.remaining
    rw [hwindow, hinput]
    exact Nat.add_le_add_right (List.dropWhile_suffix isSeparator).length_le _
  apply Found.trans hsame hremaining
  rcases scanWindow_cases reader₁ with ⟨e, he, hscan⟩ | hscan | ⟨len, hpos, hle, hscan⟩
  · rw [nextRecordLenLoop_malformed hskip hscan]
    exact .failed he
  · by_cases hend : reader₁.inputDone = true
    · rw [nextRecordLenLoop_done hskip hscan hend]
      by_cases hnil : reader₁.window = []
      · rw [if_pos hnil]
        exact .none (SameControl.refl reader₁) hend hnil
      · rw [if_neg hnil]
        refine .failed ?_
        intro hfuel
        cases hfuel
    · rw [← hinput, ← hdone, if_neg hend] at hfuel
      rcases fill_progress reader₁ with ⟨e, he, hfill⟩ | ⟨reader₂, hfill, hsame₂, hless, hprogress⟩
      · have hloop : nextRecordLenLoop (fuel + 1) reader = .error e := by
          rw [nextRecordLenLoop, StateExcept.bind_ok hskip, StateExcept.bind_ok hscan]
          show (if reader₁.inputDone = true then _ else _ : JobM (Option Nat)) reader₁ = _
          rw [if_neg hend, StateExcept.bind_error hfill]
        rw [hloop]
        exact .failed he
      · rw [nextRecordLenLoop_fill hskip hscan hend hfill]
        apply Found.trans hsame₂ hless
        apply ih
        rcases hprogress with hover | hshorter
        · rw [if_pos hover]
          omega
        · split <;> omega
  · rw [nextRecordLenLoop_some hskip hscan]
    exact .some (SameControl.refl reader₁) hpos hle (Nat.le_refl _)

theorem nextRecordLen_found (reader : JobReader) : Found reader (nextRecordLen reader) := by
  apply nextRecordLenLoop_found
  split <;> omega

/-! ## Lining up -/

/-- What `ensure_pending` can come to. -/
inductive Ready (reader : JobReader) : Except JobError (Option Pending × JobReader) → Prop
  | ended {reader' : JobReader} (hagain : ensurePending reader' = .ok (none, reader')) :
      Ready reader (.ok (none, reader'))
  | pending {p : Pending} {reader' : JobReader} (hpending : reader'.pending = some p)
      (hsound : reader'.Sound) (hremaining : reader'.remaining ≤ reader.remaining) :
      Ready reader (.ok (some p, reader'))
  | failed {e : JobError} (he : e ≠ .outOfFuel) : Ready reader (.error e)

theorem ensurePendingLoop_ready {fuel : Nat} (reader : JobReader) (hpending : reader.pending = none)
    (hfuel : reader.remaining < fuel) : Ready reader (ensurePendingLoop fuel reader) := by
  induction fuel generalizing reader with
  | zero => exact absurd hfuel (Nat.not_lt_zero _)
  | succ fuel ih =>
  have hfound := nextRecordLen_found reader
  generalize hx : nextRecordLen reader = x at hfound
  cases hfound with
  | failed he =>
    rw [ensurePendingLoop_error hx]
    exact .failed he
  | none hsame hdone hwindow =>
    rw [ensurePendingLoop_none hx]
    exact .ended (ensurePending_ended (hsame.pending.trans hpending) hdone hwindow)
  | @some len reader₁ hsame hpos hle hremaining =>
    cases hclass : classify (reader₁.window.take len) reader₁.format reader₁.offset with
    | error e =>
      rw [ensurePendingLoop_refused hx hclass]
      refine .failed ?_
      intro hout
      rw [hout] at hclass
      exact Bool.noConfusion (classify_ofStream hclass)
    | ok control =>
    by_cases hisRow : control = .row
    · subst hisRow
      rw [ensurePendingLoop_row hx hclass]
      refine .pending rfl ⟨?_, ?_⟩ hremaining
      · intro len' heq
        cases heq
        exact ⟨hpos, hle⟩
      · intro len' heq
        cases heq
    · by_cases hisSwitch : control = .keySwitch
      · subst hisSwitch
        rw [ensurePendingLoop_keySwitch hx hclass]
        refine .pending rfl ⟨?_, ?_⟩ hremaining
        · intro len' heq
          cases heq
        · intro len' heq
          cases heq
          exact ⟨hpos, hle⟩
      · rw [ensurePendingLoop_control hx hclass hisRow hisSwitch]
        -- the record passed over is not empty
        have hless : ({ applyControl reader₁ control with
            pos := reader₁.pos + len } : JobReader).remaining + len = reader₁.remaining := by
          rw [← JobReader.consumed_remaining hle]
          cases control <;> rfl
        have hnone : (applyControl reader₁ control).pending = none := by
          cases control <;> exact hsame.pending.trans hpending
        have hready := ih { applyControl reader₁ control with pos := reader₁.pos + len } hnone
          (by omega)
        generalize ensurePendingLoop fuel _ = result at hready
        cases hready with
        | ended hagain => exact .ended hagain
        | pending hp hsound hrest => exact .pending hp hsound (by omega)
        | failed he => exact .failed he

theorem ensurePending_ready {reader : JobReader} (h : reader.Sound) :
    Ready reader (ensurePending reader) := by
  cases hpending : reader.pending with
  | none =>
    rw [ensurePending_none hpending]
    exact ensurePendingLoop_ready reader hpending (Nat.lt_succ_self _)
  | some p =>
    rw [ensurePending_some hpending]
    exact .pending hpending h (Nat.le_refl _)

/-- **Events are lined up at every reader**, no more of them than bytes left, and an end to
them. -/
theorem lined_exists {reader : JobReader} (h : reader.Sound) :
    ∃ events outcome, Lined (ensurePending reader) events outcome ∧
      events.length ≤ reader.remaining ∧ outcome ≠ some .outOfFuel := by
  induction hn : reader.remaining using Nat.strongRecOn generalizing reader with
  | ind n ih =>
  have hready := ensurePending_ready h
  generalize ensurePending reader = x at hready
  cases hready with
  | ended hagain =>
    refine ⟨[], none, .done hagain, Nat.zero_le _, ?_⟩
    intro hout
    cases hout
  | @failed e he =>
    refine ⟨[], some e, .failed, Nat.zero_le _, ?_⟩
    intro hout
    exact he (Option.some.inj hout)
  | @pending p reader₁ hpending hsound hremaining =>
    cases p with
    | row len =>
      obtain ⟨hpos, hle⟩ := hsound.row len hpending
      have hless := JobReader.consumed_remaining hle
      obtain ⟨events, outcome, hlined, hlength, hout⟩ :=
        ih _ (by omega) (reader₁.consumed_sound len) rfl
      refine ⟨_, outcome, .row hpending hlined, ?_, hout⟩
      rw [List.length_cons]
      omega
    | keySwitch len =>
      obtain ⟨hpos, hle⟩ := hsound.keySwitch len hpending
      have hless := JobReader.consumed_remaining hle
      obtain ⟨events, outcome, hlined, hlength, hout⟩ :=
        ih _ (by omega) (reader₁.consumed_sound len) rfl
      refine ⟨_, outcome, .keySwitch hpending hlined, ?_, hout⟩
      rw [List.length_cons]
      omega

/-- What is lined up is determined. -/
theorem Lined.unique {x : Except JobError (Option Pending × JobReader)} {events events' : List Event}
    {outcome outcome' : Option JobError} (h : Lined x events outcome)
    (h' : Lined x events' outcome') : events = events' ∧ outcome = outcome' := by
  induction h generalizing events' outcome' with
  | done _ =>
    cases h'
    exact ⟨rfl, rfl⟩
  | failed =>
    cases h'
    exact ⟨rfl, rfl⟩
  | row _ _ ih =>
    cases h' with
    | row _ hrest' =>
      obtain ⟨rfl, rfl⟩ := ih hrest'
      exact ⟨rfl, rfl⟩
  | keySwitch _ _ ih =>
    cases h' with
    | keySwitch _ hrest' =>
      obtain ⟨rfl, rfl⟩ := ih hrest'
      exact ⟨rfl, rfl⟩

/-- A reader in good order with these events ahead of it. -/
structure Ahead (reader : JobReader) (events : List Event) (outcome : Option JobError) : Prop where
  sound : reader.Sound
  lined : Lined (ensurePending reader) events outcome

namespace Ahead

variable {reader : JobReader} {events : List Event} {outcome : Option JobError}

theorem length_le (h : Ahead reader events outcome) : events.length ≤ reader.remaining := by
  obtain ⟨events', outcome', hlined, hlength, _⟩ := lined_exists h.sound
  rw [(h.lined.unique hlined).1]
  exact hlength

theorem ne_outOfFuel (h : Ahead reader events outcome) : outcome ≠ some .outOfFuel := by
  obtain ⟨events', outcome', hlined, _, hout⟩ := lined_exists h.sound
  rw [(h.lined.unique hlined).2]
  exact hout

theorem ended (h : Ahead reader [] none) :
    ∃ reader', ensurePending reader = .ok (none, reader') ∧ Ahead reader' [] none := by
  obtain ⟨hsound, hlined⟩ := h
  generalize hx : ensurePending reader = x at hlined
  cases hlined with
  | @done reader₁ hagain =>
  refine ⟨reader₁, rfl, ?_, ?_⟩
  · cases hpending : reader₁.pending with
    | none => exact JobReader.Sound.of_none hpending
    | some p =>
      rw [ensurePending_some hpending] at hagain
      cases hagain
  · rw [hagain]
    exact .done hagain

theorem failed {e : JobError} (h : Ahead reader [] (some e)) : ensurePending reader = .error e := by
  obtain ⟨_, hlined⟩ := h
  generalize hx : ensurePending reader = x at hlined
  cases hlined with
  | failed => rfl

theorem row {row : Row} (h : Ahead reader (.row row :: events) outcome) :
    ∃ reader' len, ensurePending reader = .ok (some (.row len), reader') ∧
      row = reader'.pendingRow len ∧ reader'.pending = some (.row len) ∧
      Ahead reader' (.row row :: events) outcome ∧
      Ahead (reader'.consumed len) events outcome := by
  obtain ⟨hsound, hlined⟩ := h
  have hready := ensurePending_ready hsound
  generalize hx : ensurePending reader = x at hlined hready
  cases hlined with
  | @row reader₁ len _ _ hpending hrest =>
  cases hready with
  | pending _ hsound₁ _ =>
  refine ⟨reader₁, len, rfl, rfl, hpending, ⟨hsound₁, ?_⟩, reader₁.consumed_sound len, hrest⟩
  rw [ensurePending_some hpending]
  exact .row hpending hrest

theorem keySwitch (h : Ahead reader (.keySwitch :: events) outcome) :
    ∃ reader' len, ensurePending reader = .ok (some (.keySwitch len), reader') ∧
      reader'.pending = some (.keySwitch len) ∧
      Ahead reader' (.keySwitch :: events) outcome ∧
      Ahead (reader'.consumed len) events outcome := by
  obtain ⟨hsound, hlined⟩ := h
  have hready := ensurePending_ready hsound
  generalize hx : ensurePending reader = x at hlined hready
  cases hlined with
  | @keySwitch reader₁ len _ _ hpending hrest =>
  cases hready with
  | pending _ hsound₁ _ =>
  refine ⟨reader₁, len, rfl, hpending, ⟨hsound₁, ?_⟩, reader₁.consumed_sound len, hrest⟩
  rw [ensurePending_some hpending]
  exact .keySwitch hpending hrest

/-- Repeated calls of `next_event` give what is ahead. -/
theorem events_eq (h : Ahead reader events outcome) : reader.events = (events, outcome) :=
  h.lined.eventsLoop (Nat.lt_succ_of_le h.length_le)

end Ahead

/-- At every reader in good order there are events ahead: those it gives. -/
theorem ahead {reader : JobReader} (h : reader.Sound) :
    Ahead reader reader.events.1 reader.events.2 := by
  obtain ⟨events, outcome, hlined, _, _⟩ := lined_exists h
  have hahead : Ahead reader events outcome := ⟨h, hlined⟩
  rw [hahead.events_eq]
  exact hahead

end Ytsaurus.Job
