import Ytsaurus.Proof.Permits

/-!
# `Proof/Cancellation.lean` — cancellations and the permits they carry

A call that is given up after its request was queued sends a cancellation under the same id. The
server knows the id only once it has seen the request, and the comments promise that no
cancellation goes out for an id it has never seen. Whether that holds is a question about two
queues and one writer: the `select!` of the writer is biased and looks at the cancellations first,
so a cancellation overtakes whatever request is still queued, its own included.

`Trailing` is what holds in the runs where this does not happen. It says of the wire that every
cancellation is behind its request, and of the cancellations still to be written that their
request is `Ahead`: on the wire already, or the very next thing the writer writes. `Ahead` is
stable because a writer that has just found no cancellation takes the request in front before
it looks at the cancellations again. A run keeps the invariant as long as no call is given up
while its request is not ahead (`GivenUpLate`), a condition on the state before the step.

The condition cannot be weakened: from any reachable state in which a call is given up earlier,
there is a way on to a wire in the wrong order (`overtakes_of_given_up_early`). The writer only
has to finish what it is sending, and to take the cancellations one by one. Nothing is said of
requests that are never written; a cancellation whose request is lost when the writer leaves its
loop is lost as well.
-/

set_option autoImplicit false

open Transition

namespace Ytsaurus.Rpc

variable {Guid : Type}

/-! ## The order on the wire -/

/-- No cancellation is written before the request it names. -/
def Ordered (wire : List (Outgoing Guid)) : Prop :=
  ∀ (before : List (Outgoing Guid)) (k : Cancellation Guid) (after : List (Outgoing Guid)),
    wire = before ++ .cancellation k :: after → .request k.requestId ∈ before

theorem ordered_nil : Ordered ([] : List (Outgoing Guid)) := by
  intro before k after h
  exact absurd h (by simp)

theorem ordered_append {wire : List (Outgoing Guid)} {o : Outgoing Guid} (h : Ordered wire)
    (ho : ∀ k, o = .cancellation k → .request k.requestId ∈ wire) : Ordered (wire ++ [o]) := by
  intro before k after heq
  rcases List.eq_nil_or_concat after with rfl | ⟨rest, last, rfl⟩
  · obtain ⟨rfl, hlast⟩ := List.append_inj' heq rfl
    cases hlast
    exact ho k rfl
  · rw [List.concat_eq_append, ← List.cons_append, ← List.append_assoc] at heq
    exact h before k rest (List.append_inj' heq rfl).1

/-- Whatever the writer writes next that is not yet chosen comes after the request `id`: the
request is being written, or is what a writer that has just found no cancellation takes; or
the writer has left its loop and writes nothing more. -/
def Writer.Next (id : Guid) (outbound : List Guid) : Writer Guid → Prop
  | .selecting => False
  | .noCancellation => outbound.head? = some id
  | .sending o => o = .request id
  | .closing _ | .cancelsDropped | .finished => True

/-- A request put behind the others leaves the next one where it is. -/
theorem Writer.Next.append {id : Guid} {outbound : List Guid} {w : Writer Guid}
    (h : w.Next id outbound) (more : List Guid) : w.Next id (outbound ++ more) := by
  cases w with
  | noCancellation =>
    cases outbound with
    | nil => exact nomatch h
    | cons _ _ => exact h
  | _ => exact h

instance (id : Guid) (outbound : List Guid) [DecidableEq Guid] (w : Writer Guid) :
    Decidable (w.Next id outbound) :=
  match w with
  | .selecting => isFalse fun h => h
  | .noCancellation => inferInstanceAs (Decidable (outbound.head? = some id))
  | .sending o => inferInstanceAs (Decidable (o = .request id))
  | .closing _ => isTrue trivial
  | .cancelsDropped => isTrue trivial
  | .finished => isTrue trivial

namespace Connection

/-- A cancellation queued from now on leaves after the request `id`. -/
def Ahead (s : Connection Guid) (id : Guid) : Prop :=
  .request id ∈ s.wire ∨ s.writer.Next id s.outbound

/-- A call whose request was queued is given up only when the request is ahead. -/
def GivenUpLate (s : Connection Guid) : Action Guid → Prop
  | .abandon c _ => ∀ call ∈ s.calls[c]?, call.sent → s.Ahead call.requestId
  | _ => True

instance [DecidableEq Guid] (s : Connection Guid) (id : Guid) : Decidable (s.Ahead id) :=
  inferInstanceAs (Decidable (_ ∨ _))

instance [DecidableEq Guid] (s : Connection Guid) (a : Action Guid) :
    Decidable (s.GivenUpLate a) :=
  match a with
  | .abandon c _ =>
    inferInstanceAs (Decidable (∀ call ∈ s.calls[c]?, call.sent → s.Ahead call.requestId))
  | .start _ | .acquire _ | .acquireRefused _ | .register _ | .enqueue _ | .enqueueRefused _ _
  | .receive _ | .remove _ | .takeCancellation | .noCancellation | .takeRequest | .park
  | .sendersGone | .written | .writeFailed | .writerCloses | .packet _ | .readFailed
  | .readerCloses | .dropConnection | .abortReader => isTrue trivial

/-- Every cancellation on its way out is behind its request. -/
structure Trailing (s : Connection Guid) : Prop where
  ordered : Ordered s.wire
  queued : ∀ k ∈ s.cancels, s.Ahead k.requestId
  inHand : ∀ k, s.writer = .sending (.cancellation k) → .request k.requestId ∈ s.wire

theorem trailing_fromBus : (fromBus : Connection Guid).Trailing where
  ordered := ordered_nil
  queued := by
    intro k hk
    exact nomatch hk
  inHand := by
    intro k hk
    exact nomatch hk

/-- The invariant reads the two queues, the writer and the wire only. -/
theorem Trailing.congr {s s' : Connection Guid} (h : s.Trailing) (hwire : s'.wire = s.wire)
    (hwriter : s'.writer = s.writer) (houtbound : s'.outbound = s.outbound)
    (hcancels : s'.cancels = s.cancels) : s'.Trailing where
  ordered := hwire ▸ h.ordered
  queued := by
    intro k hk
    unfold Ahead
    rw [hwire, hwriter, houtbound]
    rw [hcancels] at hk
    exact h.queued k hk
  inHand := by
    rw [hwire, hwriter]
    exact h.inHand

/-- Once the writer is out of its loop nothing more is written. -/
theorem Trailing.of_closing {s s' : Connection Guid} (h : s.Trailing) (hwire : s'.wire = s.wire)
    (hwriter : (∃ at_, s'.writer = .closing at_) ∨ s'.writer = .cancelsDropped ∨
      s'.writer = .finished) : s'.Trailing where
  ordered := hwire ▸ h.ordered
  queued := by
    intro k hk
    right
    rcases hwriter with ⟨at_, hw⟩ | hw | hw <;> rw [hw] <;> trivial
  inHand := by
    intro k hk
    rcases hwriter with ⟨at_, hw⟩ | hw | hw <;> rw [hw] at hk <;> exact nomatch hk

variable [DecidableEq Guid]

theorem Trailing.trySend {s : Connection Guid} {k : Cancellation Guid} (h : s.Trailing)
    (hk : s.Ahead k.requestId) : (s.trySend k).Trailing := by
  unfold Connection.trySend
  dsimp only
  split
  · exact h.congr rfl rfl rfl rfl
  · split
    · refine ⟨h.ordered, ?_, h.inHand⟩
      intro k' hk'
      rcases List.mem_append.mp hk' with hold | hnew
      · exact h.queued k' hold
      · obtain rfl := List.mem_singleton.mp hnew
        exact hk
    · exact h.congr rfl rfl rfl rfl

theorem Trailing.guardRemoval {s : Connection Guid} (h : s.Trailing) (id : Guid) (r : Removal) :
    (s.guardRemoval id r).Trailing := by
  cases r with
  | spawned => exact h.congr rfl rfl rfl rfl
  | immediate => exact h.congr rfl rfl rfl rfl
  | skipped => exact h

theorem ahead_guardRemoval {s : Connection Guid} {id : Guid} (id' : Guid) (r : Removal)
    (h : s.Ahead id) : (s.guardRemoval id' r).Ahead id := by
  cases r <;> exact h

theorem Trailing.dropGuard {s : Connection Guid} {c : Nat} {call : Call Guid} {phase : Phase}
    {r : Removal} (h : s.Trailing) (hsent : call.sent → s.Ahead call.requestId) :
    (s.dropGuard c call phase r).Trailing := by
  unfold Connection.dropGuard
  have hended : ∀ call', (s.update c call').Trailing := fun call' => h.congr rfl rfl rfl rfl
  by_cases hs : call.sent
  · rw [if_pos hs]
    dsimp only
    split
    · apply Trailing.trySend
      · exact (hended _).guardRemoval call.requestId r
      · exact ahead_guardRemoval call.requestId r (hsent hs)
    · exact ((hended _).guardRemoval call.requestId r).congr rfl rfl rfl rfl
  · rw [if_neg hs]
    apply Trailing.guardRemoval
    exact h.congr rfl rfl rfl rfl

omit [DecidableEq Guid] in
theorem Trailing.close {s : Connection Guid} (h : s.Trailing) (at_ : Closing) :
    (s.close at_).Trailing := by
  cases at_ <;> exact h.congr rfl rfl rfl rfl

omit [DecidableEq Guid] in
/-- What is ahead is on the wire, when nothing is next. -/
theorem Trailing.written {s : Connection Guid} (h : s.Trailing)
    (hnext : ∀ id, ¬ s.writer.Next id s.outbound) :
    ∀ k ∈ s.cancels, .request k.requestId ∈ s.wire := by
  intro k hk
  exact (h.queued k hk).resolve_right (hnext k.requestId)

/-- The step lemma. -/
theorem Trailing.step {s s' : Connection Guid} {a : Action Guid} (h : s.Trailing)
    (hlate : s.GivenUpLate a) (hmove : s.Moves a s') : s'.Trailing := by
  cases hmove with
  | start | acquire | finish | register | remove | routed | unroutable | readerEnds | dropped =>
    exact h.congr rfl rfl rfl rfl
  | readerCloses => exact (h.close _).congr rfl rfl rfl rfl
  | enqueue hcall hphase hwriter =>
    refine ⟨h.ordered, ?_, h.inHand⟩
    intro k hk
    exact (h.queued k hk).imp_right fun hnext => hnext.append _
  | enqueueRefused hcall hphase hwriter =>
    apply h.dropGuard
    intro _
    right
    rw [hwriter]
    trivial
  | abandon hcall hphase =>
    exact h.dropGuard (hlate _ hcall)
  | takeCancellation hwriter hcancels =>
    have hwire := h.written fun id hnext => by
      rw [hwriter] at hnext
      exact hnext
    rw [hcancels] at hwire
    refine ⟨h.ordered, ?_, ?_⟩
    · intro k hk
      exact .inl (hwire k (List.mem_cons_of_mem _ hk))
    · intro k hk
      cases hk
      exact hwire _ List.mem_cons_self
  | noCancellation hwriter hcancels =>
    refine ⟨h.ordered, ?_, ?_⟩
    · intro k hk
      rw [hcancels] at hk
      exact nomatch hk
    · intro k hk
      exact nomatch hk
  | takeRequest hwriter houtbound =>
    refine ⟨h.ordered, ?_, ?_⟩
    · intro k hk
      have := h.queued k hk
      unfold Ahead at this
      rw [hwriter, houtbound] at this
      refine this.imp_right ?_
      intro hnext
      cases hnext
      rfl
    · intro k hk
      exact nomatch hk
  | idle hwriter houtbound hw =>
    have hwire := h.written fun id hnext => by
      rw [hwriter, houtbound] at hnext
      exact nomatch hnext
    refine ⟨h.ordered, ?_, ?_⟩
    · intro k hk
      exact .inl (hwire k hk)
    · intro k hk
      rcases hw with rfl | rfl <;> exact nomatch hk
  | requestWritten hwriter =>
    refine ⟨ordered_append h.ordered (by simp), ?_, ?_⟩
    · intro k hk
      left
      rcases h.queued k hk with hwire | hnext
      · exact List.mem_append_left _ hwire
      · rw [hwriter] at hnext
        cases hnext
        exact List.mem_append_right _ (List.mem_singleton.mpr rfl)
    · intro k hk
      exact nomatch hk
  | cancellationWritten hwriter =>
    have hwire := h.written fun id hnext => by
      rw [hwriter] at hnext
      exact nomatch hnext
    refine ⟨ordered_append h.ordered ?_, ?_, ?_⟩
    · intro k hk
      cases hk
      exact h.inHand _ hwriter
    · intro k hk
      exact .inl (List.mem_append_left _ (hwire k hk))
    · intro k hk
      exact nomatch hk
  | requestFailed | cancellationFailed => exact h.of_closing rfl (.inl ⟨_, rfl⟩)
  | writerCloses hwriter => exact (h.close _).of_closing rfl (.inl ⟨_, rfl⟩)
  | cancelsDropped => exact h.of_closing rfl (.inr (.inl rfl))
  | outboundDropped => exact h.of_closing rfl (.inr (.inr rfl))

/-- **A cancellation follows its request** in every run that gives no call up while the
writer could still take the cancellation first. -/
theorem cancellation_follows_request {s : Connection Guid}
    (h : Runs step GivenUpLate fromBus s) : Ordered s.wire := by
  have htrailing : s.Trailing := h.invariant trailing_fromBus fun ht hlate hstep =>
    ht.step hlate (step_moves hstep)
  exact htrailing.ordered

/-- A call given up while its request is being written. -/
theorem cancellation_follows_written_request :
    ∃ s : Connection Nat, s.wire = [.request 7, .cancellation ⟨0, 7⟩] ∧ Ordered s.wire := by
  have hplay : (play step GivenUpLate (fromBus : Connection Nat)
      [.start 7, .acquire 0, .register 0, .enqueue 0, .noCancellation, .takeRequest,
        .abandon 0 .spawned, .written, .takeCancellation, .written]).map (·.wire)
      = some [.request 7, .cancellation ⟨0, 7⟩] := by
    decide +kernel
  obtain ⟨s, hs, hwire⟩ := Option.map_eq_some_iff.mp hplay
  exact ⟨s, hwire, cancellation_follows_request (runs_of_play hs)⟩

/-- A call given up while its request is still queued: the cancellation is written first. -/
theorem cancellation_overtakes_request :
    ¬ ∀ s : Connection Nat, Runs step anySchedule fromBus s → Ordered s.wire := by
  intro h
  have hplay : (play step anySchedule (fromBus : Connection Nat)
      [.start 7, .acquire 0, .register 0, .enqueue 0, .abandon 0 .spawned,
        .takeCancellation, .written]).map (·.wire) = some [.cancellation ⟨0, 7⟩] := by
    decide +kernel
  obtain ⟨s, hs, hwire⟩ := Option.map_eq_some_iff.mp hplay
  have hbefore := h s (runs_of_play hs) [] ⟨0, 7⟩ [] hwire
  exact nomatch hbefore

/-! ## The condition is exact -/

/-- A selecting writer gets to every queued cancellation without taking a request. -/
theorem overtakes_of_selecting {s : Connection Guid} {k : Cancellation Guid}
    {cancels : List (Cancellation Guid)} (hcancels : s.cancels = cancels)
    (hwriter : s.writer = .selecting) (hk : k ∈ cancels) (hid : .request k.requestId ∉ s.wire) :
    ∃ t, Runs step anySchedule s t ∧ ¬ Ordered t.wire := by
  induction cancels generalizing s with
  | nil => exact absurd hk List.not_mem_nil
  | cons first rest ih =>
    let u : Connection Guid := { s with writer := .sending (.cancellation first), cancels := rest }
    let t : Connection Guid := { u with
      writer := .selecting, permits := u.permits + 1, wire := u.wire ++ [.cancellation first] }
    have htake : step s .takeCancellation = some u := by
      unfold step
      dsimp only
      rw [hwriter, hcancels]
    have hwrite : step u .written = some t := rfl
    have hruns : Runs step anySchedule s t := .step (.step .refl trivial htake) trivial hwrite
    rcases List.mem_cons.mp hk with rfl | hrest
    · refine ⟨t, hruns, ?_⟩
      intro hordered
      exact hid (hordered s.wire k [] rfl)
    · have hid' : .request k.requestId ∉ t.wire := by
        intro hmem
        rcases List.mem_append.mp hmem with hold | hnew
        · exact hid hold
        · exact absurd (List.mem_singleton.mp hnew) (by simp)
      obtain ⟨v, hv, hbad⟩ := ih rfl rfl hrest hid'
      exact ⟨v, hruns.trans hv, hbad⟩

/-- A writer that is sending something else than the request comes back to select. -/
theorem overtakes_of_sending {s : Connection Guid} {k : Cancellation Guid} {o : Outgoing Guid}
    (hwriter : s.writer = .sending o) (ho : o ≠ .request k.requestId) (hk : k ∈ s.cancels)
    (hid : .request k.requestId ∉ s.wire) :
    ∃ t, Runs step anySchedule s t ∧ ¬ Ordered t.wire := by
  have hid' : .request k.requestId ∉ s.wire ++ [o] := by
    intro hmem
    rcases List.mem_append.mp hmem with hold | hnew
    · exact hid hold
    · exact ho (List.mem_singleton.mp hnew).symm
  cases o with
  | request id =>
    let t : Connection Guid := { s with writer := .selecting, wire := s.wire ++ [.request id] }
    have hwrite : step s .written = some t := by
      unfold step
      dsimp only
      rw [hwriter]
    obtain ⟨v, hv, hbad⟩ := overtakes_of_selecting (s := t) rfl rfl hk hid'
    exact ⟨v, .trans (.step .refl trivial hwrite) hv, hbad⟩
  | cancellation k' =>
    let t : Connection Guid := { s with
      writer := .selecting, permits := s.permits + 1, wire := s.wire ++ [.cancellation k'] }
    have hwrite : step s .written = some t := by
      unfold step
      dsimp only
      rw [hwriter]
    obtain ⟨v, hv, hbad⟩ := overtakes_of_selecting (s := t) rfl rfl hk hid'
    exact ⟨v, .trans (.step .refl trivial hwrite) hv, hbad⟩

/-- A queued cancellation whose request is not ahead can be written before it. -/
theorem overtakes_of_not_ahead {s : Connection Guid} {k : Cancellation Guid} (hk : k ∈ s.cancels)
    (hahead : ¬ s.Ahead k.requestId) : ∃ t, Runs step anySchedule s t ∧ ¬ Ordered t.wire := by
  obtain ⟨hid, hnext⟩ := not_or.mp hahead
  cases hwriter : s.writer <;> rw [hwriter] at hnext
  case selecting => exact overtakes_of_selecting rfl hwriter hk hid
  case sending o => exact overtakes_of_sending hwriter hnext hk hid
  case noCancellation =>
    cases houtbound : s.outbound with
    | nil =>
      let t : Connection Guid := { s with writer := .selecting, outbound := [] }
      have hpark : step s .park = some t := by
        unfold step
        dsimp only
        rw [hwriter, houtbound]
      obtain ⟨v, hv, hbad⟩ := overtakes_of_selecting (s := t) rfl rfl hk hid
      exact ⟨v, .trans (.step .refl trivial hpark) hv, hbad⟩
    | cons id rest =>
      let t : Connection Guid := { s with writer := .sending (.request id), outbound := rest }
      have htake : step s .takeRequest = some t := by
        unfold step
        dsimp only
        rw [hwriter, houtbound]
      have hother : Outgoing.request id ≠ .request k.requestId := by
        intro heq
        cases heq
        rw [houtbound] at hnext
        exact hnext rfl
      obtain ⟨v, hv, hbad⟩ := overtakes_of_sending (s := t) rfl hother hk hid
      exact ⟨v, .trans (.step .refl trivial htake) hv, hbad⟩
  all_goals exact absurd trivial hnext

/-- A call given up while it waits leaves a cancellation behind what was already queued. -/
theorem dropGuard_queued {s : Connection Guid} {c : Nat} {call : Call Guid} (r : Removal)
    (h : s.Accounted) (hcall : s.calls[c]? = some call) (hphase : call.phase = .waiting)
    (hwriter : ¬ (s.writer = .cancelsDropped ∨ s.writer = .finished)) :
    let s' := s.dropGuard c call .abandoned r
    ⟨c, call.requestId⟩ ∈ s'.cancels ∧ s'.wire = s.wire ∧ s'.writer = s.writer ∧
      s'.outbound = s.outbound := by
  have hacc := h.calls c call hcall
  unfold Call.Accounted at hacc
  rw [hphase] at hacc
  obtain ⟨hpermit, hsent, -⟩ := hacc
  have hroom := h.room_for hcall hpermit
  dsimp only
  unfold dropGuard
  rw [if_pos hsent]
  dsimp only
  rw [if_pos hpermit]
  cases r
  all_goals
    unfold trySend
    refine (if_neg hwriter).symm ▸ (if_pos hroom).symm ▸ ?_
    exact ⟨List.mem_append_right _ (List.mem_singleton.mpr rfl), rfl, rfl, rfl⟩

/-- **Giving a call up earlier breaks the order in some continuation.** -/
theorem overtakes_of_given_up_early {s s' : Connection Guid} {a : Action Guid}
    (h : Runs step anySchedule fromBus s) (hstep : step s a = some s')
    (hearly : ¬ s.GivenUpLate a) : ∃ t, Runs step anySchedule s' t ∧ ¬ Ordered t.wire := by
  have hacc := accounted h
  cases a with
  | abandon c r =>
    unfold GivenUpLate at hearly
    push Not at hearly
    obtain ⟨call, hcall, hsent, hahead⟩ := hearly
    obtain ⟨call', hcall', hstep⟩ := Option.bind_eq_some_iff.mp hstep
    cases hcall.symm.trans hcall'
    have hcallacc := hacc.calls c call hcall
    unfold Call.Accounted at hcallacc
    cases hphase : call.phase <;> rw [hphase] at hstep hcallacc
    case waiting =>
      cases hstep
      have hwriter : ¬ (s.writer = .cancelsDropped ∨ s.writer = .finished) := by
        intro hgone
        apply hahead
        right
        rcases hgone with hw | hw <;> rw [hw] <;> trivial
      obtain ⟨hk, hwire, hw, houtbound⟩ := dropGuard_queued r hacc hcall hphase hwriter
      apply overtakes_of_not_ahead hk
      unfold Ahead
      rw [hwire, hw, houtbound]
      exact hahead
    case acquiring => exact absurd (hsent.symm.trans hcallacc.2.1) (by decide)
    case registering => exact absurd (hsent.symm.trans hcallacc.2.1) (by decide)
    case queueing => exact absurd (hsent.symm.trans hcallacc.2.1) (by decide)
    all_goals exact nomatch hstep
  | _ => exact absurd trivial hearly

end Connection

end Ytsaurus.Rpc
