import Ytsaurus.Proof.Connection

/-!
# `Proof/Permits.lean` — what becomes of the in-flight permits

The connection bounds its calls with a semaphore of `MAX_IN_FLIGHT` permits, and it has a second
queue for cancellations of the same size. That the second queue never fills is what lets
`PendingGuard::drop`, which may not wait, use `try_send`: a cancellation that found no room would
be lost, and with it the only word to the server that nobody waits any more.

The argument is one of conservation. Every permit is free, held by one call, or carried by a
cancellation that the writer has not finished with, and a guard turns the permit of its own call
into the cancellation's. `Accounted` says this of a state, in one equation (`permits`), together
with what the equation cannot say alone: where a call stands decides whether it holds a permit
and how many cancellations it has made (`calls`), only calls that exist have made any (`made`),
and neither `try_send` nor a guard has failed so far (`room`, `taken`). The last two are what is
wanted; the first three are what makes them inductive, since a guard that drops must find both
its call's permit and a free place.

The invariant is shown of one step by the effects of `Moves` (`Accounted.step`), with a lemma
for each of the two ways in which a guard is dropped. `Traced` is a second count beside it: what
is queued, in the writer's hands or on the wire was made by somebody, so a call cancelled at
most once is named at most once on the wire.
-/

set_option autoImplicit false

open Transition

namespace Ytsaurus.Rpc

variable {Guid : Type}

/-- The permits the writer carries. -/
def Writer.carried : Writer Guid → Nat
  | .sending (.cancellation _) => 1
  | _ => 0

/-- What the writer has taken and not finished with. -/
def Writer.outgoing : Writer Guid → List (Outgoing Guid)
  | .sending o => [o]
  | _ => []

def Outgoing.cancels (o : Outgoing Guid) (c : Nat) : Bool :=
  match o with
  | .request _ => false
  | .cancellation k => k.call = c

/-- What a call that has made so many cancellations holds, by where it stands. -/
def Call.Accounted (call : Call Guid) (made : Nat) : Prop :=
  match call.phase with
  | .acquiring => call.permit = false ∧ call.sent = false ∧ made = 0
  | .registering | .queueing => call.permit = true ∧ call.sent = false ∧ made = 0
  | .waiting => call.permit = true ∧ call.sent = true ∧ made = 0
  | .answered _ | .refused => call.permit = false ∧ made = 0
  | .abandoned => call.permit = false ∧ made ≤ 1 ∧ (call.sent = false → made = 0)

theorem Call.Accounted.le_one {call : Call Guid} {made : Nat} (h : call.Accounted made) :
    made ≤ 1 := by
  unfold Call.Accounted at h
  cases hphase : call.phase <;> rw [hphase] at h <;> dsimp only at h <;> omega

theorem Call.Accounted.of_not_sent {call : Call Guid} {made : Nat} (h : call.Accounted made)
    (hsent : call.sent = false) : made = 0 := by
  unfold Call.Accounted at h
  cases hphase : call.phase <;> rw [hphase] at h
  case waiting => exact h.2.2
  case abandoned => exact h.2.2 hsent
  case acquiring => exact h.2.2
  case registering => exact h.2.2
  case queueing => exact h.2.2
  all_goals exact h.2

theorem Call.Accounted.of_apart {call call' : Call Guid} {made : Nat} (h : call.Accounted made)
    (happart : call'.apart = call.apart) : call'.Accounted made := by
  obtain ⟨-, hphase, hpermit, hsent⟩ := Call.fields_of_apart happart
  unfold Call.Accounted
  rw [hphase, hpermit, hsent]
  exact h

namespace Connection

/-- The cancellations the writer has not released. -/
def unreleased (s : Connection Guid) : Nat := s.cancels.length + s.writer.carried

theorem unreleased_eq {s : Connection Guid} {w : Writer Guid} (hwriter : s.writer = w) :
    s.unreleased = s.cancels.length + w.carried := by
  unfold unreleased
  rw [hwriter]

/-- Nothing of the permits is lost: they add up, every call holds what its phase says, and the two
things that must not happen have not. -/
structure Accounted (s : Connection Guid) : Prop where
  permits : s.permits + s.calls.countP (·.permit) + s.unreleased = MAX_IN_FLIGHT
  calls : ∀ (c : Nat) (call : Call Guid), s.calls[c]? = some call →
    call.Accounted (s.cancelled.count c)
  made : ∀ c ∈ s.cancelled, c < s.calls.length
  room : s.overflowed = false
  taken : s.panicked = false

theorem accounted_fromBus : (fromBus : Connection Guid).Accounted where
  permits := rfl
  calls := by
    intro c call hcall
    exact nomatch hcall
  made := by
    intro c hc
    exact nomatch hc
  room := rfl
  taken := rfl

theorem Accounted.congr {s s' : Connection Guid} (h : s.Accounted)
    (happart : s'.calls.map Call.apart = s.calls.map Call.apart)
    (hcancelled : s'.cancelled = s.cancelled)
    (hpermits : s'.permits + s'.unreleased = s.permits + s.unreleased)
    (hroom : s'.overflowed = s.overflowed) (htaken : s'.panicked = s.panicked) :
    s'.Accounted where
  permits := by
    have hcount := countP_permit_of_apart happart
    have := h.permits
    omega
  calls := by
    intro c call' hcall'
    obtain ⟨call, hcall, hsame⟩ := of_apart happart hcall'
    rw [hcancelled]
    exact (h.calls c call hcall).of_apart hsame
  made := by
    intro c hc
    have hlength : s'.calls.length = s.calls.length := by
      simpa using congrArg List.length happart
    rw [hlength]
    rw [hcancelled] at hc
    exact h.made c hc
  room := hroom.trans h.room
  taken := htaken.trans h.taken

theorem countP_permit_set {calls : List (Call Guid)} {c : Nat} {call : Call Guid}
    (hcall : calls[c]? = some call) (call' : Call Guid) :
    (calls.set c call').countP (·.permit) + call.permit.toNat
      = calls.countP (·.permit) + call'.permit.toNat := by
  induction calls generalizing c with
  | nil => exact nomatch hcall
  | cons first rest ih =>
    cases c with
    | zero =>
      cases hcall
      rw [List.set_cons_zero, List.countP_cons, List.countP_cons]
      cases call.permit <;> cases call'.permit <;> simp
    | succ c =>
      rw [List.getElem?_cons_succ] at hcall
      have := ih hcall
      rw [List.set_cons_succ, List.countP_cons, List.countP_cons]
      omega

/-- The permit a call holds is one no queued cancellation has. -/
theorem Accounted.room_for {s : Connection Guid} {c : Nat} {call : Call Guid} (h : s.Accounted)
    (hcall : s.calls[c]? = some call) (hpermit : call.permit = true) :
    s.cancels.length < CANCEL_QUEUE := by
  have hcount := countP_permit_set hcall { call with permit := false }
  have htotal := h.permits
  rw [hpermit] at hcount
  unfold unreleased at htotal
  unfold CANCEL_QUEUE
  simp only [Bool.toNat_true, Bool.toNat_false] at hcount
  omega

/-- One call moves on, and nothing else changes but where its permit is. -/
theorem Accounted.update {s s' : Connection Guid} {c : Nat} {call call' : Call Guid}
    (h : s.Accounted) (hcall : s.calls[c]? = some call) (hcalls : s'.calls = s.calls.set c call')
    (hcancelled : s'.cancelled = s.cancelled) (hcall' : call'.Accounted (s.cancelled.count c))
    (hpermits : s'.permits + call'.permit.toNat + s'.unreleased
      = s.permits + call.permit.toNat + s.unreleased)
    (hroom : s'.overflowed = s.overflowed) (htaken : s'.panicked = s.panicked) :
    s'.Accounted where
  permits := by
    have hcount := countP_permit_set hcall call'
    have := h.permits
    rw [hcalls]
    omega
  calls := by
    intro i other hother
    rw [hcancelled]
    rw [hcalls, getElem?_set_of_some hcall] at hother
    by_cases hi : c = i
    · rw [if_pos hi] at hother
      cases hother
      exact hi ▸ hcall'
    · rw [if_neg hi] at hother
      exact h.calls i other hother
  made := by
    rw [hcancelled, hcalls, List.length_set]
    exact h.made
  room := hroom.trans h.room
  taken := htaken.trans h.taken

theorem Accounted.start {s : Connection Guid} (h : s.Accounted) (id : Guid) :
    ({ s with calls := s.calls ++ [⟨id, .acquiring, false, false, .unregistered⟩] } :
      Connection Guid).Accounted where
  permits := by
    have := h.permits
    rw [List.countP_append]
    exact this
  calls := by
    intro c call hcall
    show call.Accounted (s.cancelled.count c)
    rw [List.getElem?_append] at hcall
    by_cases hc : c < s.calls.length
    · rw [if_pos hc] at hcall
      exact h.calls c call hcall
    · rw [if_neg hc, List.getElem?_singleton] at hcall
      have hnone : s.cancelled.count c = 0 :=
        List.count_eq_zero_of_not_mem fun hmem => hc (h.made c hmem)
      split at hcall
      · cases hcall
        exact ⟨rfl, rfl, hnone⟩
      · exact nomatch hcall
  made := by
    intro c hc
    rw [List.length_append]
    exact Nat.lt_add_right _ (h.made c hc)
  room := h.room
  taken := h.taken

/-- What a phase that has ended says of a call that made no cancellation. -/
theorem accounted_ended {call : Call Guid} {phase : Phase}
    (hphase : phase = .refused ∨ phase = .abandoned ∨ ∃ packet, phase = .answered packet) :
    Call.Accounted { call with phase := phase, permit := false } 0 := by
  rcases hphase with rfl | rfl | ⟨packet, rfl⟩
  · exact ⟨rfl, rfl⟩
  · exact ⟨rfl, Nat.zero_le 1, fun _ => rfl⟩
  · exact ⟨rfl, rfl⟩

theorem Accounted.finish {s : Connection Guid} {c : Nat} {call : Call Guid} {phase : Phase}
    (h : s.Accounted) (hcall : s.calls[c]? = some call) (hmade : s.cancelled.count c = 0)
    (hphase : phase = .refused ∨ phase = .abandoned ∨ ∃ packet, phase = .answered packet) :
    (s.finish c call phase).Accounted := by
  refine h.update hcall rfl rfl ?_ ?_ rfl rfl
  · rw [hmade]
    exact accounted_ended hphase
  · show s.permits + call.permit.toNat + 0 + s.unreleased = _
    rw [Nat.add_zero]

variable [DecidableEq Guid]

theorem Accounted.guardRemoval {s : Connection Guid} (h : s.Accounted) (id : Guid)
    (r : Removal) : (s.guardRemoval id r).Accounted := by
  refine h.congr (s.guardRemoval_apart id r) ?_ ?_ ?_ ?_ <;> cases r <;> rfl

/-- With room in the queue, `try_send` moves one permit to the cancellation, or frees it when
there is no receiver any more. -/
theorem trySend_room {s : Connection Guid} {k : Cancellation Guid}
    (hroom : s.cancels.length < CANCEL_QUEUE) :
    (s.trySend k).calls = s.calls ∧ (s.trySend k).cancelled = k.call :: s.cancelled ∧
      (s.trySend k).permits + (s.trySend k).unreleased = s.permits + s.unreleased + 1 ∧
      (s.trySend k).overflowed = s.overflowed ∧ (s.trySend k).panicked = s.panicked := by
  unfold trySend unreleased
  dsimp only
  by_cases hgone : s.writer = .cancelsDropped ∨ s.writer = .finished
  · rw [if_pos hgone]
    refine ⟨rfl, rfl, ?_, rfl, rfl⟩
    dsimp only
    omega
  · rw [if_neg hgone, if_pos hroom]
    refine ⟨rfl, rfl, ?_, rfl, rfl⟩
    show s.permits + ((s.cancels ++ [k]).length + s.writer.carried) = _
    rw [List.length_append, List.length_singleton]
    omega

/-- A request that was queued is cancelled, with its call's permit. -/
theorem Accounted.cancel {s : Connection Guid} {c : Nat} {call : Call Guid} (r : Removal)
    (h : s.Accounted) (hcall : s.calls[c]? = some call) (hphase : call.phase = .waiting) :
    (s.dropGuard c call .abandoned r).Accounted := by
  have hacc := h.calls c call hcall
  unfold Call.Accounted at hacc
  rw [hphase] at hacc
  obtain ⟨hpermit, hsent, hmade⟩ := hacc
  have hroom := h.room_for hcall hpermit
  unfold Connection.dropGuard
  rw [if_pos hsent]
  dsimp only
  rw [if_pos hpermit]
  let ended : Call Guid := { call with phase := .abandoned, permit := false }
  let removed := (s.update c ended).guardRemoval call.requestId r
  have hcancels : removed.cancels = s.cancels := by cases r <;> rfl
  have hcancelled : removed.cancelled = s.cancelled := by cases r <;> rfl
  have hkept : removed.permits + removed.unreleased = s.permits + s.unreleased := by
    cases r <;> rfl
  have hflags : removed.overflowed = s.overflowed ∧ removed.panicked = s.panicked := by
    cases r <;> exact ⟨rfl, rfl⟩
  have hapart : removed.calls.map Call.apart = (s.calls.set c ended).map Call.apart :=
    (s.update c ended).guardRemoval_apart call.requestId r
  obtain ⟨hcalls', hcancelled', hpermits', hroom', htaken'⟩ :=
    trySend_room (s := removed) (k := ⟨c, call.requestId⟩) (hcancels.symm ▸ hroom)
  rw [hcancelled] at hcancelled'
  show (removed.trySend ⟨c, call.requestId⟩).Accounted
  refine ⟨?_, ?_, ?_, ?_, ?_⟩
  · have hcount := countP_permit_set hcall ended
    have htotal := h.permits
    rw [← countP_permit_of_apart hapart, hpermit] at hcount
    rw [hcalls']
    simp only [ended, Bool.toNat_true, Bool.toNat_false] at hcount
    omega
  · intro i other hother
    rw [hcalls'] at hother
    obtain ⟨other', hother', hsame⟩ := of_apart hapart hother
    rw [getElem?_set_of_some hcall] at hother'
    rw [hcancelled']
    apply Call.Accounted.of_apart _ hsame
    by_cases hi : c = i
    · rw [if_pos hi] at hother'
      cases hother'
      subst hi
      rw [List.count_cons_self, hmade]
      exact ⟨rfl, Nat.le_refl 1, fun hnot => absurd (hsent.symm.trans hnot) (by decide)⟩
    · rw [if_neg hi] at hother'
      rw [List.count_cons_of_ne hi]
      exact h.calls i other' hother'
  · have hlength : removed.calls.length = s.calls.length := by
      simpa using congrArg List.length hapart
    intro i hi
    rw [hcalls', hlength]
    rw [hcancelled'] at hi
    rcases List.mem_cons.mp hi with rfl | hold
    · exact (List.getElem?_eq_some_iff.mp hcall).1
    · exact h.made i hold
  · exact hroom'.trans (hflags.1.trans h.room)
  · exact htaken'.trans (hflags.2.trans h.taken)

/-- A guard dropped before its request was queued only removes its entry. -/
theorem Accounted.discard {s : Connection Guid} {c : Nat} {call : Call Guid} {phase : Phase}
    (r : Removal) (h : s.Accounted) (hcall : s.calls[c]? = some call)
    (hphase : call.phase = .queueing) (hends : phase = .refused ∨ phase = .abandoned) :
    (s.dropGuard c call phase r).Accounted := by
  have hacc := h.calls c call hcall
  unfold Call.Accounted at hacc
  rw [hphase] at hacc
  obtain ⟨-, hsent, hmade⟩ := hacc
  unfold Connection.dropGuard
  rw [if_neg (by rw [hsent]; decide)]
  apply Accounted.guardRemoval
  apply h.finish hcall hmade
  exact hends.imp_right .inl

omit [DecidableEq Guid] in
theorem Accounted.close {s : Connection Guid} (h : s.Accounted) (at_ : Closing) :
    (s.close at_).Accounted := by
  cases at_ with
  | semaphoreClosed => exact h.congr s.closeWaiters_apart rfl rfl rfl rfl
  | _ => exact h.congr rfl rfl rfl rfl rfl

/-- The step lemma. -/
theorem Accounted.step {s s' : Connection Guid} {a : Action Guid} (h : s.Accounted)
    (hmove : s.Moves a s') : s'.Accounted := by
  cases hmove with
  | start id => exact h.start id
  | @acquire c call hcall hphase hleft =>
    have hacc := h.calls c call hcall
    unfold Call.Accounted at hacc
    rw [hphase] at hacc
    obtain ⟨hpermit, hsent, hmade⟩ := hacc
    refine h.update hcall rfl rfl ⟨rfl, hsent, hmade⟩ ?_ rfl rfl
    show s.permits - 1 + 1 + s.unreleased = s.permits + call.permit.toNat + s.unreleased
    rw [hpermit, Nat.sub_add_cancel hleft]
    rfl
  | @finish _ c call phase hcall hends =>
    have hacc := h.calls c call hcall
    unfold Call.Accounted at hacc
    cases hends with
    | unarmed hbegun hphase =>
      have hmade : s.cancelled.count c = 0 := by
        rcases hbegun with hb | hb <;> rw [hb] at hacc <;> exact hacc.2.2
      exact h.finish hcall hmade (hphase.imp_right .inl)
    | answered hwaiting hslot =>
      rw [hwaiting] at hacc
      exact h.finish hcall hacc.2.2 (.inr (.inr ⟨_, rfl⟩))
    | woken hwaiting hslot =>
      rw [hwaiting] at hacc
      exact h.finish hcall hacc.2.2 (.inl rfl)
  | @register c call hcall hphase hopen =>
    have hacc := h.calls c call hcall
    unfold Call.Accounted at hacc
    rw [hphase] at hacc
    obtain ⟨hpermit, hsent, hmade⟩ := hacc
    have hapart := s.takeWaiter_apart call.requestId senderDropped_apart
    have hinserted : (s.insertWaiter call.requestId c).Accounted :=
      h.congr hapart rfl rfl rfl rfl
    -- inserting the entry has at most closed the channel of a call with the same id
    obtain ⟨before, hbefore, hsame⟩ := of_apart hapart.symm hcall
    have hfields := Call.fields_of_apart hsame
    refine hinserted.update hbefore rfl rfl ⟨hpermit, hsent, hmade⟩ ?_ rfl rfl
    rw [← hfields.2.2.1]
    rfl
  | @enqueue c call hcall hphase hwriter =>
    have hacc := h.calls c call hcall
    unfold Call.Accounted at hacc
    rw [hphase] at hacc
    obtain ⟨hpermit, -, hmade⟩ := hacc
    exact h.update hcall rfl rfl ⟨hpermit, rfl, hmade⟩ rfl rfl rfl
  | enqueueRefused hcall hphase hwriter => exact h.discard _ hcall hphase (.inl rfl)
  | abandon hcall hphase =>
    rcases hphase with hqueueing | hwaiting
    · exact h.discard _ hcall hqueueing (.inr rfl)
    · exact h.cancel _ hcall hwaiting
  | remove => exact h.congr (s.takeWaiter_apart _ senderDropped_apart) rfl rfl rfl rfl
  | takeCancellation hwriter hcancels =>
    refine h.congr rfl rfl ?_ rfl rfl
    rw [unreleased_eq hwriter, hcancels]
    rfl
  | noCancellation hwriter | takeRequest hwriter | requestWritten hwriter
  | requestFailed hwriter | outboundDropped hwriter =>
    refine h.congr rfl rfl ?_ rfl rfl
    rw [unreleased_eq hwriter]
    rfl
  | idle hwriter houtbound hw =>
    refine h.congr rfl rfl ?_ rfl rfl
    rw [unreleased_eq hwriter]
    rcases hw with rfl | rfl <;> rfl
  | cancellationWritten hwriter | cancellationFailed hwriter =>
    refine h.congr rfl rfl ?_ rfl rfl
    rw [unreleased_eq hwriter]
    show s.permits + 1 + s.cancels.length = s.permits + (s.cancels.length + 1)
    omega
  | writerCloses hwriter =>
    refine (h.close _).congr rfl rfl ?_ rfl rfl
    rw [unreleased_eq ((s.close_writer _).trans hwriter)]
    rfl
  | cancelsDropped hwriter =>
    refine h.congr rfl rfl ?_ rfl rfl
    rw [unreleased_eq hwriter]
    rfl
  | routed =>
    exact h.congr (Connection.deliver_apart _ _ _) rfl rfl rfl rfl
  | readerCloses => exact (h.close _).congr rfl rfl rfl rfl rfl
  | unroutable | readerEnds | dropped => exact h.congr rfl rfl rfl rfl rfl

/-! ## Each cancellation goes one way -/

/-- The cancellations of `c` that are queued, being written or written. -/
def traced (s : Connection Guid) (c : Nat) : Nat :=
  s.cancels.countP (·.call = c) + (s.writer.outgoing ++ s.wire).countP (·.cancels c)

/-- Every cancellation on its way was made. -/
def Traced (s : Connection Guid) : Prop := ∀ c, s.traced c ≤ s.cancelled.count c

omit [DecidableEq Guid] in
theorem Traced.of_le {s s' : Connection Guid} (h : s.Traced)
    (htraced : ∀ c, s'.traced c ≤ s.traced c) (hcancelled : s'.cancelled = s.cancelled) :
    s'.Traced := by
  intro c
  rw [hcancelled]
  exact Nat.le_trans (htraced c) (h c)

omit [DecidableEq Guid] in
theorem Traced.congr {s s' : Connection Guid} (h : s.Traced)
    (hcancels : s'.cancels = s.cancels) (hwriter : s'.writer = s.writer)
    (hwire : s'.wire = s.wire) (hcancelled : s'.cancelled = s.cancelled) : s'.Traced := by
  refine h.of_le ?_ hcancelled
  intro c
  unfold traced
  exact Nat.le_of_eq (by rw [hcancels, hwriter, hwire])

theorem Traced.trySend {s : Connection Guid} (h : s.Traced) (k : Cancellation Guid) :
    (s.trySend k).Traced := by
  -- a cancellation that is not queued is only made
  have hlost : ∀ c, s.traced c ≤ (k.call :: s.cancelled).count c := by
    intro c
    exact Nat.le_trans (h c) (List.count_le_count_cons)
  unfold Connection.trySend
  dsimp only
  by_cases hgone : s.writer = .cancelsDropped ∨ s.writer = .finished
  · rw [if_pos hgone]
    exact hlost
  · rw [if_neg hgone]
    by_cases hroom : s.cancels.length < CANCEL_QUEUE
    · rw [if_pos hroom]
      intro c
      have hmade := h c
      unfold traced at hmade ⊢
      show (s.cancels ++ [k]).countP _ + _ ≤ (k.call :: s.cancelled).count c
      rw [List.countP_append, List.countP_singleton, List.count_cons]
      by_cases hc : k.call = c
      · simp only [hc, decide_true, if_true, beq_self_eq_true]
        omega
      · simp only [hc, decide_false, beq_eq_false_iff_ne.mpr hc]
        exact hmade
    · rw [if_neg hroom]
      exact hlost

theorem Traced.dropGuard {s : Connection Guid} (h : s.Traced) (c : Nat) (call : Call Guid)
    (phase : Phase) (r : Removal) : (s.dropGuard c call phase r).Traced := by
  unfold Connection.dropGuard
  dsimp only
  by_cases hsent : call.sent
  · rw [if_pos hsent]
    by_cases hpermit : call.permit
    · rw [if_pos hpermit]
      apply Traced.trySend
      cases r <;> exact h.congr rfl rfl rfl rfl
    · rw [if_neg hpermit]
      cases r <;> exact h.congr rfl rfl rfl rfl
  · rw [if_neg hsent]
    cases r <;> exact h.congr rfl rfl rfl rfl

omit [DecidableEq Guid] in
theorem Traced.close {s : Connection Guid} (h : s.Traced) (at_ : Closing) :
    (s.close at_).Traced := by
  cases at_ <;> exact h.congr rfl rfl rfl rfl

theorem Traced.step {s s' : Connection Guid} {a : Action Guid} (h : s.Traced)
    (hmove : s.Moves a s') : s'.Traced := by
  cases hmove with
  | start | acquire | finish | register | enqueue | remove | routed | unroutable | readerEnds
  | dropped => exact h.congr rfl rfl rfl rfl
  | enqueueRefused | abandon => exact h.dropGuard _ _ _ _
  | @takeCancellation k cancels hwriter hcancels =>
    refine h.of_le ?_ rfl
    intro c
    unfold traced
    rw [hwriter, hcancels]
    show cancels.countP _ + (.cancellation k :: s.wire).countP _
      ≤ (k :: cancels).countP _ + s.wire.countP _
    have hsame : (Outgoing.cancellation k).cancels c = decide (k.call = c) := rfl
    rw [List.countP_cons, List.countP_cons, hsame]
    omega
  | takeRequest hwriter houtbound =>
    refine h.of_le ?_ rfl
    intro c
    unfold traced
    rw [hwriter]
    show _ + (.request _ :: s.wire).countP _ ≤ _
    rw [List.countP_cons]
    exact Nat.le_refl _
  | noCancellation hwriter =>
    refine h.of_le ?_ rfl
    intro c
    unfold traced
    rw [hwriter]
    exact Nat.le_refl _
  | idle hwriter houtbound hw =>
    refine h.of_le ?_ rfl
    intro c
    unfold traced
    rw [hwriter]
    rcases hw with rfl | rfl <;> exact Nat.le_refl _
  | requestWritten hwriter | cancellationWritten hwriter =>
    refine h.of_le ?_ rfl
    intro c
    unfold traced
    rw [hwriter]
    show s.cancels.countP _ + (s.wire ++ [_]).countP _ ≤ _ + ([_] ++ s.wire).countP _
    apply Nat.le_of_eq
    rw [List.countP_append, List.countP_append, Nat.add_comm (s.wire.countP _)]
  | requestFailed hwriter | cancellationFailed hwriter =>
    refine h.of_le ?_ rfl
    intro c
    unfold traced
    rw [hwriter]
    show s.cancels.countP _ + s.wire.countP _ ≤ _ + ([_] ++ s.wire).countP _
    rw [List.countP_append]
    omega
  | writerCloses hwriter =>
    refine (h.close _).of_le ?_ rfl
    intro c
    unfold traced
    rw [s.close_writer, hwriter]
    exact Nat.le_refl _
  | cancelsDropped hwriter =>
    refine h.of_le ?_ rfl
    intro c
    unfold traced
    rw [hwriter]
    show 0 + s.wire.countP _ ≤ _ + s.wire.countP _
    omega
  | outboundDropped hwriter =>
    refine h.of_le ?_ rfl
    intro c
    unfold traced
    rw [hwriter]
    exact Nat.le_refl _
  | readerCloses => exact (h.close _).congr rfl rfl rfl rfl

theorem accounted {s : Connection Guid} (h : Runs step anySchedule fromBus s) : s.Accounted :=
  h.invariant accounted_fromBus fun hacc _ hstep => hacc.step (step_moves hstep)

theorem traced_of_runs {s : Connection Guid} (h : Runs step anySchedule fromBus s) :
    s.Traced := by
  apply h.invariant
  · intro c
    exact Nat.le_refl 0
  · intro t u a ht _ hstep
    exact ht.step (step_moves hstep)

/-- **The cancellation queue never fills, and no call is cancelled twice.** In every reachable
state the calls holding a permit and the cancellations not released by the writer are at most
`MAX_IN_FLIGHT`; `try_send` has not failed for want of room and no guard was without a permit;
and each call has made at most one cancellation, none if it was answered and none if its
request was not queued, with nothing on its way to the wire that was not made. -/
theorem cancellations_accounted {s : Connection Guid}
    (h : Runs step anySchedule fromBus s) :
    s.calls.countP (·.permit) + s.unreleased ≤ MAX_IN_FLIGHT ∧
      s.overflowed = false ∧ s.panicked = false ∧
      (∀ c, s.traced c ≤ s.cancelled.count c ∧ s.cancelled.count c ≤ 1) ∧
      (∀ c call packet, s.calls[c]? = some call → call.phase = .answered packet →
        c ∉ s.cancelled) ∧
      (∀ c call, s.calls[c]? = some call → call.sent = false → c ∉ s.cancelled) := by
  have hacc := accounted h
  refine ⟨?_, hacc.room, hacc.taken, ?_, ?_, ?_⟩
  · have := hacc.permits
    omega
  · intro c
    refine ⟨traced_of_runs h c, ?_⟩
    cases hcall : s.calls[c]? with
    | none =>
      have hlate : c ∉ s.cancelled := by
        intro hc
        have := hacc.made c hc
        rw [List.getElem?_eq_none_iff] at hcall
        omega
      rw [List.count_eq_zero_of_not_mem hlate]
      exact Nat.zero_le 1
    | some call => exact (hacc.calls c call hcall).le_one
  · intro c call packet hcall hphase
    have := hacc.calls c call hcall
    unfold Call.Accounted at this
    rw [hphase] at this
    exact List.count_eq_zero.mp this.2
  · intro c call hcall hsent
    exact List.count_eq_zero.mp ((hacc.calls c call hcall).of_not_sent hsent)

/-- A call that timed out after its request was queued: its cancellation has the permit. -/
theorem cancellation_accounted_abandoned :
    ∃ s : Connection Nat, s.cancelled = [0] ∧ s.unreleased = 1 ∧
      s.calls.countP (·.permit) + s.unreleased ≤ MAX_IN_FLIGHT ∧ s.overflowed = false := by
  have hplay : (play step anySchedule (fromBus : Connection Nat)
      [.start 7, .acquire 0, .register 0, .enqueue 0, .abandon 0 .spawned]).map
        (fun s => (s.cancelled, s.unreleased)) = some ([0], 1) := by
    decide +kernel
  obtain ⟨s, hs, hstate⟩ := Option.map_eq_some_iff.mp hplay
  obtain ⟨hcancelled, hunreleased⟩ := Prod.mk.inj hstate
  obtain ⟨hbound, hroom, -⟩ := cancellations_accounted (runs_of_play hs)
  exact ⟨s, hcancelled, hunreleased, hbound, hroom⟩

end Connection

end Ytsaurus.Rpc
