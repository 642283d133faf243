import Mathlib.Data.List.Nodup
import Ytsaurus.Proof.Permits
import Ytsaurus.Proof.Waiters

/-!
# `Proof/Pending.lean` — how many waiters there can be

`by_request` has one entry for every open channel, and every permit is accounted for; but the
two are not tied to each other as closely as the comments have it. A call that ends gives its
permit up at once, or along with its cancellation, while its entry stays until the removal it has
handed to the runtime has run. In between there is an entry that no permit stands behind, and
nothing limits how many of these there are (`entries_pile_up`).

Two counts put this in numbers. `stale` are the entries of calls that have ended, `spare` the
permits that no entry goes with: free, on their way out with a cancellation, or held by a call
that has not registered yet or lost its entry. From the invariants of the modules before,
`Routed` for the entries and `Accounted` for the permits, and from `Keyed`, that no id has two
entries, follows one equation: entries and spare permits add up to the limit and the entries
left behind (`entries_and_spare`).

So a call that registers under a new id keeps the map within the limit exactly when fewer
entries are left behind than permits are spare (`Roomy`), and under a known id it replaces an
entry. Both directions are in `pending_bounded`: runs whose registrations find room stay
within the limit, and a registration that does not find room, in whatever reachable state, goes
beyond it.
-/

set_option autoImplicit false

open Transition

namespace Ytsaurus.Rpc

variable {Guid : Type}

/-- The call has an entry in `by_request`. -/
def Call.isOpen (call : Call Guid) : Bool := call.slot = .open

/-- A call with an entry holds a permit, until it ends. -/
theorem Call.permit_of_open {call : Call Guid} {made : Nat} (hplaced : call.Placed)
    (haccounted : call.Accounted made) (hopen : call.isOpen) : call.permit = !call.ended := by
  have hslot : call.slot = .open := of_decide_eq_true hopen
  unfold Call.Placed at hplaced
  unfold Call.Accounted at haccounted
  unfold Call.ended
  rw [hslot] at hplaced
  cases hphase : call.phase <;> rw [hphase] at hplaced haccounted
  case acquiring => exact nomatch hplaced
  case registering => exact nomatch hplaced
  case queueing => exact haccounted.1
  case waiting => exact haccounted.1
  case answered => exact nomatch hplaced
  case refused => exact haccounted.1
  case abandoned => exact haccounted.1

namespace Connection

/-- The entries of calls that have ended: their removal has still to run. -/
def stale (s : Connection Guid) : Nat := s.calls.countP fun call => call.isOpen && call.ended

/-- The permits that no entry goes with: free, on their way out with a cancellation, or held
by a call that has no entry. -/
def spare (s : Connection Guid) : Nat :=
  s.permits + s.unreleased + s.calls.countP fun call => call.permit && !call.isOpen

/-! ## One entry for each open channel -/

/-- No id has two entries. -/
def Keyed (s : Connection Guid) : Prop := (s.byRequest.map Prod.fst).Nodup

/-- The open channels, as entries. -/
def openEntries (calls : List (Call Guid)) : List (Guid × Nat) :=
  (calls.zipIdx.filter fun e => e.1.isOpen).map fun e => (e.1.requestId, e.2)

theorem nodup_openEntries (calls : List (Call Guid)) : (openEntries calls).Nodup := by
  have hplaces : ((openEntries calls).map Prod.snd).Nodup := by
    unfold openEntries
    rw [List.map_map]
    have hsub : ((calls.zipIdx.filter fun e => e.1.isOpen).map Prod.snd).Sublist
        (calls.zipIdx.map Prod.snd) := List.Sublist.map _ List.filter_sublist
    apply hsub.nodup
    rw [List.zipIdx_map_snd]
    exact List.nodup_range'
  exact hplaces.of_map

theorem mem_openEntries {s : Connection Guid} {id : Guid} {c : Nat} :
    (id, c) ∈ openEntries s.calls ↔ s.Awaits id c := by
  unfold openEntries Awaits
  rw [List.mem_map]
  constructor
  · intro h
    obtain ⟨⟨call, i⟩, hmem, heq⟩ := h
    obtain ⟨hmem, hopen⟩ := List.mem_filter.mp hmem
    cases heq
    exact ⟨call, List.mem_zipIdx_iff_getElem?.mp hmem, rfl, of_decide_eq_true hopen⟩
  · intro h
    obtain ⟨call, hcall, hid, hslot⟩ := h
    refine ⟨(call, c), List.mem_filter.mpr ⟨List.mem_zipIdx_iff_getElem?.mpr hcall, ?_⟩, ?_⟩
    · exact decide_eq_true hslot
    · rw [hid]

theorem length_openEntries (calls : List (Call Guid)) :
    (openEntries calls).length = calls.countP Call.isOpen := by
  unfold openEntries
  rw [List.length_map, ← List.countP_eq_length_filter]
  have hmap := List.countP_map (p := Call.isOpen) (f := Prod.fst) (l := calls.zipIdx)
  rw [List.zipIdx_map_fst] at hmap
  exact hmap.symm

/-- The map has one entry for each open channel. -/
theorem length_byRequest {s : Connection Guid} (h : s.Routed) (hkeyed : s.Keyed) :
    s.byRequest.length = s.calls.countP Call.isOpen := by
  rw [← length_openEntries]
  apply List.Perm.length_eq
  rw [List.perm_ext_iff_of_nodup hkeyed.of_map (nodup_openEntries s.calls)]
  intro e
  obtain ⟨id, c⟩ := e
  rw [h.listed, mem_openEntries]

/-- **Entries and spare permits** add up to the limit and the entries left behind. -/
theorem entries_and_spare {s : Connection Guid} (h : s.Routed) (hkeyed : s.Keyed)
    (hacc : s.Accounted) : s.byRequest.length + s.spare = MAX_IN_FLIGHT + s.stale := by
  have hopen : s.calls.countP Call.isOpen =
      s.calls.countP (fun call => call.isOpen && call.ended) +
        s.calls.countP fun call => call.permit && call.isOpen := by
    rw [List.countP_eq_countP_filter_add s.calls Call.isOpen Call.ended, List.countP_filter,
      List.countP_filter]
    congr 1
    apply List.countP_congr
    intro call hcall
    obtain ⟨c, hc⟩ := List.mem_iff_getElem?.mp hcall
    by_cases hisOpen : call.isOpen
    · rw [Call.permit_of_open (h.placed c call hc) (hacc.calls c call hc) hisOpen, Bool.and_comm]
    · simp [hisOpen]
  have hpermit : s.calls.countP (·.permit) =
      s.calls.countP (fun call => call.permit && call.isOpen) +
        s.calls.countP fun call => call.permit && !call.isOpen := by
    rw [List.countP_eq_countP_filter_add s.calls (·.permit) Call.isOpen, List.countP_filter,
      List.countP_filter]
  have htotal := hacc.permits
  rw [length_byRequest h hkeyed]
  unfold spare stale
  omega

/-! ## What a step does to the entries -/

variable [DecidableEq Guid]

theorem guardRemoval_sublist (s : Connection Guid) (id : Guid) (r : Removal) :
    (s.guardRemoval id r).byRequest.Sublist s.byRequest := by
  cases r with
  | spawned => exact List.Sublist.refl _
  | immediate => exact List.filter_sublist
  | skipped => exact List.Sublist.refl _

theorem trySend_byRequest (s : Connection Guid) (k : Cancellation Guid) :
    (s.trySend k).byRequest = s.byRequest := by
  unfold trySend
  dsimp only
  split
  · rfl
  · split <;> rfl

theorem dropGuard_sublist (s : Connection Guid) (c : Nat) (call : Call Guid) (phase : Phase)
    (r : Removal) : (s.dropGuard c call phase r).byRequest.Sublist s.byRequest := by
  unfold dropGuard
  dsimp only
  by_cases hsent : call.sent
  · rw [if_pos hsent]
    by_cases hpermit : call.permit
    · rw [if_pos hpermit, trySend_byRequest]
      exact guardRemoval_sublist _ _ _
    · rw [if_neg hpermit]
      exact guardRemoval_sublist _ _ _
  · rw [if_neg hsent]
    exact guardRemoval_sublist _ _ _

omit [DecidableEq Guid] in
theorem close_sublist (s : Connection Guid) (at_ : Closing) :
    (s.close at_).byRequest.Sublist s.byRequest := by
  cases at_ with
  | semaphoreClosed => exact List.nil_sublist _
  | _ => exact List.Sublist.refl _

/-- Only a registration adds an entry. -/
theorem Moves.entries {s s' : Connection Guid} {a : Action Guid} (h : s.Moves a s') :
    s'.byRequest.Sublist s.byRequest ∨
      ∃ c call, a = .register c ∧ s.calls[c]? = some call ∧ s.waitersClosed = false ∧
        s'.byRequest = (call.requestId, c) :: s.byRequest.filter fun e => e.1 ≠ call.requestId := by
  cases h with
  | register hcall _ hopen => exact .inr ⟨_, _, rfl, hcall, hopen, rfl⟩
  | enqueueRefused | abandon => exact .inl (s.dropGuard_sublist _ _ _ _)
  | remove | routed => exact .inl List.filter_sublist
  | writerCloses | readerCloses => exact .inl (s.close_sublist _)
  | _ => exact .inl (List.Sublist.refl _)

theorem Keyed.step {s s' : Connection Guid} {a : Action Guid} (h : s.Keyed)
    (hmove : s.Moves a s') : s'.Keyed := by
  rcases hmove.entries with hsub | ⟨c, call, _, _, _, hentries⟩
  · exact (hsub.map Prod.fst).nodup h
  · unfold Keyed
    rw [hentries, List.map_cons, List.nodup_cons]
    constructor
    · intro hmem
      obtain ⟨e, he, hid⟩ := List.mem_map.mp hmem
      exact of_decide_eq_true (List.mem_filter.mp he).2 hid
    · exact (List.Sublist.map Prod.fst List.filter_sublist).nodup h

theorem keyed {s : Connection Guid} (h : Runs step anySchedule fromBus s) : s.Keyed :=
  h.invariant List.nodup_nil fun hkeyed _ hstep => hkeyed.step (step_moves hstep)

/-! ## The bound -/

/-- A call that registers under a new id finds fewer entries left behind than permits spare. -/
def Roomy (s : Connection Guid) : Action Guid → Prop
  | .register c => s.waitersClosed = true ∨
      ∀ call ∈ s.calls[c]?, (s.lookup call.requestId).isSome ∨ s.stale < s.spare
  | _ => True

/-- Inserting under a known id replaces the entry. -/
theorem length_filter_lt {s : Connection Guid} {id : Guid} (h : (s.lookup id).isSome) :
    (s.byRequest.filter fun e => e.1 ≠ id).length < s.byRequest.length := by
  unfold lookup at h
  rw [Option.isSome_map, List.find?_isSome] at h
  obtain ⟨e, he, hid⟩ := h
  rw [List.length_filter_lt_length_iff_exists]
  exact ⟨e, he, fun hne => of_decide_eq_true hne (of_decide_eq_true hid)⟩

theorem filter_of_unknown {s : Connection Guid} {id : Guid} (h : ¬ (s.lookup id).isSome) :
    (s.byRequest.filter fun e => e.1 ≠ id) = s.byRequest := by
  unfold lookup at h
  rw [Option.isSome_map, List.find?_isSome] at h
  rw [List.filter_eq_self]
  intro e he
  apply decide_eq_true
  intro hid
  exact h ⟨e, he, decide_eq_true hid⟩

/-- The step lemma. -/
theorem bounded_step {s s' : Connection Guid} {a : Action Guid}
    (hruns : Runs step anySchedule fromBus s) (hbound : s.byRequest.length ≤ MAX_IN_FLIGHT)
    (hroomy : s.Roomy a) (hstep : step s a = some s') :
    s'.byRequest.length ≤ MAX_IN_FLIGHT := by
  rcases (step_moves hstep).entries with hsub | ⟨c, call, rfl, hcall, hopen, hentries⟩
  · exact Nat.le_trans hsub.length_le hbound
  · rw [hentries, List.length_cons]
    rcases hroomy with hclosed | hroomy
    · rw [hopen] at hclosed
      cases hclosed
    · rcases hroomy call (hcall ▸ rfl) with hknown | hless
      · have hlt := length_filter_lt hknown
        omega
      · have hsum := entries_and_spare (routed hruns) (keyed hruns) (accounted hruns)
        have hle := List.length_filter_le (fun e => decide (e.1 ≠ call.requestId)) s.byRequest
        omega

/-- **The in-flight limit bounds the waiters** in every run in which registrations find room,
and only in these: a registration that does not, in any reachable state, takes the map above
the limit. -/
theorem pending_bounded :
    (∀ s : Connection Guid, Runs step Roomy fromBus s → s.byRequest.length ≤ MAX_IN_FLIGHT) ∧
      ∀ (s s' : Connection Guid) (a : Action Guid), Runs step anySchedule fromBus s →
        step s a = some s' → ¬ s.Roomy a → MAX_IN_FLIGHT < s'.byRequest.length := by
  constructor
  · intro s h
    have hboth : Runs step anySchedule fromBus s ∧ s.byRequest.length ≤ MAX_IN_FLIGHT := by
      apply h.invariant ⟨.refl, Nat.zero_le _⟩
      intro t u a ht hroomy hstep
      exact ⟨.step ht.1 trivial hstep, bounded_step ht.1 ht.2 hroomy hstep⟩
    exact hboth.2
  · intro s s' a hruns hstep hnot
    cases a with
    | register c =>
      have hsum := entries_and_spare (routed hruns) (keyed hruns) (accounted hruns)
      unfold Roomy at hnot
      push Not at hnot
      obtain ⟨hopen, call, hcall, hunknown, hge⟩ := hnot
      obtain ⟨call', hcall', hstep⟩ := Option.bind_eq_some_iff.mp hstep
      cases hcall'.symm.trans hcall
      obtain ⟨_, hstep⟩ := Option.ite_none_right_eq_some.mp hstep
      rw [if_neg hopen] at hstep
      cases hstep
      show MAX_IN_FLIGHT <
        ((call.requestId, c) :: s.byRequest.filter fun e => e.1 ≠ call.requestId).length
      rw [filter_of_unknown hunknown, List.length_cons]
      omega
    | _ => exact absurd trivial hnot

/-! ## Removals that come late -/

omit [DecidableEq Guid] in
theorem set_concat {α : Type} (l : List α) (a b : α) : (l ++ [a]).set l.length b = l ++ [b] := by
  rw [List.set_append_right _ _ (Nat.le_refl _), Nat.sub_self]
  rfl

/-- A call given up before its request was queued leaves its entry behind, and its permit is
free again. -/
theorem leaves_entry {s : Connection Guid} {id : Guid} (hleft : 0 < s.permits)
    (hsemaphore : s.semaphoreClosed = false) (hwaiters : s.waitersClosed = false)
    (hdropped : s.dropped = false) (hunknown : ¬ (s.lookup id).isSome) :
    Runs step anySchedule s { s with
      calls := s.calls ++ [⟨id, .abandoned, false, false, .open⟩]
      byRequest := (id, s.calls.length) :: s.byRequest
      removals := id :: s.removals } := by
  have hlast : ∀ call : Call Guid, (s.calls ++ [call])[s.calls.length]? = some call :=
    fun call => List.getElem?_concat_length
  have hstart : step s (.start id) = some { s with
      calls := s.calls ++ [⟨id, .acquiring, false, false, .unregistered⟩] } := if_pos hdropped
  have hacquire : step { s with calls := s.calls ++ [⟨id, .acquiring, false, false, .unregistered⟩] }
      (.acquire s.calls.length) = some { s with
        calls := s.calls ++ [⟨id, .registering, true, false, .unregistered⟩]
        permits := s.permits - 1 } := by
    unfold step update
    dsimp only
    rw [hlast]
    dsimp only [Option.bind_eq_bind, Option.bind_some]
    rw [if_pos ⟨rfl, hleft, hsemaphore⟩, set_concat]
  have hregister : step { s with
        calls := s.calls ++ [⟨id, .registering, true, false, .unregistered⟩]
        permits := s.permits - 1 } (.register s.calls.length) = some { s with
        calls := s.calls ++ [⟨id, .queueing, true, false, .open⟩]
        permits := s.permits - 1
        byRequest := (id, s.calls.length) :: s.byRequest } := by
    have hnone : s.lookup id = none := Option.not_isSome_iff_eq_none.mp hunknown
    have hfilter := filter_of_unknown hunknown
    unfold lookup at hnone
    unfold step update insertWaiter removeWaiter takeWaiter lookup
    dsimp only
    rw [hlast]
    dsimp only [Option.bind_eq_bind, Option.bind_some]
    rw [if_pos rfl, if_neg (by rw [hwaiters]; exact Bool.false_ne_true), hnone, hfilter, set_concat]
  have habandon : step { s with
        calls := s.calls ++ [⟨id, .queueing, true, false, .open⟩]
        permits := s.permits - 1
        byRequest := (id, s.calls.length) :: s.byRequest } (.abandon s.calls.length .spawned) =
      some { s with
        calls := s.calls ++ [⟨id, .abandoned, false, false, .open⟩]
        byRequest := (id, s.calls.length) :: s.byRequest
        removals := id :: s.removals } := by
    unfold step dropGuard finish update guardRemoval
    dsimp only
    rw [hlast]
    dsimp only [Option.bind_eq_bind, Option.bind_some]
    rw [if_neg Bool.false_ne_true, set_concat]
    dsimp only [Bool.toNat_true]
    rw [Nat.sub_add_cancel hleft]
  exact .step (.step (.step (.step .refl trivial hstart) trivial hacquire) trivial hregister)
    trivial habandon

omit [DecidableEq Guid] in
/-- Call after call, the entries pile up. -/
theorem entries_pile_up (n : Nat) :
    ∃ s : Connection Nat, Runs step anySchedule fromBus s ∧ s.byRequest.length = n ∧
      (∀ e ∈ s.byRequest, e.1 < n) ∧ s.permits = MAX_IN_FLIGHT ∧ s.semaphoreClosed = false ∧
      s.waitersClosed = false ∧ s.dropped = false := by
  induction n with
  | zero => exact ⟨fromBus, .refl, rfl, List.forall_mem_nil _, rfl, rfl, rfl, rfl⟩
  | succ n ih =>
    obtain ⟨s, hruns, hlength, hids, hpermits, hsemaphore, hwaiters, hdropped⟩ := ih
    have hunknown : ¬ (s.lookup n).isSome := by
      unfold lookup
      rw [Option.isSome_map, List.find?_isSome]
      intro h
      obtain ⟨e, he, hid⟩ := h
      exact Nat.ne_of_lt (hids e he) (of_decide_eq_true hid)
    have hmore := leaves_entry (hpermits ▸ Nat.zero_lt_succ _) hsemaphore hwaiters hdropped hunknown
    refine ⟨_, hruns.trans hmore, ?_, ?_, hpermits, hsemaphore, hwaiters, hdropped⟩
    · rw [List.length_cons, hlength]
    · show ∀ e ∈ (n, s.calls.length) :: s.byRequest, e.1 < n + 1
      rw [List.forall_mem_cons]
      refine ⟨Nat.lt_succ_self n, ?_⟩
      intro e he
      exact Nat.lt_succ_of_lt (hids e he)

/-- 257 calls, each given up before its request was queued, with no removal run yet. -/
theorem pending_above_limit :
    ∃ s : Connection Nat, Runs step anySchedule fromBus s ∧ MAX_IN_FLIGHT < s.byRequest.length := by
  obtain ⟨s, hruns, hlength, _⟩ := entries_pile_up (MAX_IN_FLIGHT + 1)
  refine ⟨s, hruns, ?_⟩
  rw [hlength]
  exact Nat.lt_succ_self _

end Connection

end Ytsaurus.Rpc
