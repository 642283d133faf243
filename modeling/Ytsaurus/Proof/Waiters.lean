import Ytsaurus.Proof.Connection

/-!
# `Proof/Waiters.lean` — who gets a response

`by_request` maps request ids to senders, and it is written to by four parties: calls that
register, packets that take a sender out, the removals that guards hand to the runtime (which
may run much later), and the loop that closes it. A sender can also be displaced by a second
registration under the same id, and a removal can hit an entry that is not the one it was meant
for. Nothing here assumes that ids are distinct.

`Routed` is the invariant that makes sense of this: the map is exactly the list of the calls
whose channel is open (`listed`), at most one call has an open channel under an id (`one`),
and where a call stands says what its channel can be (`placed`). A response that was handed
over came in a packet with the call's own id and went to that call alone (`delivered`, `once`).
So taking an entry out is the same as using the channel open under that id
(`takeWaiter_calls`), and closing the map is the same as using all of them
(`closeWaiters_calls`); `Routed.used` covers both at once.

What a packet does is then read off the invariant: it reaches the live call that waits under its
id, it changes no other call, and it changes nothing when nobody waits. That a dead connection
parks nobody needs one thing more, that a closed map stays closed and empty along every run;
then whoever waits finds a closed channel, and whoever comes to register is refused.
-/

set_option autoImplicit false

open Transition

namespace Ytsaurus.Rpc

variable {Guid : Type}

/-- What a channel can be, by where its call stands. -/
def Call.Placed (call : Call Guid) : Prop :=
  match call.phase with
  | .acquiring | .registering => call.slot = .unregistered
  | .queueing | .waiting => call.slot ≠ .unregistered
  | .answered packet => call.slot = .delivered packet
  | .refused | .abandoned => True

theorem Call.Placed.unregistered {call : Call Guid} (h : call.Placed)
    (hphase : call.phase = .acquiring ∨ call.phase = .registering) :
    call.slot = .unregistered := by
  unfold Call.Placed at h
  rcases hphase with hp | hp <;> rw [hp] at h <;> exact h

theorem Call.Placed.of_open {call call' : Call Guid} (h : call.Placed) (hopen : call.slot = .open)
    (hphase : call'.phase = call.phase) (hslot : call'.slot ≠ .unregistered) : call'.Placed := by
  unfold Call.Placed at h ⊢
  rw [hphase]
  rw [hopen] at h
  cases hp : call.phase <;> rw [hp] at h
  case acquiring => exact nomatch h
  case registering => exact nomatch h
  case queueing => exact hslot
  case waiting => exact hslot
  case answered packet => exact nomatch h
  all_goals trivial

namespace Connection

/-- The entry `id` is the open channel of the call `c`. -/
def Awaits (s : Connection Guid) (id : Guid) (c : Nat) : Prop :=
  ∃ call, s.calls[c]? = some call ∧ call.requestId = id ∧ call.slot = .open

/-- The map and the channels agree: an entry for each open channel and no other, and a response
only where it belongs. -/
structure Routed (s : Connection Guid) : Prop where
  listed : ∀ id c, (id, c) ∈ s.byRequest ↔ s.Awaits id c
  one : ∀ id c c', s.Awaits id c → s.Awaits id c' → c = c'
  placed : ∀ (c : Nat) (call : Call Guid), s.calls[c]? = some call → call.Placed
  delivered : ∀ (c : Nat) (call : Call Guid) (packet : Nat), s.calls[c]? = some call →
    call.slot = .delivered packet → s.packets[packet]? = some (some call.requestId)
  once : ∀ (c c' : Nat) (call call' : Call Guid) (packet : Nat), s.calls[c]? = some call →
    s.calls[c']? = some call' → call.slot = .delivered packet → call'.slot = .delivered packet →
    c = c'
  closed : s.waitersClosed → s.byRequest = []

theorem routed_fromBus : (fromBus : Connection Guid).Routed where
  listed := by
    intro id c
    constructor
    · intro h
      exact nomatch h
    · intro ⟨call, hcall, _⟩
      exact nomatch hcall
  one := by
    intro id c c' ⟨call, hcall, _⟩
    exact nomatch hcall
  placed := by
    intro c call hcall
    exact nomatch hcall
  delivered := by
    intro c call packet hcall
    exact nomatch hcall
  once := by
    intro c c' call call' packet hcall
    exact nomatch hcall
  closed := by
    intro h
    exact nomatch h

theorem Routed.congr {s s' : Connection Guid} (h : s.Routed) (hcalls : s'.calls = s.calls)
    (hby : s'.byRequest = s.byRequest) (hclosed : s'.waitersClosed = s.waitersClosed)
    (hpackets : s'.packets = s.packets) : s'.Routed := by
  obtain ⟨hlisted, hone, hplaced, hdelivered, honce, hempty⟩ := h
  have hawaits : s'.Awaits = s.Awaits := by
    unfold Awaits
    rw [hcalls]
  refine ⟨?_, ?_, ?_, ?_, ?_, ?_⟩
  · rw [hawaits, hby]
    exact hlisted
  · rw [hawaits]
    exact hone
  · rw [hcalls]
    exact hplaced
  · rw [hcalls, hpackets]
    exact hdelivered
  · rw [hcalls]
    exact honce
  · rw [hclosed, hby]
    exact hempty

/-! ## Using channels -/

/-- Do something to the channels open under the ids chosen. -/
def useOpen (chosen : Guid → Prop) [DecidablePred chosen] (use : Call Guid → Call Guid)
    (call : Call Guid) : Call Guid :=
  if call.slot = .open ∧ chosen call.requestId then use call else call

/-- What becomes of a channel that is used: its sender is dropped, or carries a response for
that call which no call has received. -/
structure Uses (s : Connection Guid) (chosen : Guid → Prop) (use : Call Guid → Call Guid) :
    Prop where
  requestId : ∀ call, (use call).requestId = call.requestId
  phase : ∀ call, (use call).phase = call.phase
  slot : ∀ call, call.slot = .open → chosen call.requestId → (use call).slot = .closed ∨
    ∃ packet, (use call).slot = .delivered packet ∧
      s.packets[packet]? = some (some call.requestId) ∧
      ∀ (c : Nat) (call' : Call Guid), s.calls[c]? = some call' → call'.slot ≠ .delivered packet

section

variable {s s' : Connection Guid} {chosen : Guid → Prop} [DecidablePred chosen]
  {use : Call Guid → Call Guid}

omit [DecidablePred chosen] in
theorem Uses.not_open (huses : s.Uses chosen use) {call : Call Guid} (hopen : call.slot = .open)
    (hchosen : chosen call.requestId) :
    (use call).slot ≠ .open ∧ (use call).slot ≠ .unregistered := by
  rcases huses.slot call hopen hchosen with hclosed | ⟨packet, hdelivered, -⟩
  · rw [hclosed]
    decide
  · rw [hdelivered]
    exact ⟨nofun, nofun⟩

theorem before_use (huses : s.Uses chosen use) (hcalls : s'.calls = s.calls.map (useOpen chosen use))
    {c : Nat} {call' : Call Guid} (hcall' : s'.calls[c]? = some call') :
    ∃ call, s.calls[c]? = some call ∧ call'.requestId = call.requestId ∧
      (call.slot = .open ∧ chosen call.requestId ∧ call' = use call ∨
        ¬ (call.slot = .open ∧ chosen call.requestId) ∧ call' = call) := by
  rw [hcalls, List.getElem?_map, Option.map_eq_some_iff] at hcall'
  obtain ⟨call, hcall, rfl⟩ := hcall'
  refine ⟨call, hcall, ?_⟩
  unfold useOpen
  by_cases hopen : call.slot = .open ∧ chosen call.requestId
  · rw [if_pos hopen]
    exact ⟨huses.requestId call, .inl ⟨hopen.1, hopen.2, rfl⟩⟩
  · rw [if_neg hopen]
    exact ⟨rfl, .inr ⟨hopen, rfl⟩⟩

theorem awaits_use (huses : s.Uses chosen use) (hcalls : s'.calls = s.calls.map (useOpen chosen use))
    (id : Guid) (c : Nat) : s'.Awaits id c ↔ s.Awaits id c ∧ ¬ chosen id := by
  constructor
  · intro ⟨call', hcall', hid, hslot⟩
    obtain ⟨call, hcall, -, ⟨hopen, hchosen, rfl⟩ | ⟨hnot, rfl⟩⟩ := before_use huses hcalls hcall'
    · exact absurd hslot (huses.not_open hopen hchosen).1
    · exact ⟨⟨call', hcall, hid, hslot⟩, fun hchosen => hnot ⟨hslot, hid ▸ hchosen⟩⟩
  · intro ⟨⟨call, hcall, hid, hslot⟩, hnot⟩
    refine ⟨call, ?_, hid, hslot⟩
    rw [hcalls, List.getElem?_map, hcall]
    unfold useOpen
    exact congrArg some (if_neg fun hopen => hnot (hid ▸ hopen.2))

/-- Using the channels of some ids, and taking their entries out, keeps the invariant. -/
theorem Routed.used (h : s.Routed) (huses : s.Uses chosen use)
    (hcalls : s'.calls = s.calls.map (useOpen chosen use))
    (hby : ∀ id c, (id, c) ∈ s'.byRequest ↔ (id, c) ∈ s.byRequest ∧ ¬ chosen id)
    (hpackets : s'.packets = s.packets) (hempty : s'.waitersClosed → s'.byRequest = []) :
    s'.Routed where
  listed := by
    intro id c
    rw [hby, awaits_use huses hcalls, h.listed]
  one := by
    intro id c c' hc hc'
    exact h.one id c c' ((awaits_use huses hcalls id c).mp hc).1
      ((awaits_use huses hcalls id c').mp hc').1
  placed := by
    intro c call' hcall'
    obtain ⟨call, hcall, -, ⟨hopen, hchosen, rfl⟩ | ⟨-, rfl⟩⟩ := before_use huses hcalls hcall'
    · exact (h.placed c call hcall).of_open hopen (huses.phase call) (huses.not_open hopen hchosen).2
    · exact h.placed c call' hcall
  delivered := by
    intro c call' packet hcall' hslot
    rw [hpackets]
    obtain ⟨call, hcall, hid, ⟨hopen, hchosen, rfl⟩ | ⟨-, rfl⟩⟩ := before_use huses hcalls hcall'
    · rcases huses.slot call hopen hchosen with hclosed | ⟨packet', hused, hpacket, -⟩
      · rw [hclosed] at hslot
        exact nomatch hslot
      · cases hused.symm.trans hslot
        rw [hid]
        exact hpacket
    · exact h.delivered c call' packet hcall hslot
  once := by
    intro c₁ c₂ call₁' call₂' packet hcall₁' hcall₂' hslot₁ hslot₂
    -- a response just used is for that call, and was delivered to no call before
    have hused : ∀ {call : Call Guid}, call.slot = .open → chosen call.requestId →
        (use call).slot = .delivered packet →
        s.packets[packet]? = some (some call.requestId) ∧
          ∀ (c : Nat) (call' : Call Guid), s.calls[c]? = some call' →
            call'.slot ≠ .delivered packet := by
      intro call hopen hchosen hdelivered
      rcases huses.slot call hopen hchosen with hclosed | ⟨packet', hdelivered', hpacket, hnew⟩
      · rw [hclosed] at hdelivered
        exact nomatch hdelivered
      · cases hdelivered'.symm.trans hdelivered
        exact ⟨hpacket, hnew⟩
    obtain ⟨call₁, hcall₁, -, ⟨hopen₁, hchosen₁, rfl⟩ | ⟨-, rfl⟩⟩ := before_use huses hcalls hcall₁'
    · obtain ⟨call₂, hcall₂, -, ⟨hopen₂, hchosen₂, rfl⟩ | ⟨-, rfl⟩⟩ := before_use huses hcalls hcall₂'
      · have hid : call₁.requestId = call₂.requestId := by
          have := (hused hopen₁ hchosen₁ hslot₁).1.symm.trans (hused hopen₂ hchosen₂ hslot₂).1
          exact Option.some.inj (Option.some.inj this)
        exact h.one _ c₁ c₂ ⟨call₁, hcall₁, hid, hopen₁⟩ ⟨call₂, hcall₂, rfl, hopen₂⟩
      · exact absurd hslot₂ ((hused hopen₁ hchosen₁ hslot₁).2 c₂ call₂' hcall₂)
    · obtain ⟨call₂, hcall₂, -, ⟨hopen₂, hchosen₂, rfl⟩ | ⟨-, rfl⟩⟩ := before_use huses hcalls hcall₂'
      · exact absurd hslot₁ ((hused hopen₂ hchosen₂ hslot₂).2 c₁ call₁' hcall₁)
      · exact h.once c₁ c₂ call₁' call₂' packet hcall₁ hcall₂ hslot₁ hslot₂
  closed := hempty

end

theorem senderDropped_not_open (call : Call Guid) : (senderDropped call).slot ≠ .open := by
  unfold senderDropped
  by_cases hopen : call.slot = .open
  · rw [if_pos hopen]
    exact nofun
  · rw [if_neg hopen]
    exact hopen

theorem uses_senderDropped (s : Connection Guid) (chosen : Guid → Prop) :
    s.Uses chosen senderDropped where
  requestId := fun call => (Call.fields_of_apart (senderDropped_apart call)).1
  phase := fun call => (Call.fields_of_apart (senderDropped_apart call)).2.1
  slot := by
    intro call hopen _
    left
    unfold senderDropped
    rw [if_pos hopen]

/-! ## Taking entries out -/

variable [DecidableEq Guid]

theorem lookup_eq_some {s : Connection Guid} (h : s.Routed) {id : Guid} {c : Nat} :
    s.lookup id = some c ↔ s.Awaits id c := by
  have hmem : ∀ c, s.lookup id = some c → s.Awaits id c := by
    intro c hc
    obtain ⟨⟨id', c'⟩, hfind, rfl⟩ := Option.map_eq_some_iff.mp hc
    have hid : id' = id := by simpa using List.find?_some hfind
    subst hid
    exact (h.listed id' c').mp (List.mem_of_find?_eq_some hfind)
  constructor
  · exact hmem c
  · intro hawaits
    cases hlookup : s.lookup id with
    | none =>
      unfold lookup at hlookup
      rw [Option.map_eq_none_iff, List.find?_eq_none] at hlookup
      have := hlookup _ ((h.listed id c).mpr hawaits)
      exact absurd this (by simp)
    | some c' => rw [h.one id c c' hawaits (hmem c' hlookup)]

/-- **Taking an entry out uses the channel open under that id, and no other.** -/
theorem takeWaiter_calls {s : Connection Guid} (h : s.Routed) (id : Guid)
    (use : Call Guid → Call Guid) :
    (s.takeWaiter id use).calls = s.calls.map (useOpen (· = id) use) := by
  apply List.ext_getElem?
  intro i
  unfold takeWaiter
  rw [List.getElem?_map]
  cases hcall : s.calls[i]? with
  | none =>
    cases s.lookup id with
    | none => exact hcall
    | some c =>
      show (s.calls.modify c use)[i]? = none
      rw [List.getElem?_modify, hcall]
      rfl
  | some call =>
    show _ = some (useOpen (· = id) use call)
    have hawaits : call.slot = .open ∧ call.requestId = id ↔ s.Awaits id i := by
      constructor
      · intro hopen
        exact ⟨call, hcall, hopen.symm⟩
      · intro ⟨call', hcall', hopen⟩
        cases hcall.symm.trans hcall'
        exact hopen.symm
    unfold useOpen
    cases hlookup : s.lookup id with
    | none =>
      have hnot : ¬ s.Awaits id i := by
        intro hopen
        rw [(lookup_eq_some h).mpr hopen] at hlookup
        exact nomatch hlookup
      rw [if_neg (mt hawaits.mp hnot)]
      exact hcall
    | some c =>
      show (s.calls.modify c use)[i]? = _
      rw [List.getElem?_modify, hcall]
      by_cases hc : c = i
      · rw [if_pos (hawaits.mpr (hc ▸ (lookup_eq_some h).mp hlookup))]
        simp [hc]
      · have hnot : ¬ s.Awaits id i := by
          intro hopen
          exact hc (h.one id c i ((lookup_eq_some h).mp hlookup) hopen)
        rw [if_neg (mt hawaits.mp hnot)]
        simp [hc]

theorem Routed.takeWaiter {s : Connection Guid} {id : Guid} {use : Call Guid → Call Guid}
    (h : s.Routed) (huses : s.Uses (· = id) use) : (s.takeWaiter id use).Routed := by
  apply h.used huses (takeWaiter_calls h id use) _ rfl
  · intro hclosed
    show s.byRequest.filter _ = []
    rw [h.closed hclosed]
    rfl
  · intro id' c
    show (id', c) ∈ s.byRequest.filter _ ↔ _
    rw [List.mem_filter]
    simp

theorem Routed.guardRemoval {s : Connection Guid} (h : s.Routed) (id : Guid) (r : Removal) :
    (s.guardRemoval id r).Routed := by
  cases r with
  | spawned => exact h.congr rfl rfl rfl rfl
  | immediate => exact h.takeWaiter (s.uses_senderDropped _)
  | skipped => exact h

/-! ## Closing -/

omit [DecidableEq Guid] in
/-- **Closing the waiters drops every open sender.** -/
theorem closeWaiters_calls {s : Connection Guid} (h : s.Routed) :
    s.closeWaiters.calls = s.calls.map senderDropped := by
  have hfold : ∀ (entries : List (Guid × Nat)) (calls : List (Call Guid)) (i : Nat)
      (call : Call Guid), calls[i]? = some call →
      ((∃ id, (id, i) ∈ entries) ∨ call.slot ≠ .open) →
      (entries.foldl (fun calls e => calls.modify e.2 senderDropped) calls)[i]?
        = some (senderDropped call) := by
    intro entries
    induction entries with
    | nil =>
      intro calls i call hcall hentry
      have hslot := hentry.resolve_left fun ⟨id, hid⟩ => nomatch hid
      unfold senderDropped
      rw [if_neg hslot]
      exact hcall
    | cons e entries ih =>
      intro calls i call hcall hentry
      rw [List.foldl_cons]
      by_cases hi : e.2 = i
      · -- dropping the sender again changes nothing
        have hslot := senderDropped_not_open call
        have hagain : senderDropped (senderDropped call) = senderDropped call := by
          rw [senderDropped, if_neg hslot]
        rw [← hagain]
        apply ih _ i _ _ (.inr hslot)
        rw [List.getElem?_modify, hcall, hi]
        simp
      · apply ih _ i call
        · rw [List.getElem?_modify, hcall]
          simp [hi]
        · refine hentry.imp_left fun ⟨id, hid⟩ => ⟨id, ?_⟩
          rcases List.mem_cons.mp hid with rfl | hrest
          · exact absurd rfl hi
          · exact hrest
  apply List.ext_getElem?
  intro i
  rw [List.getElem?_map]
  cases hcall : s.calls[i]? with
  | none =>
    have hlength : s.closeWaiters.calls.length = s.calls.length := by
      simpa using congrArg List.length s.closeWaiters_apart
    rw [List.getElem?_eq_none_iff] at hcall
    show _ = none
    rw [List.getElem?_eq_none_iff, hlength]
    exact hcall
  | some call =>
    apply hfold s.byRequest s.calls i call hcall
    by_cases hopen : call.slot = .open
    · exact .inl ⟨call.requestId, (h.listed _ i).mpr ⟨call, hcall, rfl, hopen⟩⟩
    · exact .inr hopen

omit [DecidableEq Guid] in
theorem Routed.closeWaiters {s : Connection Guid} (h : s.Routed) : s.closeWaiters.Routed := by
  have hcalls : s.closeWaiters.calls = s.calls.map (useOpen (fun _ => True) senderDropped) := by
    rw [closeWaiters_calls h]
    apply List.map_congr_left
    intro call _
    unfold useOpen senderDropped
    by_cases hopen : call.slot = .open
    · simp [hopen]
    · simp [hopen]
  refine h.used (s.uses_senderDropped _) hcalls ?_ rfl fun _ => rfl
  intro id c
  constructor
  · intro hmem
    exact nomatch hmem
  · intro hmem
    exact absurd trivial hmem.2

omit [DecidableEq Guid] in
theorem Routed.close {s : Connection Guid} (h : s.Routed) (at_ : Closing) :
    (s.close at_).Routed := by
  cases at_ with
  | semaphoreClosed => exact h.closeWaiters
  | _ => exact h.congr rfl rfl rfl rfl

/-! ## The other steps -/

omit [DecidableEq Guid] in
/-- One call moves on and keeps its channel. -/
theorem Routed.update {s s' : Connection Guid} {c : Nat} {call call' : Call Guid} (h : s.Routed)
    (hcall : s.calls[c]? = some call) (hcalls : s'.calls = s.calls.set c call')
    (hid : call'.requestId = call.requestId) (hslot : call'.slot = call.slot)
    (hplaced : call'.Placed) (hby : s'.byRequest = s.byRequest)
    (hclosed : s'.waitersClosed = s.waitersClosed) (hpackets : s'.packets = s.packets) :
    s'.Routed := by
  have hbefore : ∀ {i : Nat} {other' : Call Guid}, s'.calls[i]? = some other' →
      ∃ other, s.calls[i]? = some other ∧ other'.requestId = other.requestId ∧
        other'.slot = other.slot ∧ other'.Placed := by
    intro i other' hother'
    rw [hcalls, getElem?_set_of_some hcall] at hother'
    by_cases hi : c = i
    · rw [if_pos hi] at hother'
      cases hother'
      exact ⟨call, hi ▸ hcall, hid, hslot, hplaced⟩
    · rw [if_neg hi] at hother'
      exact ⟨other', hother', rfl, rfl, h.placed i other' hother'⟩
  have hawaits : ∀ id i, s'.Awaits id i ↔ s.Awaits id i := by
    intro id i
    constructor
    · intro ⟨other', hother', hid', hopen'⟩
      obtain ⟨other, hother, hsame, hsameSlot, -⟩ := hbefore hother'
      exact ⟨other, hother, hsame.symm.trans hid', hsameSlot.symm.trans hopen'⟩
    · intro ⟨other, hother, hid', hopen⟩
      by_cases hi : c = i
      · subst hi
        cases hcall.symm.trans hother
        refine ⟨call', ?_, hid.trans hid', hslot.trans hopen⟩
        rw [hcalls, getElem?_set_of_some hcall, if_pos rfl]
      · refine ⟨other, ?_, hid', hopen⟩
        rw [hcalls, getElem?_set_of_some hcall, if_neg hi]
        exact hother
  refine ⟨?_, ?_, ?_, ?_, ?_, ?_⟩
  · intro id i
    rw [hby, hawaits, h.listed]
  · intro id i j hi hj
    exact h.one id i j ((hawaits id i).mp hi) ((hawaits id j).mp hj)
  · intro i other' hother'
    obtain ⟨-, -, -, -, hplaced'⟩ := hbefore hother'
    exact hplaced'
  · intro i other' packet hother' hdelivered
    obtain ⟨other, hother, hsame, hsameSlot, -⟩ := hbefore hother'
    rw [hpackets, hsame]
    exact h.delivered i other packet hother (hsameSlot.symm.trans hdelivered)
  · intro i j other₁' other₂' packet hother₁' hother₂' hdelivered₁ hdelivered₂
    obtain ⟨other₁, hother₁, -, hslot₁, -⟩ := hbefore hother₁'
    obtain ⟨other₂, hother₂, -, hslot₂, -⟩ := hbefore hother₂'
    exact h.once i j other₁ other₂ packet hother₁ hother₂ (hslot₁.symm.trans hdelivered₁)
      (hslot₂.symm.trans hdelivered₂)
  · rw [hclosed, hby]
    exact h.closed

/-- A call registers: its channel opens under its id. -/
theorem Routed.register {s : Connection Guid} {c : Nat} {call : Call Guid} (h : s.Routed)
    (hcall : s.calls[c]? = some call) (hphase : call.phase = .registering)
    (hopen : s.waitersClosed = false) :
    ((s.insertWaiter call.requestId c).update c
      { call with phase := .queueing, slot := .open }).Routed := by
  have hplaced := (h.placed c call hcall).unregistered (.inr hphase)
  have huses := s.uses_senderDropped (· = call.requestId)
  have hcalls := takeWaiter_calls h call.requestId senderDropped
  have hremoved : (s.removeWaiter call.requestId).Routed := h.takeWaiter huses
  have hthere : (s.removeWaiter call.requestId).calls[c]? = some call := by
    show (s.takeWaiter call.requestId senderDropped).calls[c]? = some call
    rw [hcalls, List.getElem?_map, hcall]
    show some (useOpen _ _ call) = some call
    unfold useOpen
    rw [hplaced]
    rfl
  -- nobody waits under this id any more, and the call itself does not wait yet
  have hnobody : ∀ i, ¬ (s.removeWaiter call.requestId).Awaits call.requestId i := by
    intro i hawaits
    exact ((awaits_use huses hcalls call.requestId i).mp hawaits).2 rfl
  let call' : Call Guid := { call with phase := .queueing, slot := .open }
  have hset : ∀ i : Nat, ((s.removeWaiter call.requestId).calls.set c call')[i]?
      = if c = i then some call' else (s.removeWaiter call.requestId).calls[i]? :=
    getElem?_set_of_some hthere
  have hawaits : ∀ id i, ((s.insertWaiter call.requestId c).update c call').Awaits id i ↔
      (id = call.requestId ∧ i = c) ∨ (s.removeWaiter call.requestId).Awaits id i := by
    intro id i
    show (∃ other, ((s.removeWaiter call.requestId).calls.set c call')[i]? = some other ∧ _) ↔ _
    rw [hset]
    by_cases hi : c = i
    · subst hi
      rw [if_pos rfl]
      constructor
      · intro ⟨other, hother, hid, _⟩
        cases hother
        exact .inl ⟨hid.symm, rfl⟩
      · intro hor
        rcases hor with ⟨hid, -⟩ | ⟨other, hother, -, hslot⟩
        · exact ⟨call', rfl, hid.symm, rfl⟩
        · cases hthere.symm.trans hother
          rw [hplaced] at hslot
          exact nomatch hslot
    · rw [if_neg hi]
      constructor
      · exact .inr
      · intro hor
        exact hor.resolve_left fun hnew => hi hnew.2.symm
  refine ⟨?_, ?_, ?_, ?_, ?_, ?_⟩
  · intro id i
    rw [hawaits, ← hremoved.listed]
    show (id, i) ∈ (call.requestId, c) :: _ ↔ _
    rw [List.mem_cons, Prod.mk.injEq]
  · intro id i j hi hj
    rw [hawaits] at hi hj
    rcases hi with ⟨rfl, rfl⟩ | hi
    · rcases hj with ⟨-, rfl⟩ | hj
      · rfl
      · exact absurd hj (hnobody j)
    · rcases hj with ⟨rfl, rfl⟩ | hj
      · exact absurd hi (hnobody i)
      · exact hremoved.one id i j hi hj
  · intro i other hother
    replace hother := (hset i).symm.trans hother
    by_cases hi : c = i
    · rw [if_pos hi] at hother
      cases hother
      exact nofun
    · rw [if_neg hi] at hother
      exact hremoved.placed i other hother
  · intro i other packet hother hdelivered
    replace hother := (hset i).symm.trans hother
    by_cases hi : c = i
    · rw [if_pos hi] at hother
      cases hother
      exact nomatch hdelivered
    · rw [if_neg hi] at hother
      exact hremoved.delivered i other packet hother hdelivered
  · intro i j other₁ other₂ packet hother₁ hother₂ hdelivered₁ hdelivered₂
    replace hother₁ := (hset i).symm.trans hother₁
    replace hother₂ := (hset j).symm.trans hother₂
    by_cases hi : c = i
    · rw [if_pos hi] at hother₁
      cases hother₁
      exact nomatch hdelivered₁
    · rw [if_neg hi] at hother₁
      by_cases hj : c = j
      · rw [if_pos hj] at hother₂
        cases hother₂
        exact nomatch hdelivered₂
      · rw [if_neg hj] at hother₂
        exact hremoved.once i j other₁ other₂ packet hother₁ hother₂ hdelivered₁ hdelivered₂
  · intro hclosed
    exact absurd (hopen.symm.trans hclosed) (by decide)

omit [DecidableEq Guid] in
theorem Routed.start {s : Connection Guid} (h : s.Routed) (id : Guid) :
    ({ s with calls := s.calls ++ [⟨id, .acquiring, false, false, .unregistered⟩] } :
      Connection Guid).Routed := by
  let new : Call Guid := ⟨id, .acquiring, false, false, .unregistered⟩
  have hbefore : ∀ {i : Nat} {other : Call Guid}, (s.calls ++ [new])[i]? = some other →
      s.calls[i]? = some other ∨ other = new := by
    intro i other hother
    rw [List.getElem?_append] at hother
    by_cases hi : i < s.calls.length
    · rw [if_pos hi] at hother
      exact .inl hother
    · rw [if_neg hi, List.getElem?_singleton] at hother
      split at hother
      · exact .inr (Option.some.inj hother).symm
      · exact nomatch hother
  have hawaits : ∀ id' i, Awaits { s with calls := s.calls ++ [new] } id' i ↔ s.Awaits id' i := by
    intro id' i
    constructor
    · intro ⟨other, hother, hid, hopen⟩
      rcases hbefore hother with hold | rfl
      · exact ⟨other, hold, hid, hopen⟩
      · exact nomatch hopen
    · intro ⟨other, hother, hawaited⟩
      obtain ⟨hlt, -⟩ := List.getElem?_eq_some_iff.mp hother
      exact ⟨other, (List.getElem?_append_left hlt).trans hother, hawaited⟩
  refine ⟨?_, ?_, ?_, ?_, ?_, h.closed⟩
  · intro id' i
    exact (h.listed id' i).trans (hawaits id' i).symm
  · intro id' i j hi hj
    exact h.one id' i j ((hawaits id' i).mp hi) ((hawaits id' j).mp hj)
  · intro i other hother
    rcases hbefore hother with hold | rfl
    · exact h.placed i other hold
    · exact (rfl : Slot.unregistered = .unregistered)
  · intro i other packet hother hdelivered
    rcases hbefore hother with hold | rfl
    · exact h.delivered i other packet hold hdelivered
    · exact nomatch hdelivered
  · intro i j other₁ other₂ packet hother₁ hother₂ hdelivered₁ hdelivered₂
    rcases hbefore hother₁ with hold₁ | rfl
    · rcases hbefore hother₂ with hold₂ | rfl
      · exact h.once i j other₁ other₂ packet hold₁ hold₂ hdelivered₁ hdelivered₂
      · exact nomatch hdelivered₂
    · exact nomatch hdelivered₁

omit [DecidableEq Guid] in
theorem Routed.arrive {s : Connection Guid} (h : s.Routed) (id : Option Guid) :
    ({ s with packets := s.packets ++ [id] } : Connection Guid).Routed := by
  refine ⟨h.listed, h.one, h.placed, ?_, h.once, h.closed⟩
  intro c call packet hcall hslot
  have hpacket := h.delivered c call packet hcall hslot
  obtain ⟨hlt, -⟩ := List.getElem?_eq_some_iff.mp hpacket
  show (s.packets ++ [id])[packet]? = _
  rw [List.getElem?_append_left hlt]
  exact hpacket

/-- A routed response is delivered at most to the call waiting under its id. -/
theorem Routed.deliver {s : Connection Guid} (h : s.Routed) (id : Guid) :
    ({ s with packets := s.packets ++ [some id] }.deliver id s.packets.length).Routed := by
  apply (h.arrive (some id)).takeWaiter
  refine ⟨?_, ?_, ?_⟩
  · intro call
    by_cases hended : call.ended
    · rw [if_pos hended]
      exact (Call.fields_of_apart (senderDropped_apart call)).1
    · rw [if_neg hended]
  · intro call
    by_cases hended : call.ended
    · rw [if_pos hended]
      exact (Call.fields_of_apart (senderDropped_apart call)).2.1
    · rw [if_neg hended]
  · intro call hopen hid
    by_cases hended : call.ended
    · rw [if_pos hended]
      left
      unfold senderDropped
      rw [if_pos hopen]
    · rw [if_neg hended]
      right
      refine ⟨s.packets.length, rfl, ?_, ?_⟩
      · rw [hid]
        exact List.getElem?_concat_length
      · -- the packet is the last one, so it was delivered to no call
        intro c call' hcall' hslot
        obtain ⟨hlt, -⟩ := List.getElem?_eq_some_iff.mp (h.delivered c call' _ hcall' hslot)
        exact Nat.lt_irrefl _ hlt

omit [DecidableEq Guid] in
theorem Routed.finish {s : Connection Guid} {c : Nat} {call : Call Guid} {phase : Phase}
    (h : s.Routed) (hcall : s.calls[c]? = some call)
    (hphase : ∀ packet, phase = .answered packet → call.slot = .delivered packet)
    (hends : phase = .refused ∨ phase = .abandoned ∨ ∃ packet, phase = .answered packet) :
    (s.finish c call phase).Routed := by
  refine h.update hcall rfl rfl rfl ?_ rfl rfl rfl
  rcases hends with rfl | rfl | ⟨packet, rfl⟩
  · trivial
  · trivial
  · exact hphase packet rfl

theorem Routed.trySend {s : Connection Guid} (h : s.Routed) (k : Cancellation Guid) :
    (s.trySend k).Routed := by
  unfold Connection.trySend
  dsimp only
  split
  · exact h.congr rfl rfl rfl rfl
  · split
    · exact h.congr rfl rfl rfl rfl
    · exact h.congr rfl rfl rfl rfl

theorem Routed.dropGuard {s : Connection Guid} {c : Nat} {call : Call Guid} {phase : Phase}
    (r : Removal) (h : s.Routed) (hcall : s.calls[c]? = some call)
    (hends : phase = .refused ∨ phase = .abandoned) : (s.dropGuard c call phase r).Routed := by
  have hended : (s.update c { call with phase := phase, permit := false }).Routed := by
    refine h.update hcall rfl rfl rfl ?_ rfl rfl rfl
    rcases hends with rfl | rfl <;> trivial
  unfold Connection.dropGuard
  dsimp only
  by_cases hsent : call.sent
  · rw [if_pos hsent]
    have hremoved := hended.guardRemoval call.requestId r
    by_cases hpermit : call.permit
    · rw [if_pos hpermit]
      exact hremoved.trySend _
    · rw [if_neg hpermit]
      exact hremoved.congr rfl rfl rfl rfl
  · rw [if_neg hsent]
    apply Routed.guardRemoval
    exact hended.congr rfl rfl rfl rfl

/-- The step lemma. -/
theorem Routed.step {s s' : Connection Guid} {a : Action Guid} (h : s.Routed)
    (hmove : s.Moves a s') : s'.Routed := by
  cases hmove with
  | start id => exact h.start id
  | @acquire c call hcall hphase hleft =>
    have hplaced := (h.placed c call hcall).unregistered (.inl hphase)
    exact h.update hcall rfl rfl rfl hplaced rfl rfl rfl
  | finish hcall hends =>
    cases hends with
    | unarmed hbegun hphase =>
      refine h.finish hcall ?_ (hphase.imp_right .inl)
      intro packet hanswered
      rcases hphase with rfl | rfl <;> exact nomatch hanswered
    | answered hwaiting hslot =>
      refine h.finish hcall ?_ (.inr (.inr ⟨_, rfl⟩))
      intro packet hanswered
      cases hanswered
      exact hslot
    | woken hwaiting hslot =>
      refine h.finish hcall ?_ (.inl rfl)
      intro packet hanswered
      exact nomatch hanswered
  | register hcall hphase hopen => exact h.register hcall hphase hopen
  | @enqueue c call hcall hphase hwriter =>
    have hplaced := h.placed c call hcall
    unfold Call.Placed at hplaced
    rw [hphase] at hplaced
    exact h.update hcall rfl rfl rfl hplaced rfl rfl rfl
  | enqueueRefused hcall hphase hwriter => exact h.dropGuard _ hcall (.inl rfl)
  | abandon hcall hphase => exact h.dropGuard _ hcall (.inr rfl)
  | remove => exact (h.takeWaiter (s.uses_senderDropped _)).congr rfl rfl rfl rfl
  | routed => exact h.deliver _
  | unroutable => exact h.arrive none
  | readerCloses | writerCloses => exact (h.close _).congr rfl rfl rfl rfl
  | takeCancellation | noCancellation | takeRequest | idle | requestWritten
  | cancellationWritten | requestFailed | cancellationFailed | cancelsDropped
  | outboundDropped | readerEnds | dropped => exact h.congr rfl rfl rfl rfl

theorem routed {s : Connection Guid} (h : Runs step anySchedule fromBus s) : s.Routed :=
  h.invariant routed_fromBus fun hrouted _ hstep => hrouted.step (step_moves hstep)

/-! ## What a packet changes -/

/-- A packet changes no call but the one waiting under its id. -/
theorem packet_frame {s s' : Connection Guid} (h : s.Routed) {id : Option Guid}
    (hstep : step s (.packet id) = some s') {c : Nat} {call : Call Guid}
    (hcall : s.calls[c]? = some call)
    (hother : ¬ (call.slot = .open ∧ id = some call.requestId)) :
    s'.calls[c]? = some call := by
  obtain ⟨-, hstep⟩ := Option.ite_none_right_eq_some.mp hstep
  cases id with
  | none =>
    cases hstep
    exact hcall
  | some id =>
    cases hstep
    unfold deliver
    rw [takeWaiter_calls (h.arrive (some id)), List.getElem?_map]
    show Option.map _ s.calls[c]? = _
    rw [hcall]
    unfold useOpen
    apply congrArg some
    apply if_neg
    intro hopen
    exact hother ⟨hopen.1, congrArg some hopen.2.symm⟩

/-- A packet reaches the call that waits under its id. -/
theorem packet_delivered {s s' : Connection Guid} (h : s.Routed) {c : Nat} {call : Call Guid}
    (hstep : step s (.packet (some call.requestId)) = some s') (hcall : s.calls[c]? = some call)
    (hopen : call.slot = .open) (hlive : call.ended = false) :
    s'.calls[c]? = some { call with slot := .delivered s.packets.length } := by
  obtain ⟨-, hstep⟩ := Option.ite_none_right_eq_some.mp hstep
  cases hstep
  unfold deliver
  rw [takeWaiter_calls (h.arrive (some call.requestId)), List.getElem?_map]
  show Option.map _ s.calls[c]? = _
  rw [hcall]
  show some (useOpen _ _ call) = _
  unfold useOpen
  rw [if_pos ⟨hopen, rfl⟩]
  exact congrArg some (if_neg (by rw [hlive]; decide))

/-- A packet nobody waits for changes nothing. -/
theorem packet_ignored {s s' : Connection Guid} (h : s.Routed) {id : Option Guid}
    (hstep : step s (.packet id) = some s') (hnobody : ∀ id' ∈ id, ∀ c, ¬ s.Awaits id' c) :
    s' = { s with packets := s.packets ++ [id] } := by
  obtain ⟨-, hstep⟩ := Option.ite_none_right_eq_some.mp hstep
  cases id with
  | none =>
    cases hstep
    rfl
  | some id =>
    cases hstep
    have hlookup : s.lookup id = none := by
      cases hlookup : s.lookup id with
      | none => rfl
      | some c => exact absurd ((lookup_eq_some h).mp hlookup) (hnobody id rfl c)
    have hfilter : (s.byRequest.filter fun e => e.1 ≠ id) = s.byRequest := by
      rw [List.filter_eq_self]
      intro e he
      have hne : e.1 ≠ id := by
        intro heq
        exact hnobody id rfl e.2 ((h.listed id e.2).mp (heq ▸ he))
      exact decide_eq_true hne
    have hlookup' : lookup { s with packets := s.packets ++ [some id] } id = none := hlookup
    unfold deliver takeWaiter
    rw [hlookup', hfilter]

/-! ## A dead connection -/

theorem guardRemoval_waitersClosed (s : Connection Guid) (id : Guid) (r : Removal) :
    (s.guardRemoval id r).waitersClosed = s.waitersClosed := by
  cases r <;> rfl

theorem trySend_waitersClosed (s : Connection Guid) (k : Cancellation Guid) :
    (s.trySend k).waitersClosed = s.waitersClosed := by
  unfold trySend
  dsimp only
  split
  · rfl
  · split <;> rfl

theorem dropGuard_waitersClosed (s : Connection Guid) (c : Nat) (call : Call Guid)
    (phase : Phase) (r : Removal) :
    (s.dropGuard c call phase r).waitersClosed = s.waitersClosed := by
  unfold dropGuard
  dsimp only
  by_cases hsent : call.sent
  · rw [if_pos hsent]
    by_cases hpermit : call.permit
    · rw [if_pos hpermit, trySend_waitersClosed, guardRemoval_waitersClosed]
      rfl
    · rw [if_neg hpermit]
      exact guardRemoval_waitersClosed _ _ _
  · rw [if_neg hsent, guardRemoval_waitersClosed]
    rfl

omit [DecidableEq Guid] in
theorem close_waitersClosed {s : Connection Guid} (h : s.waitersClosed) (at_ : Closing) :
    (s.close at_).waitersClosed := by
  cases at_ <;> first | exact h | rfl

theorem waitersClosed_step {s s' : Connection Guid} {a : Action Guid} (h : s.waitersClosed)
    (hmove : s.Moves a s') : s'.waitersClosed := by
  cases hmove with
  | enqueueRefused | abandon => exact (s.dropGuard_waitersClosed _ _ _ _).trans h
  | readerCloses | writerCloses => exact close_waitersClosed h _
  | _ => exact h

theorem waitersClosed_of_runs {s t : Connection Guid} (hclosed : s.waitersClosed)
    (h : Runs step anySchedule s t) : t.waitersClosed :=
  h.invariant hclosed fun ht _ hstep => waitersClosed_step ht (step_moves hstep)

/-- What a waiting call does with its channel. -/
theorem step_receive {s : Connection Guid} {c : Nat} {call : Call Guid}
    (hcall : s.calls[c]? = some call) (hphase : call.phase = .waiting) :
    step s (.receive c) = match call.slot with
      | .delivered packet => some (s.finish c call (.answered packet))
      | .closed => some (s.finish c call .refused)
      | _ => none := by
  rw [step, hcall]
  exact if_pos hphase

/-- Once the waiters are closed a waiting call has something to receive. -/
theorem receive_of_closed {s : Connection Guid} (h : s.Routed) (hclosed : s.waitersClosed)
    {c : Nat} {call : Call Guid} (hcall : s.calls[c]? = some call)
    (hphase : call.phase = .waiting) : (step s (.receive c)).isSome := by
  have hplaced := h.placed c call hcall
  unfold Call.Placed at hplaced
  rw [hphase] at hplaced
  rw [step_receive hcall hphase]
  cases hslot : call.slot with
  | unregistered => exact absurd hslot hplaced
  | «open» =>
    have hlisted := (h.listed call.requestId c).mpr ⟨call, hcall, rfl, hslot⟩
    rw [h.closed hclosed] at hlisted
    exact nomatch hlisted
  | delivered packet => rfl
  | closed => rfl

/-- **Responses reach exactly their callers, and a dead connection parks nobody.** A response
that a call holds or returns came in a packet with its request id and is held by no other
call; a packet is delivered to the live call that waits under its id, changes no other, and
nothing at all when there is none; and after the waiters are closed their map stays empty, a call
that comes to register is refused, and no call is left waiting for a response. -/
theorem responses_reach_their_callers {s : Connection Guid}
    (h : Runs step anySchedule fromBus s) :
    (∀ (c : Nat) (call : Call Guid) (packet : Nat), s.calls[c]? = some call →
      call.slot = .delivered packet → s.packets[packet]? = some (some call.requestId) ∧
        ∀ (c' : Nat) (call' : Call Guid), s.calls[c']? = some call' →
          call'.slot = .delivered packet → c' = c) ∧
    (∀ (c : Nat) (call : Call Guid) (packet : Nat), s.calls[c]? = some call →
      call.phase = .answered packet → call.slot = .delivered packet) ∧
    (∀ (id : Option Guid) (s' : Connection Guid), step s (.packet id) = some s' →
      (∀ (c : Nat) (call : Call Guid), s.calls[c]? = some call →
        ¬ (call.slot = .open ∧ id = some call.requestId) → s'.calls[c]? = some call) ∧
      (∀ (c : Nat) (call : Call Guid), s.calls[c]? = some call → call.slot = .open →
        id = some call.requestId → call.ended = false →
        s'.calls[c]? = some { call with slot := .delivered s.packets.length }) ∧
      ((∀ id' ∈ id, ∀ c, ¬ s.Awaits id' c) → s' = { s with packets := s.packets ++ [id] })) ∧
    (s.waitersClosed → ∀ t : Connection Guid, Runs step anySchedule s t →
      t.waitersClosed ∧ t.byRequest = [] ∧
      (∀ (c : Nat) (call : Call Guid) (u : Connection Guid), t.calls[c]? = some call →
        step t (.register c) = some u → u = t.finish c call .refused) ∧
      (∀ (c : Nat) (call : Call Guid), t.calls[c]? = some call → call.phase = .waiting →
        (step t (.receive c)).isSome)) := by
  have hrouted := routed h
  refine ⟨?_, ?_, ?_, ?_⟩
  · intro c call packet hcall hslot
    refine ⟨hrouted.delivered c call packet hcall hslot, ?_⟩
    intro c' call' hcall' hslot'
    exact hrouted.once c' c call' call packet hcall' hcall hslot' hslot
  · intro c call packet hcall hphase
    have hplaced := hrouted.placed c call hcall
    unfold Call.Placed at hplaced
    rw [hphase] at hplaced
    exact hplaced
  · intro id s' hstep
    refine ⟨fun c call hcall hother => packet_frame hrouted hstep hcall hother, ?_,
      packet_ignored hrouted hstep⟩
    intro c call hcall hopen hid hlive
    rw [hid] at hstep
    exact packet_delivered hrouted hstep hcall hopen hlive
  · intro hclosed t ht
    have hrouted' := routed (h.trans ht)
    have hclosed' := waitersClosed_of_runs hclosed ht
    refine ⟨hclosed', hrouted'.closed hclosed', ?_, ?_⟩
    · intro c call u hcall hstep
      obtain ⟨call', hcall', hstep⟩ := Option.bind_eq_some_iff.mp hstep
      cases hcall.symm.trans hcall'
      obtain ⟨-, hstep⟩ := Option.ite_none_right_eq_some.mp hstep
      rw [if_pos hclosed'] at hstep
      exact (Option.some.inj hstep).symm
    · intro c call hcall hphase
      exact receive_of_closed hrouted' hclosed' hcall hphase

/-- Two calls, a response to the second, two packets nobody waits for, and the reader ends. -/
theorem response_reaches_second_caller :
    ∃ s : Connection Nat, s.calls.map (·.slot) = [.closed, .delivered 1] ∧
      s.packets[1]? = some (some 8) ∧
      ∀ t : Connection Nat, Runs step anySchedule s t → t.byRequest = [] := by
  have hplay : (play step anySchedule (fromBus : Connection Nat)
      [.start 7, .start 8, .acquire 1, .acquire 0, .register 0, .register 1, .enqueue 1,
        .packet (some 9), .packet (some 8), .packet none, .readFailed, .readerCloses,
        .readerCloses, .readerCloses]).map
        (fun s => (s.calls.map (·.slot), s.packets, s.waitersClosed))
      = some ([.closed, .delivered 1], [some 9, some 8, none], true) := by
    decide +kernel
  obtain ⟨s, hs, hstate⟩ := Option.map_eq_some_iff.mp hplay
  obtain ⟨hslots, hstate⟩ := Prod.mk.inj hstate
  obtain ⟨hpackets, hclosed⟩ := Prod.mk.inj hstate
  obtain ⟨-, -, -, hdead⟩ := responses_reach_their_callers (runs_of_play hs)
  refine ⟨s, hslots, ?_, ?_⟩
  · rw [hpackets]
    rfl
  · intro t ht
    obtain ⟨-, hempty, -⟩ := hdead hclosed t ht
    exact hempty

end Connection

end Ytsaurus.Rpc
