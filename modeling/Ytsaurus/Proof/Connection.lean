import Mathlib.Data.List.Basic
import Ytsaurus.Rpc.Connection

/-!
# `Proof/Connection.lean` — what a step of a connection can do

`Connection.step` has twenty-two actions, and most of the invariants care about a handful of
effects: a call moves on, a channel is used, a permit changes hands, something is queued or
written. `Moves` restates `step` as a relation with one constructor for each kind of effect,
guards included, and `step_moves` says that every step is one of them. The invariants of the
later modules (`Routed`, `Accounted`, `Traced`, `Trailing`, `Keyed`) are proved by cases on
`Moves` and never unfold `step`, so a change of one action of the machine is a change of one
constructor and of the lemmas about that effect.

`Moves` is deliberately coarser than `step`: it keeps the guards an invariant needs and forgets
the others, and steps with the same effect share a constructor (`finish` is the end of a call
with nothing to clean up, whatever ended it). So it over-approximates the machine; that is
enough for what holds of every run. Where a particular step has to be taken, the modules below
go back to `step` itself.

The other half of this module is a frame. The operations on the waiters change the state of
some channels and nothing else of any call, so `Call.apart`, a call without its channel, is what
they leave alone (`takeWaiter_apart`, `guardRemoval_apart`, `deliver_apart`), and the
permits can be counted across them without looking inside.
-/

set_option autoImplicit false

namespace Ytsaurus.Rpc

variable {Guid : Type}

/-- A call without the state of its channel. -/
def Call.apart (call : Call Guid) : Call Guid := { call with slot := .unregistered }

theorem Call.fields_of_apart {call call' : Call Guid} (h : call'.apart = call.apart) :
    call'.requestId = call.requestId ∧ call'.phase = call.phase ∧ call'.permit = call.permit ∧
      call'.sent = call.sent := by
  simpa [Call.apart] using h

namespace Connection

/-! ## Only channels change -/

theorem senderDropped_apart (call : Call Guid) : (senderDropped call).apart = call.apart := by
  unfold senderDropped
  split <;> rfl

theorem map_apart_modify {use : Call Guid → Call Guid}
    (huse : ∀ call, (use call).apart = call.apart) (calls : List (Call Guid)) (c : Nat) :
    (calls.modify c use).map Call.apart = calls.map Call.apart := by
  apply List.ext_getElem?
  intro i
  rw [List.getElem?_map, List.getElem?_map, List.getElem?_modify]
  cases calls[i]? with
  | none => rfl
  | some call =>
    by_cases h : c = i
    · simp [h, huse]
    · simp [h]

theorem closeWaiters_apart (s : Connection Guid) :
    s.closeWaiters.calls.map Call.apart = s.calls.map Call.apart := by
  have hfold : ∀ (entries : List (Guid × Nat)) (calls : List (Call Guid)),
      (entries.foldl (fun calls e => calls.modify e.2 senderDropped) calls).map Call.apart
        = calls.map Call.apart := by
    intro entries
    induction entries with
    | nil => exact fun _ => rfl
    | cons e entries ih =>
      intro calls
      rw [List.foldl_cons, ih, map_apart_modify senderDropped_apart]
  exact hfold s.byRequest s.calls

theorem close_writer (s : Connection Guid) (at_ : Closing) : (s.close at_).writer = s.writer := by
  cases at_ <;> rfl

/-- A call found after a change of channels was there before, but for its channel. -/
theorem of_apart {calls calls' : List (Call Guid)} {c : Nat} {call' : Call Guid}
    (h : calls'.map Call.apart = calls.map Call.apart) (hcall : calls'[c]? = some call') :
    ∃ call, calls[c]? = some call ∧ call'.apart = call.apart := by
  have hc : (calls.map Call.apart)[c]? = some call'.apart := by
    rw [← h, List.getElem?_map, hcall]
    rfl
  rw [List.getElem?_map, Option.map_eq_some_iff] at hc
  obtain ⟨call, hcall, happart⟩ := hc
  exact ⟨call, hcall, happart.symm⟩

theorem countP_permit_of_apart {calls calls' : List (Call Guid)}
    (h : calls'.map Call.apart = calls.map Call.apart) :
    calls'.countP (·.permit) = calls.countP (·.permit) := by
  have hcount : ∀ l : List (Call Guid),
      l.countP (·.permit) = (l.map Call.apart).countP (·.permit) := by
    intro l
    rw [List.countP_map]
    rfl
  rw [hcount, h, ← hcount]

theorem getElem?_set_of_some {α : Type} {l : List α} {c : Nat} {a b : α} (h : l[c]? = some a)
    (i : Nat) : (l.set c b)[i]? = if c = i then some b else l[i]? := by
  obtain ⟨hlt, -⟩ := List.getElem?_eq_some_iff.mp h
  rw [List.getElem?_set]
  by_cases hi : c = i
  · rw [if_pos hi, if_pos hi, if_pos hlt]
  · rw [if_neg hi, if_neg hi]

variable [DecidableEq Guid]

theorem takeWaiter_apart (s : Connection Guid) (id : Guid) {use : Call Guid → Call Guid}
    (huse : ∀ call, (use call).apart = call.apart) :
    (s.takeWaiter id use).calls.map Call.apart = s.calls.map Call.apart := by
  unfold takeWaiter
  cases s.lookup id with
  | none => rfl
  | some c => exact map_apart_modify huse s.calls c

theorem guardRemoval_apart (s : Connection Guid) (id : Guid) (r : Removal) :
    (s.guardRemoval id r).calls.map Call.apart = s.calls.map Call.apart := by
  cases r with
  | spawned => rfl
  | immediate => exact s.takeWaiter_apart id senderDropped_apart
  | skipped => rfl

theorem deliver_apart (s : Connection Guid) (id : Guid) (packet : Nat) :
    (s.deliver id packet).calls.map Call.apart = s.calls.map Call.apart := by
  apply s.takeWaiter_apart id
  intro call
  by_cases hended : call.ended
  · rw [if_pos hended]
    exact senderDropped_apart call
  · rw [if_neg hended]
    rfl

/-! ## The steps -/

/-- Why a call ends with nothing to clean up: it never armed its guard, or stood it down. -/
inductive Ends (s : Connection Guid) (call : Call Guid) : Phase → Prop
  | unarmed {phase : Phase} (h : call.phase = .acquiring ∨ call.phase = .registering)
      (hphase : phase = .refused ∨ phase = .abandoned) : Ends s call phase
  | answered {packet : Nat} (h : call.phase = .waiting) (hslot : call.slot = .delivered packet) :
      Ends s call (.answered packet)
  | woken (h : call.phase = .waiting) (hslot : call.slot = .closed) : Ends s call .refused

/-- What the steps do. -/
inductive Moves (s : Connection Guid) : Action Guid → Connection Guid → Prop
  | start (id : Guid) :
      Moves s (.start id)
        { s with calls := s.calls ++ [⟨id, .acquiring, false, false, .unregistered⟩] }
  | acquire {c : Nat} {call : Call Guid} (hcall : s.calls[c]? = some call)
      (hphase : call.phase = .acquiring) (hleft : 0 < s.permits) :
      Moves s (.acquire c) ({ s with permits := s.permits - 1 }.update c
        { call with phase := .registering, permit := true })
  | finish {a : Action Guid} {c : Nat} {call : Call Guid} {phase : Phase}
      (hcall : s.calls[c]? = some call) (hends : s.Ends call phase) :
      Moves s a (s.finish c call phase)
  | register {c : Nat} {call : Call Guid} (hcall : s.calls[c]? = some call)
      (hphase : call.phase = .registering) (hopen : s.waitersClosed = false) :
      Moves s (.register c) ((s.insertWaiter call.requestId c).update c
        { call with phase := .queueing, slot := .open })
  | enqueue {c : Nat} {call : Call Guid} (hcall : s.calls[c]? = some call)
      (hphase : call.phase = .queueing) (hwriter : s.writer ≠ .finished) :
      Moves s (.enqueue c) ({ s with outbound := s.outbound ++ [call.requestId] }.update c
        { call with phase := .waiting, sent := true })
  | enqueueRefused {c : Nat} {call : Call Guid} {r : Removal} (hcall : s.calls[c]? = some call)
      (hphase : call.phase = .queueing) (hwriter : s.writer = .finished) :
      Moves s (.enqueueRefused c r) (s.dropGuard c call .refused r)
  | abandon {c : Nat} {call : Call Guid} {r : Removal} (hcall : s.calls[c]? = some call)
      (hphase : call.phase = .queueing ∨ call.phase = .waiting) :
      Moves s (.abandon c r) (s.dropGuard c call .abandoned r)
  | remove {id : Guid} :
      Moves s (.remove id) { s.removeWaiter id with removals := s.removals.erase id }
  | takeCancellation {k : Cancellation Guid} {cancels : List (Cancellation Guid)}
      (hwriter : s.writer = .selecting) (hcancels : s.cancels = k :: cancels) :
      Moves s .takeCancellation { s with writer := .sending (.cancellation k), cancels := cancels }
  | noCancellation (hwriter : s.writer = .selecting) (hcancels : s.cancels = []) :
      Moves s .noCancellation { s with writer := .noCancellation }
  | takeRequest {id : Guid} {outbound : List Guid} (hwriter : s.writer = .noCancellation)
      (houtbound : s.outbound = id :: outbound) :
      Moves s .takeRequest { s with writer := .sending (.request id), outbound := outbound }
  | idle {a : Action Guid} {w : Writer Guid} (hwriter : s.writer = .noCancellation)
      (houtbound : s.outbound = []) (hw : w = .selecting ∨ w = .closing .broken) :
      Moves s a { s with writer := w }
  | requestWritten {id : Guid} (hwriter : s.writer = .sending (.request id)) :
      Moves s .written { s with writer := .selecting, wire := s.wire ++ [.request id] }
  | cancellationWritten {k : Cancellation Guid} (hwriter : s.writer = .sending (.cancellation k)) :
      Moves s .written { s with
        writer := .selecting
        permits := s.permits + 1
        wire := s.wire ++ [.cancellation k] }
  | requestFailed {id : Guid} (hwriter : s.writer = .sending (.request id)) :
      Moves s .writeFailed { s with writer := .closing .broken }
  | cancellationFailed {k : Cancellation Guid} (hwriter : s.writer = .sending (.cancellation k)) :
      Moves s .writeFailed { s with writer := .closing .broken, permits := s.permits + 1 }
  | writerCloses {at_ next : Closing} (hwriter : s.writer = .closing at_) :
      Moves s .writerCloses { s.close at_ with writer := .closing next }
  | cancelsDropped {at_ : Closing} (hwriter : s.writer = .closing at_) :
      Moves s .writerCloses { s with
        writer := .cancelsDropped, cancels := [], permits := s.permits + s.cancels.length }
  | outboundDropped (hwriter : s.writer = .cancelsDropped) :
      Moves s .writerCloses { s with writer := .finished, outbound := [] }
  | routed {id : Guid} :
      Moves s (.packet (some id))
        ({ s with packets := s.packets ++ [some id] }.deliver id s.packets.length)
  | unroutable : Moves s (.packet none) { s with packets := s.packets ++ [none] }
  | readerCloses {a : Action Guid} {at_ : Closing} {reader : Reader} :
      Moves s a { s.close at_ with reader := reader }
  | readerEnds {a : Action Guid} {reader : Reader} : Moves s a { s with reader := reader }
  | dropped : Moves s .dropConnection { s with dropped := true }

/-! ### The calls -/

section

variable {s s' : Connection Guid} {c : Nat}

theorem register_moves (h : step s (.register c) = some s') : Moves s (.register c) s' := by
  obtain ⟨call, hcall, h⟩ := Option.bind_eq_some_iff.mp h
  obtain ⟨hphase, h⟩ := Option.ite_none_right_eq_some.mp h
  by_cases hclosed : s.waitersClosed
  · rw [if_pos hclosed] at h
    cases h
    exact .finish hcall (.unarmed (.inr hphase) (.inl rfl))
  · rw [if_neg hclosed] at h
    cases h
    exact .register hcall hphase (Bool.eq_false_iff.mpr hclosed)

/-- A call wakes with the packet it was given, or because its sender is gone. -/
theorem receive_moves (h : step s (.receive c) = some s') : Moves s (.receive c) s' := by
  obtain ⟨call, hcall, h⟩ := Option.bind_eq_some_iff.mp h
  obtain ⟨hphase, h⟩ := Option.ite_none_right_eq_some.mp h
  cases hslot : call.slot <;> rw [hslot] at h
  case delivered packet =>
    cases h
    exact .finish hcall (.answered hphase hslot)
  case closed =>
    cases h
    exact .finish hcall (.woken hphase hslot)
  all_goals exact nomatch h

/-- Only a call that is in the map has a guard to drop. -/
theorem abandon_moves {r : Removal} (h : step s (.abandon c r) = some s') :
    Moves s (.abandon c r) s' := by
  obtain ⟨call, hcall, h⟩ := Option.bind_eq_some_iff.mp h
  cases hphase : call.phase <;> rw [hphase] at h
  case acquiring =>
    cases h
    exact .finish hcall (.unarmed (.inl hphase) (.inr rfl))
  case registering =>
    cases h
    exact .finish hcall (.unarmed (.inr hphase) (.inr rfl))
  case queueing =>
    cases h
    exact .abandon hcall (.inl hphase)
  case waiting =>
    cases h
    exact .abandon hcall (.inr hphase)
  all_goals exact nomatch h

/-! ### The writer -/

theorem takeCancellation_moves (h : step s .takeCancellation = some s') :
    Moves s .takeCancellation s' := by
  unfold step at h
  dsimp only at h
  split at h
  case h_1 hwriter hcancels =>
    cases h
    exact .takeCancellation hwriter hcancels
  case h_2 => exact nomatch h

theorem noCancellation_moves (h : step s .noCancellation = some s') :
    Moves s .noCancellation s' := by
  unfold step at h
  dsimp only at h
  split at h
  case h_1 hwriter hcancels =>
    cases h
    exact .noCancellation hwriter hcancels
  case h_2 => exact nomatch h

theorem takeRequest_moves (h : step s .takeRequest = some s') : Moves s .takeRequest s' := by
  unfold step at h
  dsimp only at h
  split at h
  case h_1 hwriter houtbound =>
    cases h
    exact .takeRequest hwriter houtbound
  case h_2 => exact nomatch h

theorem park_moves (h : step s .park = some s') : Moves s .park s' := by
  unfold step at h
  dsimp only at h
  split at h
  case h_1 hwriter houtbound =>
    cases h
    exact .idle hwriter houtbound (.inl rfl)
  case h_2 => exact nomatch h

theorem sendersGone_moves (h : step s .sendersGone = some s') : Moves s .sendersGone s' := by
  unfold step at h
  dsimp only at h
  split at h
  case h_1 hwriter houtbound =>
    obtain ⟨-, ⟨⟩⟩ := Option.ite_none_right_eq_some.mp h
    exact .idle hwriter houtbound (.inr rfl)
  case h_2 => exact nomatch h

theorem written_moves (h : step s .written = some s') : Moves s .written s' := by
  unfold step at h
  dsimp only at h
  split at h
  case h_1 hwriter =>
    cases h
    exact .requestWritten hwriter
  case h_2 hwriter =>
    cases h
    exact .cancellationWritten hwriter
  case h_3 => exact nomatch h

theorem writeFailed_moves (h : step s .writeFailed = some s') : Moves s .writeFailed s' := by
  unfold step at h
  dsimp only at h
  split at h
  case h_1 hwriter =>
    cases h
    exact .requestFailed hwriter
  case h_2 hwriter =>
    cases h
    exact .cancellationFailed hwriter
  case h_3 => exact nomatch h

/-- What is queued when the writer is through is dropped in two steps, the cancellations
first. -/
theorem writerCloses_moves (h : step s .writerCloses = some s') : Moves s .writerCloses s' := by
  unfold step at h
  dsimp only at h
  split at h
  case h_1 at_ hwriter =>
    cases hnext : at_.next <;> rw [hnext] at h
    case none =>
      cases h
      exact .cancelsDropped hwriter
    case some next =>
      cases h
      exact .writerCloses hwriter
  case h_2 hwriter =>
    cases h
    exact .outboundDropped hwriter
  case h_3 => exact nomatch h

/-! ### The reader -/

theorem packet_moves {id : Option Guid} (h : step s (.packet id) = some s') :
    Moves s (.packet id) s' := by
  obtain ⟨-, h⟩ := Option.ite_none_right_eq_some.mp h
  cases id with
  | none =>
    cases h
    exact .unroutable
  | some id =>
    cases h
    exact .routed

theorem readerCloses_moves (h : step s .readerCloses = some s') : Moves s .readerCloses s' := by
  unfold step at h
  dsimp only at h
  split at h
  case h_1 at_ hreader =>
    cases hnext : at_.next <;> rw [hnext] at h
    case none =>
      cases h
      exact .readerEnds
    case some next =>
      cases h
      exact .readerCloses
  case h_2 => exact nomatch h

end

/-- **Every step is a move.** The guards that no invariant needs are forgotten here: the queue's
room, the closed semaphore, the dropped connection. -/
theorem step_moves {s s' : Connection Guid} {a : Action Guid} (h : step s a = some s') :
    Moves s a s' := by
  cases a with
  | start id =>
    obtain ⟨-, ⟨⟩⟩ := Option.ite_none_right_eq_some.mp h
    exact .start id
  | acquire c =>
    obtain ⟨call, hcall, h⟩ := Option.bind_eq_some_iff.mp h
    obtain ⟨⟨hphase, hleft, -⟩, ⟨⟩⟩ := Option.ite_none_right_eq_some.mp h
    exact .acquire hcall hphase hleft
  | acquireRefused c =>
    obtain ⟨call, hcall, h⟩ := Option.bind_eq_some_iff.mp h
    obtain ⟨⟨hphase, -⟩, ⟨⟩⟩ := Option.ite_none_right_eq_some.mp h
    exact .finish hcall (.unarmed (.inl hphase) (.inl rfl))
  | register c => exact register_moves h
  | enqueue c =>
    obtain ⟨call, hcall, h⟩ := Option.bind_eq_some_iff.mp h
    obtain ⟨⟨hphase, -, hwriter⟩, ⟨⟩⟩ := Option.ite_none_right_eq_some.mp h
    exact .enqueue hcall hphase hwriter
  | enqueueRefused c r =>
    obtain ⟨call, hcall, h⟩ := Option.bind_eq_some_iff.mp h
    obtain ⟨⟨hphase, hwriter⟩, ⟨⟩⟩ := Option.ite_none_right_eq_some.mp h
    exact .enqueueRefused hcall hphase hwriter
  | receive c => exact receive_moves h
  | abandon c r => exact abandon_moves h
  | remove id =>
    obtain ⟨-, ⟨⟩⟩ := Option.ite_none_right_eq_some.mp h
    exact .remove
  | takeCancellation => exact takeCancellation_moves h
  | noCancellation => exact noCancellation_moves h
  | takeRequest => exact takeRequest_moves h
  | park => exact park_moves h
  | sendersGone => exact sendersGone_moves h
  | written => exact written_moves h
  | writeFailed => exact writeFailed_moves h
  | writerCloses => exact writerCloses_moves h
  | packet id => exact packet_moves h
  | readFailed =>
    obtain ⟨-, ⟨⟩⟩ := Option.ite_none_right_eq_some.mp h
    exact .readerEnds
  | readerCloses => exact readerCloses_moves h
  | dropConnection =>
    obtain ⟨-, ⟨⟩⟩ := Option.ite_none_right_eq_some.mp h
    exact .dropped
  | abortReader =>
    obtain ⟨-, ⟨⟩⟩ := Option.ite_none_right_eq_some.mp h
    exact .readerEnds

end Connection

end Ytsaurus.Rpc
