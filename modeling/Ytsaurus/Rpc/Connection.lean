import Ytsaurus.Lib.Transition

/-!
# `Rpc/Connection.lean` — one connection to a proxy (`connection.rs`)

The tasks of one `Connection` as a machine: every call of `invoke_raw`, the removals its
guards hand to the runtime, the writer and the reader. An action is what one task does
between two awaits (or under the lock), so a list of actions is an interleaving.

A call is known by its place in `calls`; `slot` is its oneshot channel. What has been
written to the socket and what has arrived from it are kept as histories, as are the
cancellations made. Payloads do not matter here and are left out: a response is the number
of the packet that carried it.
-/

set_option autoImplicit false

namespace Ytsaurus.Rpc

/-- How many outbound messages may be queued before senders wait. -/
def OUTBOUND_QUEUE : Nat := 64

/-- How many calls may be in flight on one connection. -/
def MAX_IN_FLIGHT : Nat := 256

/-- How many cancellations may be queued. -/
def CANCEL_QUEUE : Nat := MAX_IN_FLIGHT

/-- Where `invoke_raw` stands. -/
inductive Phase where
  | acquiring   -- waiting for an in-flight permit
  | registering -- waiting for the lock
  | queueing    -- `self.outbound.send(packet).await`
  | waiting     -- `receiver.await`
  | answered (packet : Nat)
  | refused     -- returned `ConnectionClosed`
  | abandoned   -- timed out, or the future was dropped
  deriving DecidableEq, Repr

/-- The oneshot channel of a call. -/
inductive Slot where
  | unregistered
  | «open»
  | delivered (packet : Nat)
  | closed      -- the sender was dropped
  deriving DecidableEq, Repr

/-- A call of `invoke_raw`, with its guard. -/
structure Call (Guid : Type) where
  requestId : Guid
  phase : Phase
  /-- Whether it holds an in-flight permit. -/
  permit : Bool
  /-- The guard's `sent`: the request reached the outbound queue. -/
  sent : Bool
  slot : Slot
  deriving DecidableEq, Repr

/-- The future is gone, and with it the receiver of the call's channel. -/
def Call.ended {Guid : Type} (call : Call Guid) : Bool :=
  match call.phase with
  | .answered _ | .refused | .abandoned => true
  | _ => false

structure Cancellation (Guid : Type) where
  call : Nat
  requestId : Guid
  deriving DecidableEq, Repr

inductive Outgoing (Guid : Type) where
  | request (requestId : Guid)
  | cancellation (c : Cancellation Guid)
  deriving DecidableEq, Repr

/-- The steps both loops end with, each named by what was done last. -/
inductive Closing where
  | broken          -- out of the loop
  | flagged         -- `closed.store(true)`
  | semaphoreClosed -- `in_flight.close()`
  | waitersClosed   -- `pending.lock().await.close()`
  deriving DecidableEq, Repr

def Closing.next : Closing → Option Closing
  | .broken => some .flagged
  | .flagged => some .semaphoreClosed
  | .semaphoreClosed => some .waitersClosed
  | .waitersClosed => none

/-- `write_loop`. The `select!` is biased: it looks at the cancellations first, and at the
requests only when it found none. -/
inductive Writer (Guid : Type) where
  | selecting
  | noCancellation
  | sending (o : Outgoing Guid)
  | closing (at_ : Closing)
  | cancelsDropped -- the receiver of `cancels` is dropped
  | finished       -- and that of `outbound`
  deriving DecidableEq, Repr

/-- `read_loop`. -/
inductive Reader where
  | receiving
  | closing (at_ : Closing)
  | finished
  deriving DecidableEq, Repr

structure Connection (Guid : Type) where
  calls : List (Call Guid)
  /-- `in_flight`: the permits left, and whether the semaphore is closed. -/
  permits : Nat
  semaphoreClosed : Bool
  /-- `Waiters`. -/
  waitersClosed : Bool
  byRequest : List (Guid × Nat)
  /-- The removals guards have handed to the runtime. -/
  removals : List Guid
  outbound : List Guid
  cancels : List (Cancellation Guid)
  writer : Writer Guid
  reader : Reader
  closed : Bool
  /-- The `Connection` itself was dropped. -/
  dropped : Bool
  /-- What has been written to the socket, and which message packets have arrived (with the
  request id of those that can be routed). -/
  wire : List (Outgoing Guid)
  packets : List (Option Guid)
  /-- The calls of which a cancellation was made. -/
  cancelled : List Nat
  /-- `try_send` found the cancellation queue full. -/
  overflowed : Bool
  /-- The guard had no permit to take. -/
  panicked : Bool
  deriving DecidableEq, Repr

namespace Connection

variable {Guid : Type}

/-- `from_bus`. -/
def fromBus : Connection Guid where
  calls := []
  permits := MAX_IN_FLIGHT
  semaphoreClosed := false
  waitersClosed := false
  byRequest := []
  removals := []
  outbound := []
  cancels := []
  writer := .selecting
  reader := .receiving
  closed := false
  dropped := false
  wire := []
  packets := []
  cancelled := []
  overflowed := false
  panicked := false

def update (s : Connection Guid) (c : Nat) (call : Call Guid) : Connection Guid :=
  { s with calls := s.calls.set c call }

/-- The sender of a waiting call is dropped. -/
def senderDropped (call : Call Guid) : Call Guid :=
  if call.slot = .open then { call with slot := .closed } else call

variable [DecidableEq Guid]

def lookup (s : Connection Guid) (id : Guid) : Option Nat :=
  (s.byRequest.find? fun e => e.1 = id).map Prod.snd

/-- `by_request.remove(&id)`, and what is done with the sender found there. -/
def takeWaiter (s : Connection Guid) (id : Guid) (use : Call Guid → Call Guid) :
    Connection Guid :=
  { s with
    byRequest := s.byRequest.filter fun e => e.1 ≠ id
    calls := match s.lookup id with
      | none => s.calls
      | some c => s.calls.modify c use }

/-- `by_request.remove(&id)` with the sender dropped. -/
def removeWaiter (s : Connection Guid) (id : Guid) : Connection Guid :=
  s.takeWaiter id senderDropped

/-- `by_request.insert(id, sender)`: a sender already there is dropped. -/
def insertWaiter (s : Connection Guid) (id : Guid) (c : Nat) : Connection Guid :=
  let s := s.removeWaiter id
  { s with byRequest := (id, c) :: s.byRequest }

/-- Under the lock, the sender of a routed response is taken out and used. A call whose
receiver is gone gets nothing. -/
def deliver (s : Connection Guid) (id : Guid) (packet : Nat) : Connection Guid :=
  s.takeWaiter id fun call =>
    if call.ended then senderDropped call else { call with slot := .delivered packet }

omit [DecidableEq Guid] in
/-- `Waiters::close`. -/
def closeWaiters (s : Connection Guid) : Connection Guid :=
  { s with
    waitersClosed := true
    byRequest := []
    calls := s.byRequest.foldl (fun calls e => calls.modify e.2 senderDropped) s.calls }

/-- How a guard's removal of its entry is carried out: by a task, on the spot (no runtime,
lock free), or not at all (no runtime, lock held). -/
inductive Removal where
  | spawned
  | immediate
  | skipped
  deriving DecidableEq, Repr

def guardRemoval (s : Connection Guid) (id : Guid) : Removal → Connection Guid
  | .spawned => { s with removals := id :: s.removals }
  | .immediate => s.removeWaiter id
  | .skipped => s

/-- `self.cancels.try_send(cancellation)`; a cancellation that is not queued is dropped, and
its permit with it. -/
def trySend (s : Connection Guid) (c : Cancellation Guid) : Connection Guid :=
  let s := { s with cancelled := c.call :: s.cancelled }
  if s.writer = .cancelsDropped ∨ s.writer = .finished then { s with permits := s.permits + 1 }
  else if s.cancels.length < CANCEL_QUEUE then { s with cancels := s.cancels ++ [c] }
  else { s with permits := s.permits + 1, overflowed := true }

omit [DecidableEq Guid] in
/-- The end of a call with nothing to clean up; its permit, if it has one, is released. -/
def finish (s : Connection Guid) (c : Nat) (call : Call Guid) (phase : Phase) : Connection Guid :=
  { s.update c { call with phase := phase, permit := false } with
    permits := s.permits + call.permit.toNat }

/-- The end of a call that drops a guard not completed (`PendingGuard::drop`). -/
def dropGuard (s : Connection Guid) (c : Nat) (call : Call Guid) (phase : Phase) (r : Removal) :
    Connection Guid :=
  if call.sent then
    let ended := s.update c { call with phase := phase, permit := false }
    let removed := ended.guardRemoval call.requestId r
    if call.permit then removed.trySend ⟨c, call.requestId⟩ else { removed with panicked := true }
  else (s.finish c call phase).guardRemoval call.requestId r

end Connection

/-- What one task does between two awaits. -/
inductive Action (Guid : Type) where
  /-- A call begins; its header carries a request id. -/
  | start (id : Guid)
  | acquire (c : Nat)
  /-- The semaphore is closed. -/
  | acquireRefused (c : Nat)
  | register (c : Nat)
  | enqueue (c : Nat)
  /-- The outbound receiver is gone. -/
  | enqueueRefused (c : Nat) (r : Connection.Removal)
  | receive (c : Nat)
  /-- The deadline passes, or the caller drops the future. -/
  | abandon (c : Nat) (r : Connection.Removal)
  /-- A removal task runs. -/
  | remove (id : Guid)
  | takeCancellation
  | noCancellation
  | takeRequest
  /-- Neither queue has a message yet. -/
  | park
  /-- Neither queue will have one: every sender is gone. -/
  | sendersGone
  | written
  | writeFailed
  | writerCloses
  /-- A message packet arrives; `none` cannot be routed. -/
  | packet (id : Option Guid)
  | readFailed
  | readerCloses
  | dropConnection
  /-- The abort of a dropped `Connection` reaches the reader. -/
  | abortReader
  deriving DecidableEq, Repr

namespace Connection

variable {Guid : Type} [DecidableEq Guid]

omit [DecidableEq Guid] in
/-- The common end of both loops: the step after `at_`. -/
def close (s : Connection Guid) : Closing → Connection Guid
  | .broken => { s with closed := true }
  | .flagged => { s with semaphoreClosed := true }
  | .semaphoreClosed => s.closeWaiters
  | .waitersClosed => s

def step (s : Connection Guid) : Action Guid → Option (Connection Guid)
  | .start id =>
    if s.dropped = false then
      some { s with calls := s.calls ++ [⟨id, .acquiring, false, false, .unregistered⟩] }
    else none
  | .acquire c => do
    let call ← s.calls[c]?
    if call.phase = .acquiring ∧ 0 < s.permits ∧ s.semaphoreClosed = false then
      some ({ s with permits := s.permits - 1 }.update c
        { call with phase := .registering, permit := true })
    else none
  | .acquireRefused c => do
    let call ← s.calls[c]?
    if call.phase = .acquiring ∧ s.semaphoreClosed then some (s.finish c call .refused) else none
  | .register c => do
    let call ← s.calls[c]?
    if call.phase = .registering then
      if s.waitersClosed then some (s.finish c call .refused)
      else
        some ((s.insertWaiter call.requestId c).update c
          { call with phase := .queueing, slot := .open })
    else none
  | .enqueue c => do
    let call ← s.calls[c]?
    if call.phase = .queueing ∧ s.outbound.length < OUTBOUND_QUEUE ∧ s.writer ≠ .finished then
      some ({ s with outbound := s.outbound ++ [call.requestId] }.update c
        { call with phase := .waiting, sent := true })
    else none
  | .enqueueRefused c r => do
    let call ← s.calls[c]?
    if call.phase = .queueing ∧ s.writer = .finished then some (s.dropGuard c call .refused r)
    else none
  | .receive c => do
    let call ← s.calls[c]?
    if call.phase = .waiting then
      match call.slot with
      | .delivered packet => some (s.finish c call (.answered packet))
      | .closed => some (s.finish c call .refused)
      | _ => none
    else none
  | .abandon c r => do
    let call ← s.calls[c]?
    match call.phase with
    | .acquiring | .registering => some (s.finish c call .abandoned)
    | .queueing | .waiting => some (s.dropGuard c call .abandoned r)
    | _ => none
  | .remove id =>
    if id ∈ s.removals then some { s.removeWaiter id with removals := s.removals.erase id } else none
  | .takeCancellation =>
    match s.writer, s.cancels with
    | .selecting, c :: cancels =>
      some { s with writer := .sending (.cancellation c), cancels := cancels }
    | _, _ => none
  | .noCancellation =>
    match s.writer, s.cancels with
    | .selecting, [] => some { s with writer := .noCancellation }
    | _, _ => none
  | .takeRequest =>
    match s.writer, s.outbound with
    | .noCancellation, id :: outbound =>
      some { s with writer := .sending (.request id), outbound := outbound }
    | _, _ => none
  | .park =>
    match s.writer, s.outbound with
    | .noCancellation, [] => some { s with writer := .selecting }
    | _, _ => none
  | .sendersGone =>
    match s.writer, s.outbound with
    | .noCancellation, [] => if s.dropped then some { s with writer := .closing .broken } else none
    | _, _ => none
  | .written =>
    match s.writer with
    | .sending (.request id) =>
      some { s with writer := .selecting, wire := s.wire ++ [.request id] }
    | .sending (.cancellation c) =>
      some { s with
        writer := .selecting
        permits := s.permits + 1
        wire := s.wire ++ [.cancellation c] }
    | _ => none
  | .writeFailed =>
    match s.writer with
    | .sending (.request _) => some { s with writer := .closing .broken }
    | .sending (.cancellation _) =>
      some { s with writer := .closing .broken, permits := s.permits + 1 }
    | _ => none
  | .writerCloses =>
    match s.writer with
    | .closing at_ =>
      match at_.next with
      | some next => some { s.close at_ with writer := .closing next }
      -- the receivers go with the task; what is queued in them is dropped
      | none => some { s with
          writer := .cancelsDropped, cancels := [], permits := s.permits + s.cancels.length }
    | .cancelsDropped => some { s with writer := .finished, outbound := [] }
    | _ => none
  | .packet id =>
    if s.reader = .receiving then
      let s' := { s with packets := s.packets ++ [id] }
      match id with
      | some id => some (s'.deliver id s.packets.length)
      | none => some s'
    else none
  | .readFailed => if s.reader = .receiving then some { s with reader := .closing .broken } else none
  | .readerCloses =>
    match s.reader with
    | .closing at_ =>
      match at_.next with
      | some next => some { s.close at_ with reader := .closing next }
      | none => some { s with reader := .finished }
    | _ => none
  | .dropConnection =>
    -- every live call borrows the connection
    if s.calls.all Call.ended then some { s with dropped := true } else none
  | .abortReader => if s.dropped then some { s with reader := .finished } else none

end Connection

end Ytsaurus.Rpc
