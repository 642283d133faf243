import Ytsaurus.Client.Commands
import Ytsaurus.Client.Transaction
import Ytsaurus.Lib.Transition

/-!
# `Client/TransactionHandle.lean` — a transaction's handle and its thread (`transaction.rs`)

A handle is made by a start or an attach, used by its owner, and dropped; meanwhile a thread pings
the transaction until it is told to stop. Both are one machine: an action is what the owner or the
thread does between two calls, and the answer to a call of either is an action as well, so a list
of actions is an interleaving, with any answers and any delays. Of time only what the code decides
by is left, the time that a start took; what a call returns to the owner is left out, and so are
the commands the owner sends through the handle's client.
-/

set_option autoImplicit false
set_option linter.dupNamespace false

namespace Ytsaurus.Client

open Yson (YsonValue YsonNode FloatText)
open Utf8 (fromUtf8Lossy)

namespace Client

open YsonBuild

/-! ## Orders -/

/-- `i64::try_from(timeout.as_millis()).unwrap_or(i64::MAX)`. -/
def timeoutMillis (timeout : Duration) : Int64 :=
  if timeout / 1000000 < 9223372036854775808 then Int64.ofNat (timeout / 1000000)
  else Int64.ofNat 9223372036854775807

def startTransactionOrder (c : Client) (timeout : Duration) : Order where
  transport := c.transport
  method := .post
  command := "start_transaction"
  parameters := map [("timeout", int (timeoutMillis timeout))]
  payload := .none
  repeatable := .withMutationId

/-- A command about one transaction. -/
def transactionOrder (c : Client) (command id : String) (repeatable : Repeatable) : Order where
  transport := c.transport
  method := .post
  command := command
  parameters := map [("transaction_id", string id)]
  payload := .none
  repeatable := repeatable

def pingOrder (c : Client) (id : String) : Order :=
  c.transactionOrder "ping_transaction" id .freely

/-- `#{id}/@timeout`. -/
def timeoutOrder (c : Client) (id : String) : Order :=
  c.readOrder "get" ("#" ++ id ++ "/@timeout")

end Client

/-! ## Reading the answers -/

section

variable [FloatText]

/-- The id of the transaction that was started. -/
def startedId (answer : Answer) : Except CallError String :=
  (answer.mapError .client).bind fun body =>
    (Client.valueField body "transaction_id").bind fun value =>
      match value.node with
      | .string bytes => .ok (fromUtf8Lossy bytes)
      | node => .error (.answer (.idNotAString node))

omit [FloatText] in
/-- The timeout of the transaction attached to. -/
def attachedTimeout (id : String) (value : YsonValue) : Except CallError Duration :=
  let millis : Option Nat := match value.node with
    | .int64 millis => if 0 < millis.toInt then some millis.toInt.toNat else none
    | .uint64 millis => if 0 < millis.toNat then some millis.toNat else none
    | _ => none
  match millis with
  | some millis => .ok (millis * 1000000)
  | none => .error (.answer (.timeoutNotPositive id value.node))

def readTimeout (id : String) (answer : Answer) : Except CallError Duration :=
  ((answer.mapError .client).bind fun body => Client.valueField body "value").bind
    (attachedTimeout id)

end

namespace Handle

/-! ## The machine -/

/-- How the handle was obtained, and so what dropping it does. -/
inductive Origin where
  | started
  | attached
  deriving DecidableEq, Repr

/-- What ends a transaction. -/
inductive Finish where
  | commit
  | abort
  deriving DecidableEq, Repr

def Finish.command : Finish → String
  | .commit => "commit_transaction"
  | .abort => "abort_transaction"

/-- `Transaction`. -/
structure Held where
  client : Client
  id : String
  done : Bool
  /-- Whether the handle still has its `KeepAlive`. -/
  keepAlive : Bool
  origin : Origin

/-- What the thread is made of: its client sends each ping once. -/
def Held.pingClient (h : Held) : Client := h.client.withoutRetries

def Held.finishOrder (h : Held) (finish : Finish) : Order :=
  h.client.transactionOrder finish.command h.id .withMutationId

/-- Where the owner stands. -/
inductive Owner where
  | starting (c : Client) (timeout : Duration)   -- `start_transaction` is under way
  | firstPing                                    -- the ping that was due is, before `start` returns
  | reading (c : Client) (id : String)           -- `@timeout` is, in `attach`
  | greeting (c : Client) (id : String)          -- the ping of `attach` is
  | holding                                      -- has the handle
  | pinging                                      -- `Transaction::ping` is under way
  | finishing (finish : Finish) (inDrop : Bool)  -- what ends the transaction is
  | joining                                      -- waits for the thread, in `detach`
  | dropping                                     -- about to run `Drop::drop`
  | gone

/-- Where the thread stands. -/
inductive Thread where
  | absent    -- not spawned, or it could not be
  | entering  -- about to look at the flag before the wait
  | waiting   -- waits on the condvar
  | due       -- saw no stop behind the wait
  | pinging   -- its ping is under way
  | ended
  deriving DecidableEq, Repr

inductive Who where
  | owner
  | thread
  deriving DecidableEq, Repr

/-- What happened, in order. -/
inductive Event where
  | sent (who : Who) (order : Order)
  | answered (who : Who) (order : Order) (answer : Answer)

structure State where
  owner : Owner
  handle : Option Held
  thread : Thread
  /-- What the owner and the thread share. -/
  stop : Bool
  lost : Bool
  log : List Event

/-- What the owner, the thread or the cluster does. -/
inductive Action where
  | commit
  | abort
  | ping
  | detach
  | drop
  /-- The owner's call is answered; the time since it was sent, and whether a thread can be
  spawned now. -/
  | answer (answer : Answer) (spent : Duration) (spawned : Bool)
  /-- `recv_timeout` returns: the thread has ended, or five seconds are over. -/
  | joined
  | destroy
  /-- The thread looks at the flag before its wait. -/
  | check
  /-- Its wait ends, and it looks at the flag again. -/
  | wake
  | send
  | pinged (answer : Answer)

/-- The action that asks for it. -/
def Finish.request : Finish → Action
  | .commit => .commit
  | .abort => .abort

/-- Whose step it is; an answer is a step of the one who waits for it. -/
def Action.who : Action → Who
  | .check | .wake | .send | .pinged _ => .thread
  | _ => .owner

namespace State

/-- `Transaction::start`, when its call is under way. -/
def start (c : Client) (timeout : Duration) : State where
  owner := .starting c timeout
  handle := none
  thread := .absent
  stop := false
  lost := false
  log := [.sent .owner (c.startTransactionOrder timeout)]

/-- `Transaction::attach`, when its first call is under way. -/
def attach (c : Client) (id : String) : State where
  owner := .reading c id
  handle := none
  thread := .absent
  stop := false
  lost := false
  log := [.sent .owner (c.timeoutOrder id)]

variable (s : State)

def say (events : List Event) : State := { s with log := s.log ++ events }

/-- `held`: the handle, with its thread. -/
def hold (c : Client) (id : String) (origin : Origin) (spawned : Bool) : State :=
  { s with
    handle := some ⟨c.withTransaction id, id, false, spawned, origin⟩
    thread := if spawned then .entering else .absent }

/-- `stop_pinging`, on this handle. -/
def stopPinging (h : Held) : State :=
  { s with
    handle := some { h with keepAlive := false }
    stop := s.stop || h.keepAlive }

/-- The beginning of `finish`. -/
def finish (h : Held) (finish : Finish) (inDrop : Bool) : State :=
  if h.done then
    { s.stopPinging h with owner := if inDrop then .gone else .dropping }
  else
    { s.say [.sent .owner (h.finishOrder finish)] with
      handle := some h
      owner := .finishing finish inDrop }

/-- `Drop::drop`. -/
def destroy (h : Held) : State :=
  if h.done then { s.stopPinging h with owner := .gone }
  else
    match h.origin with
    | .attached => { s.stopPinging h with owner := .gone }
    -- one attempt: a destructor must not block
    | .started => s.finish { h with client := h.client.withoutRetries } .abort true

/-- `detach`. -/
def detach (h : Held) : State :=
  { s.stopPinging { h with done := true } with
    owner := if h.keepAlive then .joining else .dropping }

/-- The owner's call is answered. -/
def hear [FloatText] (answer : Answer) (spent : Duration) (spawned : Bool) : Option State :=
  match s.owner, s.handle with
  | .starting c timeout, _ =>
    let s := s.say [.answered .owner (c.startTransactionOrder timeout) answer]
    match startedId answer with
    | .error _ => some { s with owner := .gone }
    | .ok id =>
      if spent < pingInterval timeout then
        some { s.hold c id .started spawned with owner := .holding }
      else
        -- the first ping is due, so it is sent before the handle is returned
        some { (s.hold c id .started spawned).say
          [.sent .owner ((c.withTransaction id).pingOrder id)] with owner := .firstPing }
  | .firstPing, some h =>
    let s := s.say [.answered .owner (h.client.pingOrder h.id) answer]
    match answer with
    | .ok _ => some { s with owner := .holding }
    | .error _ => some { s with owner := .dropping }
  | .reading c id, _ =>
    let s := s.say [.answered .owner (c.timeoutOrder id) answer]
    match readTimeout id answer with
    | .error _ => some { s with owner := .gone }
    | .ok _ => some { s.say [.sent .owner (c.pingOrder id)] with owner := .greeting c id }
  | .greeting c id, _ =>
    let s := s.say [.answered .owner (c.pingOrder id) answer]
    match answer with
    | .error _ => some { s with owner := .gone }
    | .ok _ => some { s.hold c id .attached spawned with owner := .holding }
  | .pinging, some h =>
    some { s.say [.answered .owner (h.client.pingOrder h.id) answer] with owner := .holding }
  | .finishing finish inDrop, some h =>
    let s := s.say [.answered .owner (h.finishOrder finish) answer]
    -- a failed commit still holds its locks; a failed abort is finished
    let h := { h with done := answer.isOk || decide (finish = .abort) }
    some { s.stopPinging h with owner := if inDrop then .gone else .dropping }
  | _, _ => none

/-- What the owner of a handle does with it. -/
def move (h : Held) : Action → Option State
  | .commit => some (s.finish h .commit false)
  | .abort => some (s.finish h .abort false)
  | .ping =>
    some { s.say [.sent .owner (h.client.pingOrder h.id)] with owner := .pinging }
  | .detach => some (s.detach h)
  | .drop => some { s with owner := .dropping }
  | _ => none

/-- What the thread does. -/
def turn (h : Held) (action : Action) : Option State :=
  match s.thread, action with
  | .entering, .check => some { s with thread := if s.stop then .ended else .waiting }
  | .waiting, .wake => some { s with thread := if s.stop then .ended else .due }
  | .due, .send =>
    some { s.say [.sent .thread (h.pingClient.pingOrder h.id)] with thread := .pinging }
  | .pinging, .pinged answer =>
    let s := s.say [.answered .thread (h.pingClient.pingOrder h.id) answer]
    match answer with
    | .ok _ => some { s with thread := .entering }
    | .error e =>
      if transactionIsGone e then some { s with thread := .ended, lost := true }
      else some { s with thread := .entering }
  | _, _ => none

/-- One step of the owner or of the thread. -/
def step [FloatText] (s : State) (action : Action) : Option State :=
  match action with
  | .answer answer spent spawned => s.hear answer spent spawned
  | .joined =>
    match s.owner with
    | .joining => some { s with owner := .dropping }
    | _ => none
  | .destroy =>
    match s.owner, s.handle with
    | .dropping, some h => some (s.destroy h)
    | _, _ => none
  | .check | .wake | .send | .pinged _ => s.handle.bind fun h => s.turn h action
  | _ =>
    match s.owner, s.handle with
    | .holding, some h => s.move h action
    | _, _ => none

/-- `is_lost`. -/
def isLost : Bool :=
  match s.handle with
  | some h => h.keepAlive && s.lost
  | none => false

end State

end Handle

end Ytsaurus.Client
