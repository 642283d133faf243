import Ytsaurus.Client.TransactionHandle
import Ytsaurus.Lib.Transition
import Ytsaurus.Proof.Scalars

/-!
# `Proof/Client/HandleSteps.lean` — what a step of a handle or its thread can do

The machine of `Client/TransactionHandle.lean` is a step function over a dozen actions, most of
which are refused in most states. Every invariant about it would have to take the function apart
again, so that is done here once: `Stepped` has a constructor for each thing that can happen, with
what was done, where it can be done and the state that comes of it, and `stepped` says that nothing
else can. An invariant is then a case split over `Stepped`.

What is known of an answer is kept only as far as something is proved from it. That a ping of the
thread was answered with "gone" or was not is kept, because the end of the thread turns on it; the
id in the answer to a start and the timeout in the answer to an attach are not, and the constructors
hold for any.

At the end stand the runs that the results are tried on: a commit that fails and is aborted on
drop, one that succeeds while a ping is due, and a transaction that was attached to and left.
-/

set_option autoImplicit false

namespace Ytsaurus.Client.Handle

open Transition
open Yson (FloatText)

/-! ## Where the owner stands -/

/-- The owner has stopped the pings, or never had a handle. -/
def Owner.past : Owner → Bool
  | .finishing .abort true | .joining | .dropping | .gone => true
  | _ => false

/-- The handle is still to be made. -/
def Owner.before : Owner → Bool
  | .starting _ _ | .reading _ _ | .greeting _ _ => true
  | _ => false

/-- A handle that is about to be made. -/
inductive Initial (c : Client) : Origin → State → Prop
  | start (timeout : Duration) : Initial c .started (.start c timeout)
  | attach (id : String) : Initial c .attached (.attach c id)

/-! ## What a step can do -/

/-- The steps, one by one: what is done, where it can be done, and what comes of it. -/
inductive Stepped (s : State) : Action → State → Prop
  | notStarted {c : Client} {timeout : Duration} {spent : Duration} {spawned : Bool}
      (answer : Answer) (howner : s.owner = .starting c timeout) :
      Stepped s (.answer answer spent spawned)
        { s.say [.answered .owner (c.startTransactionOrder timeout) answer] with owner := .gone }
  | started {c : Client} {timeout : Duration} {spent : Duration} (answer : Answer) (id : String)
      (spawned : Bool) (howner : s.owner = .starting c timeout) :
      Stepped s (.answer answer spent spawned)
        { (s.say [.answered .owner (c.startTransactionOrder timeout) answer]).hold c id .started
            spawned with
          owner := .holding }
  | startedLate {c : Client} {timeout : Duration} {spent : Duration} (answer : Answer) (id : String)
      (spawned : Bool) (howner : s.owner = .starting c timeout) :
      Stepped s (.answer answer spent spawned)
        { ((s.say [.answered .owner (c.startTransactionOrder timeout) answer]).hold c id .started
            spawned).say [.sent .owner ((c.withTransaction id).pingOrder id)] with
          owner := .firstPing }
  | firstPinged {h : Held} {spent : Duration} {spawned : Bool} (body : List UInt8)
      (howner : s.owner = .firstPing) (hhandle : s.handle = some h) :
      Stepped s (.answer (.ok body) spent spawned)
        { s.say [.answered .owner (h.client.pingOrder h.id) (.ok body)] with owner := .holding }
  | firstLost {h : Held} {spent : Duration} {spawned : Bool} (e : ClientError)
      (howner : s.owner = .firstPing) (hhandle : s.handle = some h) :
      Stepped s (.answer (.error e) spent spawned)
        { s.say [.answered .owner (h.client.pingOrder h.id) (.error e)] with owner := .dropping }
  | unread {c : Client} {id : String} {spent : Duration} {spawned : Bool} (answer : Answer)
      (howner : s.owner = .reading c id) :
      Stepped s (.answer answer spent spawned)
        { s.say [.answered .owner (c.timeoutOrder id) answer] with owner := .gone }
  | read {c : Client} {id : String} {spent : Duration} {spawned : Bool} (answer : Answer)
      (howner : s.owner = .reading c id) :
      Stepped s (.answer answer spent spawned)
        { (s.say [.answered .owner (c.timeoutOrder id) answer]).say
            [.sent .owner (c.pingOrder id)] with
          owner := .greeting c id }
  | ungreeted {c : Client} {id : String} {spent : Duration} {spawned : Bool} (e : ClientError)
      (howner : s.owner = .greeting c id) :
      Stepped s (.answer (.error e) spent spawned)
        { s.say [.answered .owner (c.pingOrder id) (.error e)] with owner := .gone }
  | greeted {c : Client} {id : String} {spent : Duration} (body : List UInt8) (spawned : Bool)
      (howner : s.owner = .greeting c id) :
      Stepped s (.answer (.ok body) spent spawned)
        { (s.say [.answered .owner (c.pingOrder id) (.ok body)]).hold c id .attached spawned with
          owner := .holding }
  | ponged {h : Held} {spent : Duration} {spawned : Bool} (answer : Answer)
      (howner : s.owner = .pinging) (hhandle : s.handle = some h) :
      Stepped s (.answer answer spent spawned)
        { s.say [.answered .owner (h.client.pingOrder h.id) answer] with owner := .holding }
  | finished {h : Held} {finish : Finish} {inDrop : Bool} {spent : Duration} {spawned : Bool}
      (answer : Answer) (howner : s.owner = .finishing finish inDrop)
      (hhandle : s.handle = some h) :
      Stepped s (.answer answer spent spawned)
        { (s.say [.answered .owner (h.finishOrder finish) answer]).stopPinging
            { h with done := answer.isOk || decide (finish = .abort) } with
          owner := if inDrop then .gone else .dropping }
  | asked {h : Held} {action : Action} (finish : Finish) (haction : action = finish.request)
      (howner : s.owner = .holding) (hhandle : s.handle = some h) :
      Stepped s action (s.finish h finish false)
  | pinged {h : Held} (howner : s.owner = .holding) (hhandle : s.handle = some h) :
      Stepped s .ping { s.say [.sent .owner (h.client.pingOrder h.id)] with owner := .pinging }
  | detached {h : Held} (howner : s.owner = .holding) (hhandle : s.handle = some h) :
      Stepped s .detach (s.detach h)
  | dropped {h : Held} (howner : s.owner = .holding) (hhandle : s.handle = some h) :
      Stepped s .drop { s with owner := .dropping }
  | joined (howner : s.owner = .joining) : Stepped s .joined { s with owner := .dropping }
  | destroyed {h : Held} (howner : s.owner = .dropping) (hhandle : s.handle = some h) :
      Stepped s .destroy (s.destroy h)
  | checked (hthread : s.thread = .entering) :
      Stepped s .check { s with thread := if s.stop then .ended else .waiting }
  | woken (hthread : s.thread = .waiting) :
      Stepped s .wake { s with thread := if s.stop then .ended else .due }
  | threadSent {h : Held} (hthread : s.thread = .due) (hhandle : s.handle = some h) :
      Stepped s .send
        { s.say [.sent .thread (h.pingClient.pingOrder h.id)] with thread := .pinging }
  | threadAnswered {h : Held} (answer : Answer) (hthread : s.thread = .pinging)
      (hhandle : s.handle = some h)
      (hlive : ∀ e, answer = .error e → transactionIsGone e = false) :
      Stepped s (.pinged answer)
        { s.say [.answered .thread (h.pingClient.pingOrder h.id) answer] with thread := .entering }
  | threadLost {h : Held} (e : ClientError) (hthread : s.thread = .pinging)
      (hhandle : s.handle = some h) (hgone : transactionIsGone e) :
      Stepped s (.pinged (.error e))
        { s.say [.answered .thread (h.pingClient.pingOrder h.id) (.error e)] with
          thread := .ended, lost := true }

theorem stepped_of_hear [FloatText] {s t : State} {answer : Answer} {spent : Duration} {spawned : Bool}
    (h : s.hear answer spent spawned = some t) : Stepped s (.answer answer spent spawned) t := by
  unfold State.hear at h
  split at h
  · rename_i c timeout howner
    dsimp only at h
    split at h
    · cases h
      exact .notStarted answer howner
    · rename_i id _
      split at h
      · cases h
        exact .started answer id spawned howner
      · cases h
        exact .startedLate answer id spawned howner
  · rename_i held howner hhandle
    cases answer with
    | ok body =>
      cases h
      exact .firstPinged body howner hhandle
    | error e =>
      cases h
      exact .firstLost e howner hhandle
  · rename_i c id howner
    dsimp only at h
    split at h
    · cases h
      exact .unread answer howner
    · cases h
      exact .read answer howner
  · rename_i c id howner
    cases answer with
    | error e =>
      cases h
      exact .ungreeted e howner
    | ok body =>
      cases h
      exact .greeted body spawned howner
  · rename_i held howner hhandle
    cases h
    exact .ponged answer howner hhandle
  · rename_i finish inDrop held howner hhandle
    cases h
    exact .finished answer howner hhandle
  · cases h

theorem stepped_of_turn {s t : State} {held : Held} {action : Action}
    (hhandle : s.handle = some held) (h : s.turn held action = some t) :
    Stepped s action t := by
  unfold State.turn at h
  split at h
  · rename_i hthread
    cases h
    exact .checked hthread
  · rename_i hthread
    cases h
    exact .woken hthread
  · rename_i hthread
    cases h
    exact .threadSent hthread hhandle
  · rename_i answer hthread
    cases answer with
    | ok body =>
      cases h
      refine .threadAnswered (.ok body) hthread hhandle ?_
      intro e he
      cases he
    | error e =>
      dsimp only at h
      split at h
      · rename_i hgone
        cases h
        exact .threadLost e hthread hhandle hgone
      · rename_i hlive
        cases h
        refine .threadAnswered (.error e) hthread hhandle ?_
        intro e' he
        cases he
        exact Bool.eq_false_iff.mpr hlive
  · cases h

theorem stepped_of_move {s t : State} {held : Held} {action : Action}
    (howner : s.owner = .holding) (hhandle : s.handle = some held)
    (h : s.move held action = some t) : Stepped s action t := by
  unfold State.move at h
  split at h
  · cases h
    exact .asked .commit rfl howner hhandle
  · cases h
    exact .asked .abort rfl howner hhandle
  · cases h
    exact .pinged howner hhandle
  · cases h
    exact .detached howner hhandle
  · cases h
    exact .dropped howner hhandle
  · cases h

theorem stepped_of_thread {s t : State} {action : Action}
    (h : (s.handle.bind fun held => s.turn held action) = some t) : Stepped s action t := by
  obtain ⟨held, hhandle, hturn⟩ := Option.bind_eq_some_iff.mp h
  exact stepped_of_turn hhandle hturn

/-- **Whatever is done in whatever order, each step is one of these.** -/
theorem stepped [FloatText] {s t : State} {action : Action} (h : s.step action = some t) :
    Stepped s action t := by
  cases action with
  | answer answer spent spawned => exact stepped_of_hear h
  | joined =>
    unfold State.step at h
    dsimp only at h
    split at h
    · rename_i howner
      cases h
      exact .joined howner
    · cases h
  | destroy =>
    unfold State.step at h
    dsimp only at h
    split at h
    · rename_i held howner hhandle
      cases h
      exact .destroyed howner hhandle
    · cases h
  | check => exact stepped_of_thread h
  | wake => exact stepped_of_thread h
  | send => exact stepped_of_thread h
  | pinged answer => exact stepped_of_thread h
  | _ =>
    unfold State.step at h
    dsimp only at h
    split at h
    · rename_i held howner hhandle
      exact stepped_of_move howner hhandle h
    · cases h

/-! ## Some runs -/

section

variable [FloatText] {c : Client}

theorem step_started {timeout spent : Duration} {answer : Answer} {id : String}
    (spawned : Bool) (hid : startedId answer = .ok id) (hspent : spent < pingInterval timeout) :
    (State.start c timeout).step (.answer answer spent spawned) =
      some { ((State.start c timeout).say
          [.answered .owner (c.startTransactionOrder timeout) answer]).hold c id .started spawned with
        owner := .holding } := by
  show (State.start c timeout).hear answer spent spawned = _
  unfold State.hear State.start
  dsimp only
  rw [hid]
  dsimp only
  rw [if_pos hspent]

theorem step_reading {answer : Answer} {id : String} {timeout spent : Duration} {spawned : Bool}
    (htimeout : readTimeout id answer = .ok timeout) :
    (State.attach c id).step (.answer answer spent spawned) =
      some { ((State.attach c id).say [.answered .owner (c.timeoutOrder id) answer]).say
          [.sent .owner (c.pingOrder id)] with
        owner := .greeting c id } := by
  show (State.attach c id).hear answer spent spawned = _
  unfold State.hear State.attach
  dsimp only
  rw [htimeout]

end

theorem ok_of_toOption {ε α : Type} {x : Except ε α} {a : α} (h : x.toOption = some a) :
    x = .ok a := by
  cases x with
  | error e => cases h
  | ok b =>
    cases h
    rfl

def begun : Client := ⟨.new ['a'] none true none false 0, true, "//cache"⟩

def idText : List UInt8 := "\x7btransaction_id=\"1-2-3-4\"\x7d".toUTF8.toList

def timeoutText : List UInt8 := "\x7bvalue=30000\x7d".toUTF8.toList

theorem startedId_idText : @startedId Yson.plainFloatText (.ok idText) = .ok "1-2-3-4" :=
  ok_of_toOption (by decide +kernel)

theorem readTimeout_timeoutText :
    @readTimeout Yson.plainFloatText "1-2-3-4" (.ok timeoutText) = .ok (secs 30) :=
  ok_of_toOption (by decide +kernel)

def refusal : ClientError := .http "commit_transaction" 503 ""

def noSuchTransaction : ClientError :=
  .cluster "ping_transaction" 11000 "No such transaction 1-2-3-4" ""

/-- A commit that fails, with a ping of the thread under way all the while; the handle is dropped
then, and aborts. -/
def failedCommit : List Action :=
  [.answer (.ok idText) 0 true, .check, .wake, .send, .commit, .answer (.error refusal) 0 true,
    .pinged (.ok []), .destroy, .answer (.ok []) 0 true]

theorem failedCommit_run :
    ∃ s, play (@State.step Yson.plainFloatText) anySchedule (.start begun (secs 30)) failedCommit =
        some s ∧ s.owner = .gone ∧ s.stop = true ∧ s.thread = .entering := by
  let _ : FloatText := Yson.plainFloatText
  have hspent : (0 : Nat) < pingInterval (secs 30) := by decide
  exact ⟨_, (play_cons _ trivial (step_started true startedId_idText hspent)).trans rfl, rfl, rfl,
    rfl⟩

/-- A commit that succeeds where the thread is about to send a ping. -/
def committed : List Action :=
  [.answer (.ok idText) 0 true, .check, .wake, .commit, .answer (.ok []) 0 true]

theorem committed_run :
    ∃ s, play (@State.step Yson.plainFloatText) anySchedule (.start begun (secs 30)) committed =
        some s ∧ s.stop = true ∧ s.thread = .due := by
  let _ : FloatText := Yson.plainFloatText
  have hspent : (0 : Nat) < pingInterval (secs 30) := by decide
  exact ⟨_, (play_cons _ trivial (step_started true startedId_idText hspent)).trans rfl, rfl, rfl⟩

/-- A commit of a transaction that a ping has found to be gone. -/
def lateCommit : List Action :=
  [.answer (.ok idText) 0 true, .check, .wake, .send, .pinged (.error noSuchTransaction), .commit]

theorem lateCommit_run :
    ∃ s, play (@State.step Yson.plainFloatText) anySchedule (.start begun (secs 30)) lateCommit =
        some s ∧ s.owner = .finishing .commit false ∧ s.thread = .ended ∧
      .answered .thread ((begun.withTransaction "1-2-3-4").withoutRetries.pingOrder "1-2-3-4")
        (.error noSuchTransaction) ∈ s.log := by
  let _ : FloatText := Yson.plainFloatText
  have hspent : (0 : Nat) < pingInterval (secs 30) := by decide
  refine ⟨_, (play_cons _ trivial (step_started true startedId_idText hspent)).trans rfl, rfl, rfl,
    ?_⟩
  apply List.mem_append_left
  exact List.mem_append_right _ List.mem_cons_self

/-- Attached to, and left alone. -/
def attachedAndDropped : List Action :=
  [.answer (.ok timeoutText) 0 true, .answer (.ok []) 0 true, .drop, .destroy]

theorem attachedAndDropped_run :
    ∃ s, play (@State.step Yson.plainFloatText) anySchedule (.attach begun "1-2-3-4")
      attachedAndDropped = some s ∧ s.owner = .gone := by
  let _ : FloatText := Yson.plainFloatText
  exact ⟨_, (play_cons _ trivial (step_reading readTimeout_timeoutText)).trans rfl, rfl⟩

/-- Attached to, and committed in vain. -/
def attachedAndRefused : List Action :=
  [.answer (.ok timeoutText) 0 true, .answer (.ok []) 0 true, .commit,
    .answer (.error refusal) 0 true, .destroy]

theorem attachedAndRefused_run :
    ∃ s, play (@State.step Yson.plainFloatText) anySchedule (.attach begun "1-2-3-4")
      attachedAndRefused = some s ∧ s.owner = .gone := by
  let _ : FloatText := Yson.plainFloatText
  exact ⟨_, (play_cons _ trivial (step_reading readTimeout_timeoutText)).trans rfl, rfl⟩

end Ytsaurus.Client.Handle
