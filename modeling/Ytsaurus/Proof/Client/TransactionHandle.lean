import Ytsaurus.Proof.Client.HandleSteps

/-!
# `Proof/Client/TransactionHandle.lean` — how a handle ends its transaction

A transaction ends at the cluster by a commit, by an abort, or by running out of time when nobody
pings it. The handle has a hand in the first two, and what it may send is decided in several places
of the source: a commit or an abort goes through `finish`, `detach` sets a flag that makes the
destructor silent, and the destructor aborts, but not what was only attached to. What has to hold
is about all of these together: whatever the answers are, and wherever the thread stands meanwhile,
the transaction is ended once, in the way that was asked for.

`Settled` is the list of the ways: for every handle, what its owner asked for at last and what was
sent for it. The owner's requests are taken from the actions of the run (`requests`) and not from
the machine, so a handle that did something of its own accord could not excuse it. One of them is
asked by nobody: a start that took so long that a ping was due, and whose ping failed, returns no
handle, and the one it had made is dropped at once.

`Course` is the invariant that leads there. For each place where the owner can stand it says what
was asked, whether the handle is done, and what was sent so far; the pings and the answers to them
do not show in it, and no more does the thread, whose steps therefore keep it for nothing. A step of
the owner keeps it as well (`course_step`), and where the owner is through it is `Settled`.

Of time there is nothing here, so the bound on the one attempt of a drop is left out; that it is one
attempt is in the client that sends it (`Client.withoutRetries`).
-/

set_option autoImplicit false

namespace Ytsaurus.Client.Handle

open Transition
open Yson (FloatText)

/-! ## How a transaction is ended -/

/-- What an owner asks for last: each of these takes the handle away from it. -/
def Action.ends : Action → Bool
  | .commit | .abort | .detach | .drop => true
  | _ => false

/-- What the owner asked for, of all that was done. -/
def requests (actions : List Action) : List Action := actions.filter Action.ends

/-- Part of how the transaction is ended, whoever sends it. -/
def Event.ending : Event → Bool
  | .sent _ order | .answered _ order _ =>
    order.command == "commit_transaction" || order.command == "abort_transaction"

def endings (log : List Event) : List Event := log.filter Event.ending

/-- A commit or an abort, and its answer. -/
def concluded (c : Client) (id : String) (finish : Finish) (answer : Answer) : List Event :=
  [.sent .owner (c.transactionOrder finish.command id .withMutationId),
    .answered .owner (c.transactionOrder finish.command id .withMutationId) answer]

/-- **All that a handle may send to end its transaction**, from the client of the handle, by what
its owner asked for: a commit that succeeded, the abort that was asked for, or nothing behind a
`detach`. Otherwise it is dropped, on request or behind a commit that failed: one that was started
then aborts without retries, and one that was attached to sends nothing. -/
inductive Settled (c : Client) (id : String) : Origin → List Action → List Event → Prop
  | committed (origin : Origin) (body : List UInt8) :
      Settled c id origin [.commit] (concluded c id .commit (.ok body))
  | aborted (origin : Origin) (answer : Answer) :
      Settled c id origin [.abort] (concluded c id .abort answer)
  | detached (origin : Origin) : Settled c id origin [.detach] []
  | dropped (answer : Answer) :
      Settled c id .started [.drop] (concluded c.withoutRetries id .abort answer)
  | droppedFailed (e : ClientError) (answer : Answer) :
      Settled c id .started [.commit]
        (concluded c id .commit (.error e) ++ concluded c.withoutRetries id .abort answer)
  /-- The first ping was lost, and the handle was never returned. -/
  | unreturned (answer : Answer) :
      Settled c id .started [] (concluded c.withoutRetries id .abort answer)
  | left : Settled c id .attached [.drop] []
  | leftFailed (e : ClientError) :
      Settled c id .attached [.commit] (concluded c id .commit (.error e))

/-- A ping that the owner waited for was answered with an error. -/
def PingLost (c : Client) (id : String) (log : List Event) : Prop :=
  ∃ e, .answered .owner (c.pingOrder id) (.error e) ∈ log

/-- A handle of this client's. -/
structure HeldBy (c : Client) (origin : Origin) (h : Held) : Prop where
  client : h.client = c.withTransaction h.id
  origin : h.origin = origin

/-- What was asked for and what was sent so far to end the transaction, by where the owner stands.
Up to `open` nothing was; from there the owner asks once, and the constructors follow the ways to
`gone`. -/
inductive Course (c : Client) (origin : Origin) :
    List Action → Owner → Option Held → List Event → Prop
  | starting (timeout : Duration) (h : origin = .started) :
      Course c origin [] (.starting c timeout) none []
  | reading (id : String) (h : origin = .attached) : Course c origin [] (.reading c id) none []
  | greeting (id : String) (h : origin = .attached) : Course c origin [] (.greeting c id) none []
  | unheld : Course c origin [] .gone none []
  | «open» {owner : Owner} {held : Held}
      (howner : owner = .firstPing ∧ origin = .started ∨ owner = .holding ∨ owner = .pinging)
      (h : HeldBy c origin held) (hdone : held.done = false) :
      Course c origin [] owner (some held) []
  /-- About to be dropped, and nothing was sent yet. -/
  | leaving {asked : List Action} {held : Held}
      (hasked : asked = [.drop] ∨ asked = [] ∧ origin = .started) (h : HeldBy c origin held)
      (hdone : held.done = false) : Course c origin asked .dropping (some held) []
  | finishing (finish : Finish) {held : Held} (h : HeldBy c origin held)
      (hdone : held.done = false) :
      Course c origin [finish.request] (.finishing finish false) (some held)
        [.sent .owner (held.finishOrder finish)]
  /-- A commit that failed leaves the transaction to the drop. -/
  | uncommitted {held : Held} (h : HeldBy c origin held) (hdone : held.done = false)
      (e : ClientError) :
      Course c origin [.commit] .dropping (some held)
        (concluded (c.withTransaction held.id) held.id .commit (.error e))
  | aborting {asked : List Action} {held : Held} {front : List Event} (horigin : origin = .started)
      (hclient : held.client = (c.withTransaction held.id).withoutRetries)
      (hfront : front = [] ∧ (asked = [.drop] ∨ asked = []) ∨ asked = [.commit] ∧ ∃ e, front =
        concluded (c.withTransaction held.id) held.id .commit (.error e)) :
      Course c origin asked (.finishing .abort true) (some held)
        (front ++ [.sent .owner (held.finishOrder .abort)])
  | ended {asked : List Action} {owner : Owner} {held : Held} {log : List Event}
      (howner : owner = .joining ∨ owner = .dropping) (hdone : held.done = true)
      (hsettled : Settled (c.withTransaction held.id) held.id origin asked log) :
      Course c origin asked owner (some held) log
  | gone {asked : List Action} {held : Held} {log : List Event}
      (hsettled : Settled (c.withTransaction held.id) held.id origin asked log) :
      Course c origin asked .gone (some held) log

variable {c : Client} {origin : Origin} {s t : State} {action : Action}
  {asked actions : List Action}

theorem requests_append (front back : List Action) :
    requests (front ++ back) = requests front ++ requests back := List.filter_append front back

/-- What is done besides asks for nothing. -/
theorem requests_other (h : action.ends = false) : requests (actions ++ [action]) =
    requests actions := by
  have hnone : requests [action] = [] := by
    unfold requests
    rw [List.filter_cons_of_neg (by rw [h]; decide), List.filter_nil]
  rw [requests_append, hnone, List.append_nil]

/-- The first request. -/
theorem requests_first (h : action.ends = true) (hnone : requests actions = []) :
    requests (actions ++ [action]) = [action] := by
  rw [requests_append, hnone, List.nil_append]
  unfold requests
  rw [List.filter_cons_of_pos h, List.filter_nil]

theorem ends_request (finish : Finish) : finish.request.ends = true := by
  cases finish <;> rfl

theorem endings_append (front back : List Event) :
    endings (front ++ back) = endings front ++ endings back := List.filter_append front back

/-- What a step says that has nothing to do with the end. -/
theorem endings_quiet {log events : List Event} (h : ∀ e ∈ events, e.ending = false) :
    endings (log ++ events) = endings log := by
  rw [endings_append]
  have hnone : endings events = [] := by
    apply List.filter_eq_nil_iff.mpr
    intro e he
    rw [h e he]
    decide
  rw [hnone, List.append_nil]

theorem ending_finish (h : Held) (finish : Finish) :
    Event.ending (.sent .owner (h.finishOrder finish)) = true := by
  cases finish <;> rfl

theorem ending_finished (h : Held) (finish : Finish) (answer : Answer) :
    Event.ending (.answered .owner (h.finishOrder finish) answer) = true := by
  cases finish <;> rfl

theorem endings_command {who : Who} {order : Order}
    (h : order.command ≠ "commit_transaction" ∧ order.command ≠ "abort_transaction") :
    Event.ending (.sent who order) = false ∧
      ∀ answer, Event.ending (.answered who order answer) = false := by
  unfold Event.ending
  simp [h.1, h.2]

/-- A ping says nothing about the end. -/
theorem quiet_ping (who : Who) (c : Client) (id : String) :
    Event.ending (.sent who (c.pingOrder id)) = false ∧
      ∀ answer, Event.ending (.answered who (c.pingOrder id) answer) = false := by
  apply endings_command
  simp [Client.pingOrder, Client.transactionOrder]

theorem quiet_start (c : Client) (timeout : Duration) (answer : Answer) :
    Event.ending (.answered .owner (c.startTransactionOrder timeout) answer) = false := rfl

theorem quiet_timeout (c : Client) (id : String) (answer : Answer) :
    Event.ending (.answered .owner (c.timeoutOrder id) answer) = false := rfl

/-! ### Where the owner stands -/

/-- A handle that was just made. -/
theorem course_hold {origin' : Origin} (horigin : origin = origin') (id : String)
    (spawned : Bool) {owner : Owner}
    (howner : owner = .firstPing ∧ origin = .started ∨ owner = .holding) :
    Course c origin [] owner (some ⟨c.withTransaction id, id, false, spawned, origin'⟩) [] := by
  apply Course.open _ ⟨rfl, horigin.symm⟩ rfl
  rcases howner with hfirst | hholding
  · exact .inl hfirst
  · exact .inr (.inl hholding)

section

variable {handle : Option Held} {held : Held} {log : List Event}

theorem course_starting {c' : Client} {timeout : Duration}
    (h : Course c origin asked (.starting c' timeout) handle log) :
    c' = c ∧ origin = .started ∧ asked = [] ∧ handle = none ∧ log = [] := by
  cases h with
  | starting timeout horigin => exact ⟨rfl, horigin, rfl, rfl, rfl⟩
  | «open» howner => simp at howner
  | ended howner => simp at howner

theorem course_reading {c' : Client} {id : String}
    (h : Course c origin asked (.reading c' id) handle log) :
    c' = c ∧ origin = .attached ∧ asked = [] ∧ handle = none ∧ log = [] := by
  cases h with
  | reading id horigin => exact ⟨rfl, horigin, rfl, rfl, rfl⟩
  | «open» howner => simp at howner
  | ended howner => simp at howner

theorem course_greeting {c' : Client} {id : String}
    (h : Course c origin asked (.greeting c' id) handle log) :
    c' = c ∧ origin = .attached ∧ asked = [] ∧ handle = none ∧ log = [] := by
  cases h with
  | greeting id horigin => exact ⟨rfl, horigin, rfl, rfl, rfl⟩
  | «open» howner => simp at howner
  | ended howner => simp at howner

/-- While the handle is used. -/
theorem course_used {owner : Owner} (h : Course c origin asked owner (some held) log)
    (howner : owner = .firstPing ∨ owner = .holding ∨ owner = .pinging) :
    HeldBy c origin held ∧ held.done = false ∧ asked = [] ∧ log = [] ∧
      (owner = .firstPing → origin = .started) := by
  cases h with
  | «open» howner' hheld hdone =>
    refine ⟨hheld, hdone, rfl, rfl, ?_⟩
    intro hfirst
    rcases howner' with hstarted | hother
    · exact hstarted.2
    · simp [hfirst] at hother
  | ended howner' =>
    rcases howner with rfl | rfl | rfl
    all_goals simp at howner'
  | leaving => simp at howner
  | finishing => simp at howner
  | uncommitted => simp at howner
  | aborting => simp at howner
  | gone => simp at howner

end

/-! ### What a step makes of it -/

/-- An answer to what ends the transaction. -/
theorem course_finished {held : Held} {finish : Finish} {inDrop : Bool} {log : List Event}
    (h : Course c origin asked (.finishing finish inDrop) (some held) log) (answer : Answer) :
    Course c origin asked (if inDrop then .gone else .dropping)
      (some { held with
        done := answer.isOk || decide (finish = .abort)
        keepAlive := false })
      (log ++ [.answered .owner (held.finishOrder finish) answer]) := by
  cases h with
  | «open» howner => simp at howner
  | ended howner => simp at howner
  | finishing _ hheld hdone =>
    have hconcluded : [Event.sent .owner (held.finishOrder finish)] ++
        [.answered .owner (held.finishOrder finish) answer] =
        concluded (c.withTransaction held.id) held.id finish answer := by
      unfold Held.finishOrder
      rw [hheld.client]
      rfl
    rw [hconcluded]
    cases finish with
    | abort =>
      apply Course.ended (.inr rfl) (by simp)
      exact .aborted origin answer
    | commit =>
      cases answer with
      | ok body =>
        apply Course.ended (.inr rfl) rfl
        exact .committed origin body
      | error e =>
        exact @Course.uncommitted c origin { held with done := false, keepAlive := false }
          ⟨hheld.client, hheld.origin⟩ rfl e
  | aborting horigin hclient hfront =>
    have hconcluded : [Event.sent .owner (held.finishOrder .abort)] ++
        [.answered .owner (held.finishOrder .abort) answer] =
        concluded (c.withTransaction held.id).withoutRetries held.id .abort answer := by
      unfold Held.finishOrder
      rw [hclient]
      rfl
    rw [List.append_assoc, hconcluded, horigin]
    rcases hfront with ⟨rfl, rfl | rfl⟩ | ⟨rfl, e, rfl⟩
    · exact .gone (.dropped answer)
    · exact .gone (.unreturned answer)
    · exact .gone (.droppedFailed e answer)

/-- The abort of a drop, of a transaction that was started. -/
theorem course_dropAbort {held : Held} {front : List Event} (hlog : endings s.log = front)
    (hclient : held.client = (c.withTransaction held.id).withoutRetries)
    (hdone : held.done = false) (hstarted : origin = .started)
    (hfront : front = [] ∧ (asked = [.drop] ∨ asked = []) ∨ asked = [.commit] ∧ ∃ e, front =
      concluded (c.withTransaction held.id) held.id .commit (.error e)) :
    Course c origin asked (s.finish held .abort true).owner (s.finish held .abort true).handle
      (endings (s.finish held .abort true).log) := by
  unfold State.finish
  rw [if_neg (by simp [hdone])]
  show Course c origin asked (.finishing .abort true) _ (endings (s.log ++ [_]))
  rw [endings_append, hlog]
  exact .aborting hstarted hclient hfront

/-- What dropping the handle does. -/
theorem course_destroy {held : Held} {log : List Event}
    (h : Course c origin asked .dropping (some held) log) (hlog : endings s.log = log) :
    Course c origin asked (s.destroy held).owner (s.destroy held).handle
      (endings (s.destroy held).log) := by
  unfold State.destroy
  cases h with
  | ended howner hdone hsettled =>
    rw [if_pos hdone]
    show Course c origin asked .gone _ (endings s.log)
    rw [hlog]
    exact .gone hsettled
  | «open» howner => simp at howner
  | leaving hasked hheld hdone =>
    rw [if_neg (by simp [hdone])]
    cases horigin : held.origin with
    | attached =>
      have hattached : origin = .attached := hheld.origin.symm.trans horigin
      have hdropped : asked = [.drop] := by
        rcases hasked with hdropped | hlost
        · exact hdropped
        · cases hattached.symm.trans hlost.2
      show Course c origin asked .gone _ (endings s.log)
      rw [hlog, hattached, hdropped]
      exact .gone .left
    | started =>
      exact course_dropAbort hlog (congrArg Client.withoutRetries hheld.client) hdone
        (hheld.origin.symm.trans horigin) (.inl ⟨rfl, hasked.imp_right And.left⟩)
  | uncommitted hheld hdone e =>
    rw [if_neg (by simp [hdone])]
    cases horigin : held.origin with
    | attached =>
      show Course c origin _ .gone _ (endings s.log)
      rw [hlog, ← hheld.origin, horigin]
      exact .gone (.leftFailed e)
    | started =>
      exact course_dropAbort hlog (congrArg Client.withoutRetries hheld.client) hdone
        (hheld.origin.symm.trans horigin) (.inr ⟨rfl, e, rfl⟩)

/-- The owner asks for a commit or an abort. -/
theorem course_asked {held : Held} (finish : Finish) (hheld : HeldBy c origin held)
    (hdone : held.done = false) (hlog : endings s.log = []) :
    Course c origin [finish.request] (s.finish held finish false).owner
      (s.finish held finish false).handle (endings (s.finish held finish false).log) := by
  unfold State.finish
  rw [if_neg (by simp [hdone])]
  show Course c origin _ (.finishing finish false) (some held) (endings (s.log ++ [_]))
  have hsent : endings [.sent .owner (held.finishOrder finish)] =
      [.sent .owner (held.finishOrder finish)] := by
    unfold endings
    rw [List.filter_cons_of_pos (ending_finish held finish), List.filter_nil]
  rw [endings_append, hlog, hsent]
  exact .finishing finish hheld hdone

/-- The owner lets go of the transaction. -/
theorem course_detached {held : Held} (hlog : endings s.log = []) :
    Course c origin [.detach] (s.detach held).owner (s.detach held).handle
      (endings (s.detach held).log) := by
  show Course c origin _ (if held.keepAlive then .joining else .dropping) (some _) (endings s.log)
  rw [hlog]
  apply Course.ended _ rfl
  · exact .detached origin
  · split
    · exact .inl rfl
    · exact .inr rfl

/-- What is said that has nothing to do with the end, where the owner comes to stand elsewhere. -/
theorem course_moved {front events : List Event} {owner : Owner} {handle : Option Held}
    (h : Course c origin asked owner handle (endings front))
    (hevents : ∀ e ∈ events, e.ending = false) :
    Course c origin asked owner handle (endings (front ++ events)) := by
  rw [endings_quiet hevents]
  exact h

/-- The steps before there is a handle. -/
theorem course_made (h : Course c origin (requests actions) s.owner s.handle (endings s.log))
    {answer : Answer} {spent : Duration} {spawned : Bool}
    (hstep : Stepped s (.answer answer spent spawned) t) (hbefore : s.owner.before) :
    Course c origin (requests (actions ++ [.answer answer spent spawned])) t.owner t.handle
      (endings t.log) := by
  rw [requests_other rfl]
  cases hstep with
  | notStarted answer howner =>
    rw [howner] at h
    obtain ⟨rfl, horigin, hasked, hhandle, hlog⟩ := course_starting h
    show Course _ origin _ .gone s.handle _
    apply course_moved _ (by simp [quiet_start])
    rw [hasked, hhandle, hlog]
    exact .unheld
  | started answer id spawned howner =>
    rw [howner] at h
    obtain ⟨rfl, horigin, hasked, -, hlog⟩ := course_starting h
    apply course_moved _ (by simp [quiet_start])
    rw [hasked, hlog]
    exact course_hold horigin id spawned (.inr rfl)
  | startedLate answer id spawned howner =>
    rw [howner] at h
    obtain ⟨rfl, horigin, hasked, -, hlog⟩ := course_starting h
    apply course_moved _ (by simp [quiet_ping])
    apply course_moved _ (by simp [quiet_start])
    rw [hasked, hlog]
    exact course_hold horigin id spawned (.inl ⟨rfl, horigin⟩)
  | unread answer howner =>
    rw [howner] at h
    obtain ⟨rfl, horigin, hasked, hhandle, hlog⟩ := course_reading h
    show Course _ origin _ .gone s.handle _
    apply course_moved _ (by simp [quiet_timeout])
    rw [hasked, hhandle, hlog]
    exact .unheld
  | read answer howner =>
    rw [howner] at h
    obtain ⟨rfl, horigin, hasked, hhandle, hlog⟩ := course_reading h
    show Course _ origin _ (.greeting _ _) s.handle _
    apply course_moved _ (by simp [quiet_ping])
    apply course_moved _ (by simp [quiet_timeout])
    rw [hasked, hhandle, hlog]
    exact .greeting _ horigin
  | ungreeted e howner =>
    rw [howner] at h
    obtain ⟨rfl, horigin, hasked, hhandle, hlog⟩ := course_greeting h
    show Course _ origin _ .gone s.handle _
    apply course_moved _ (by simp [quiet_ping])
    rw [hasked, hhandle, hlog]
    exact .unheld
  | greeted body spawned howner =>
    rw [howner] at h
    obtain ⟨rfl, horigin, hasked, hhandle, hlog⟩ := course_greeting h
    apply course_moved _ (by simp [quiet_ping])
    rw [hasked, hlog]
    exact course_hold horigin _ spawned (.inr rfl)
  | firstPinged body howner => simp [howner, Owner.before] at hbefore
  | asked finish haction howner => simp [howner, Owner.before] at hbefore
  | firstLost e howner => simp [howner, Owner.before] at hbefore
  | ponged answer howner => simp [howner, Owner.before] at hbefore
  | finished answer howner => simp [howner, Owner.before] at hbefore

/-- A handle still there to be used keeps its course over a step that asks for nothing. -/
theorem course_kept {held : Held} {owner owner' : Owner} {events : List Event}
    (h : Course c origin (requests actions) owner (some held) (endings s.log))
    (howner : owner = .firstPing ∨ owner = .holding ∨ owner = .pinging)
    (howner' : owner' = .holding ∨ owner' = .pinging) (haction : action.ends = false)
    (hquiet : ∀ e ∈ events, e.ending = false) :
    Course c origin (requests (actions ++ [action])) owner' (some held)
      (endings (s.log ++ events)) := by
  obtain ⟨hheld, hdone, hasked, hlog, -⟩ := course_used h howner
  rw [requests_other haction, endings_quiet hquiet, hasked, hlog]
  exact .open (.inr howner') hheld hdone

/-- **One step keeps the course**, whoever's it is. -/
theorem course_step (h : Course c origin (requests actions) s.owner s.handle (endings s.log))
    (hstep : Stepped s action t) :
    Course c origin (requests (actions ++ [action])) t.owner t.handle (endings t.log) := by
  cases hstep with
  | notStarted answer howner => exact course_made h (.notStarted answer howner) (by rw [howner]; rfl)
  | started answer id spawned howner =>
    exact course_made h (.started answer id spawned howner) (by rw [howner]; rfl)
  | startedLate answer id spawned howner =>
    exact course_made h (.startedLate answer id spawned howner) (by rw [howner]; rfl)
  | unread answer howner => exact course_made h (.unread answer howner) (by rw [howner]; rfl)
  | read answer howner => exact course_made h (.read answer howner) (by rw [howner]; rfl)
  | ungreeted e howner => exact course_made h (.ungreeted e howner) (by rw [howner]; rfl)
  | greeted body spawned howner =>
    exact course_made h (.greeted body spawned howner) (by rw [howner]; rfl)
  | firstPinged body howner hhandle =>
    rw [howner, hhandle] at h
    show Course c origin _ .holding s.handle _
    rw [hhandle]
    exact course_kept h (.inl rfl) (.inl rfl) rfl (by simp [quiet_ping])
  | firstLost e howner hhandle =>
    rw [howner, hhandle] at h
    obtain ⟨hheld, hdone, hasked, hlog, hstarted⟩ := course_used h (.inl rfl)
    show Course c origin _ .dropping s.handle _
    apply course_moved _ (by simp [quiet_ping])
    rw [requests_other rfl, hasked, hlog, hhandle]
    exact .leaving (.inr ⟨rfl, hstarted rfl⟩) hheld hdone
  | ponged answer howner hhandle =>
    rw [howner, hhandle] at h
    show Course c origin _ .holding s.handle _
    rw [hhandle]
    exact course_kept h (.inr (.inr rfl)) (.inl rfl) rfl (by simp [quiet_ping])
  | @finished held finish inDrop spent spawned answer howner hhandle =>
    rw [howner, hhandle] at h
    rw [requests_other rfl]
    show Course c origin _ _ (some _) (endings (s.log ++ [_]))
    have hanswered : endings [.answered .owner (held.finishOrder finish) answer] =
        [.answered .owner (held.finishOrder finish) answer] := by
      unfold endings
      rw [List.filter_cons_of_pos (ending_finished held finish answer), List.filter_nil]
    rw [endings_append, hanswered]
    exact course_finished h answer
  | asked finish haction howner hhandle =>
    rw [howner, hhandle] at h
    obtain ⟨hheld, hdone, hasked, hlog, -⟩ := course_used h (.inr (.inl rfl))
    rw [haction, requests_first (ends_request finish) hasked]
    exact course_asked finish hheld hdone hlog
  | pinged howner hhandle =>
    rw [howner, hhandle] at h
    show Course c origin _ .pinging s.handle _
    rw [hhandle]
    exact course_kept h (.inr (.inl rfl)) (.inr rfl) rfl (by simp [quiet_ping])
  | detached howner hhandle =>
    rw [howner, hhandle] at h
    obtain ⟨hheld, hdone, hasked, hlog, -⟩ := course_used h (.inr (.inl rfl))
    rw [requests_first rfl hasked]
    exact course_detached hlog
  | dropped howner hhandle =>
    rw [howner, hhandle] at h
    obtain ⟨hheld, hdone, hasked, hlog, -⟩ := course_used h (.inr (.inl rfl))
    show Course c origin _ .dropping s.handle (endings s.log)
    rw [requests_first rfl hasked, hlog, hhandle]
    exact .leaving (.inl rfl) hheld hdone
  | joined howner =>
    rw [howner] at h
    rw [requests_other rfl]
    show Course c origin _ .dropping s.handle (endings s.log)
    generalize s.handle = handle at h ⊢
    generalize endings s.log = log at h ⊢
    generalize requests actions = asked at h ⊢
    cases h with
    | «open» howner => simp at howner
    | ended howner hdone hsettled => exact .ended (.inr rfl) hdone hsettled
  | destroyed howner hhandle =>
    rw [howner, hhandle] at h
    rw [requests_other rfl]
    exact course_destroy h rfl
  -- the thread has no part in it
  | checked hthread =>
    rw [requests_other rfl]
    exact h
  | woken hthread =>
    rw [requests_other rfl]
    exact h
  | threadSent hthread hhandle =>
    rw [requests_other rfl]
    exact course_moved h (by simp [quiet_ping])
  | threadAnswered answer hthread hhandle =>
    rw [requests_other rfl]
    exact course_moved h (by simp [quiet_ping])
  | threadLost e hthread hhandle =>
    rw [requests_other rfl]
    exact course_moved h (by simp [quiet_ping])

variable {s₀ : State}

theorem course_of_play [FloatText] (h₀ : Initial c origin s₀)
    (h : play State.step anySchedule s₀ actions = some s) :
    Course c origin (requests actions) s.owner s.handle (endings s.log) := by
  apply play_invariant (I := fun actions (s : State) =>
    Course c origin (requests actions) s.owner s.handle (endings s.log)) h
  · cases h₀ with
    | start timeout => exact .starting timeout rfl
    | attach id => exact .reading id rfl
  · intro actions t u action hcourse _ hstep
    exact course_step hcourse (stepped hstep)

/-! ### What nobody asked for -/

theorem PingLost.append {id : String} {log : List Event} (h : PingLost c id log)
    (new : List Event) : PingLost c id (log ++ new) := by
  obtain ⟨e, he⟩ := h
  exact ⟨e, List.mem_append_left _ he⟩

/-- Everything is about one transaction. -/
structure Named (id : String) (s : State) : Prop where
  reading : ∀ c' id', s.owner = .reading c' id' → id' = id
  greeting : ∀ c' id', s.owner = .greeting c' id' → id' = id
  starting : ∀ c' timeout, s.owner ≠ .starting c' timeout
  handle : ∀ held, s.handle = some held → held.id = id

theorem named_owner {id : String} {held : Held} {owner : Owner} (hhandle : s.handle = some held)
    (hid : held.id = id)
    (howner : ∀ c' id' timeout, owner ≠ .reading c' id' ∧ owner ≠ .greeting c' id' ∧
      owner ≠ .starting c' timeout) (howner' : s.owner = owner) : Named id s := by
  subst howner'
  refine ⟨fun c' id' h => absurd h (howner c' id' 0).1, fun c' id' h => absurd h (howner c' id' 0).2.1,
    fun c' timeout => (howner c' id timeout).2.2, ?_⟩
  intro held' hheld'
  cases hhandle.symm.trans hheld'
  exact hid

theorem named_step {id : String} (h : Named id s) (hstep : Stepped s action t) :
    Named id t := by
  obtain ⟨hreading, hgreeting, hstarting, hhandle⟩ := h
  cases hstep with
  | destroyed howner hheld =>
    have hid := hhandle _ hheld
    unfold State.destroy
    split
    · exact named_owner rfl hid (by simp) rfl
    · split
      · exact named_owner rfl hid (by simp) rfl
      · unfold State.finish
        split
        · exact named_owner rfl hid (by simp) rfl
        · exact named_owner rfl hid (by simp) rfl
  | asked finish haction howner hheld =>
    have hid := hhandle _ hheld
    unfold State.finish
    split
    · exact named_owner rfl hid (by simp) rfl
    · exact named_owner rfl hid (by simp) rfl
  | detached howner hheld =>
    have hid := hhandle _ hheld
    refine named_owner rfl hid ?_ rfl
    intro c' id' timeout
    unfold State.detach
    split <;> simp
  | finished answer howner hheld =>
    have hid := hhandle _ hheld
    refine named_owner rfl hid ?_ rfl
    intro c' id' timeout
    split <;> simp
  | _ =>
    constructor
    all_goals simp_all [State.say, State.hold]

theorem named_attach (c : Client) (id : String) : Named id (.attach c id) where
  reading _ _ h := (Owner.reading.inj h).2.symm
  greeting _ _ h := Owner.noConfusion h
  starting _ _ h := Owner.noConfusion h
  handle _ h := by cases h

/-! ## The results -/

section

variable [FloatText]

omit [FloatText] in
/-- What an attached handle has sent at any time. -/
theorem course_attached {owner : Owner} {held : Held} {log : List Event}
    (h : Course c .attached asked owner (some held) log) {who : Who}
    {order : Order} (horder : .sent who order ∈ log) :
    ∃ finish : Finish, asked = [finish.request] ∧ who = .owner ∧
      order = (c.withTransaction held.id).transactionOrder finish.command held.id
        .withMutationId := by
  have hsettled (hsettled : Settled (c.withTransaction held.id) held.id .attached asked log) :
      ∃ finish : Finish, asked = [finish.request] ∧ who = .owner ∧
        order = (c.withTransaction held.id).transactionOrder finish.command held.id
          .withMutationId := by
    cases hsettled with
    | committed => exact ⟨.commit, rfl, by simpa [concluded] using horder⟩
    | aborted => exact ⟨.abort, rfl, by simpa [concluded] using horder⟩
    | leftFailed => exact ⟨.commit, rfl, by simpa [concluded] using horder⟩
    | detached => cases horder
    | left => cases horder
  cases h with
  | «open» => cases horder
  | leaving => cases horder
  | finishing finish hheld hdone =>
    refine ⟨finish, rfl, ?_⟩
    cases List.mem_singleton.mp horder
    exact ⟨rfl,
      congrArg (Client.transactionOrder · finish.command held.id .withMutationId) hheld.client⟩
  | uncommitted => exact ⟨.commit, rfl, by simpa [concluded] using horder⟩
  | aborting horigin => cases horigin
  | ended _ _ h => exact hsettled h
  | gone h => exact hsettled h

/-- **An attached transaction is ended by its owner's wish only.** Whenever a commit or an abort was
sent, it is what the owner asked for, under the id that was attached to. When the owner is through,
those of the sequences are left that a drop sends nothing in. -/
theorem attached_settled (id : String)
    (h : play State.step anySchedule (.attach c id) actions = some s) :
    (∀ who order, .sent who order ∈ endings s.log →
        ∃ finish : Finish, requests actions = [finish.request] ∧ who = .owner ∧
          order = (c.withTransaction id).transactionOrder finish.command id .withMutationId) ∧
      (s.owner = .gone →
        (s.handle = none ∧ requests actions = [] ∧ endings s.log = []) ∨
          Settled (c.withTransaction id) id .attached (requests actions) (endings s.log)) := by
  have hcourse := course_of_play (.attach id) h
  have hnamed : Named id s := by
    apply (runs_of_play h).invariant (named_attach c id)
    · intro t u action hnamed _ hstep
      exact named_step hnamed (stepped hstep)
  generalize endings s.log = log at hcourse ⊢
  generalize requests actions = asked at hcourse ⊢
  cases hhandle : s.handle with
  | none =>
    rw [hhandle] at hcourse
    have hnothing : asked = [] ∧ log = [] := by
      generalize s.owner = owner at hcourse
      cases hcourse <;> exact ⟨rfl, rfl⟩
    obtain ⟨rfl, rfl⟩ := hnothing
    refine ⟨fun who order horder => ?_, fun _ => .inl ⟨rfl, rfl, rfl⟩⟩
    cases horder
  | some held =>
    rw [hhandle] at hcourse
    have hid := hnamed.handle held hhandle
    subst hid
    refine ⟨fun who order horder => course_attached hcourse horder, fun hgone => .inr ?_⟩
    rw [hgone] at hcourse
    cases hcourse with
    | gone hsettled => exact hsettled
    | «open» howner => simp at howner
    | ended howner => simp at howner

end

/-- One handle is dropped and sends nothing; another commits in vain, and sends no more. -/
theorem attached_settled_twice :
    (∃ s, play (@State.step Yson.plainFloatText) anySchedule (.attach begun "1-2-3-4")
        attachedAndDropped = some s ∧
      ((s.handle = none ∧ requests attachedAndDropped = [] ∧ endings s.log = []) ∨
        Settled (begun.withTransaction "1-2-3-4") "1-2-3-4" .attached [.drop] (endings s.log))) ∧
    ∃ s, play (@State.step Yson.plainFloatText) anySchedule (.attach begun "1-2-3-4")
        attachedAndRefused = some s ∧
      (∀ who order, .sent who order ∈ endings s.log → ∃ finish,
        requests attachedAndRefused = [Finish.request finish] ∧ who = .owner ∧
          order = (begun.withTransaction "1-2-3-4").transactionOrder finish.command "1-2-3-4"
            .withMutationId) ∧
      ((s.handle = none ∧ requests attachedAndRefused = [] ∧ endings s.log = []) ∨
        Settled (begun.withTransaction "1-2-3-4") "1-2-3-4" .attached [.commit]
          (endings s.log)) := by
  obtain ⟨s, hplay, hgone⟩ := attachedAndDropped_run
  obtain ⟨s', hplay', hgone'⟩ := attachedAndRefused_run
  obtain ⟨hsent, hsettled⟩ :=
    @attached_settled begun s' attachedAndRefused Yson.plainFloatText "1-2-3-4" hplay'
  refine ⟨⟨s, hplay, ?_⟩, s', hplay', hsent, hsettled hgone'⟩
  exact (@attached_settled begun s attachedAndDropped Yson.plainFloatText "1-2-3-4" hplay).2 hgone

end Ytsaurus.Client.Handle
