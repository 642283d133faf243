import Ytsaurus.Proof.Client.HandleSteps

/-!
# `Proof/Client/HandleThread.lean` — how long the thread of a handle pings

The thread has three ways to learn that it is to end: it looks at the flag before its wait, it looks
again behind it, and a ping may be answered with "no such transaction". It has none while its ping
is under way, and between the second look and the ping there is a moment in which the flag may be
raised unseen. What can be said is therefore not that it stops at once, but what it can still do,
and the bounds are those of the state it is in when the flag is raised (`Thread.pingsLeft`,
`Thread.stepsLeft`).

`Linked` is what the handle and the thread have in common in every reachable state: the flag is up
only when the owner is past its commit or abort, a thread that has not ended can be told to, and one
that has ended was told to or has heard that the transaction is gone. `Behind` is what a run adds to
the log once the flag is up. Both ends of it are kept by every step of either party, so the bound
holds whatever the owner does meanwhile, and however the two interleave.

The flag `lost` is the thread's own word that the cluster has said so. The results do not rely on
it: it is up exactly when such an answer is in the log (`heard_step`).

That a thread does ping while it is not told to stop is a matter of time, and is said with the
schedule of its waits in `Client/Transaction.lean`. Here it is only said that nothing keeps it from
its next step.
-/

set_option autoImplicit false

namespace Ytsaurus.Client.Handle

open Transition
open Yson (FloatText)

variable {c : Client} {origin : Origin} {s s₀ t : State} {action : Action}

/-! ## The handle and its thread -/

/-- What a handle and its thread have in common. -/
structure Linked (s : State) : Prop where
  /-- The pings are stopped when the end is there, and never before. -/
  stopped : s.stop = true → s.owner.past
  /-- A thread can be told to stop, or was told to. -/
  reachable : s.thread ≠ .absent →
    ∃ held, s.handle = some held ∧ (held.keepAlive = true ∨ s.stop = true)
  unmade : s.owner.before → s.thread = .absent ∧ s.handle = none
  told : s.owner = .gone → ∀ held, s.handle = some held → held.keepAlive = false
  lost : s.lost = true → s.thread = .ended
  /-- A thread ends for one of two reasons. -/
  ended : s.thread = .ended → s.stop = true ∨ s.lost = true

/-- Telling the thread to stop, once the end is there. -/
theorem linked_stopPinging {held : Held} (h : Linked s) (hhandle : s.handle = some held)
    {owner : Owner} (hpast : owner.past) (done : Bool) :
    Linked { s.stopPinging { held with done := done } with owner := owner } where
  stopped _ := hpast
  reachable hthread := by
    obtain ⟨held', hheld', hlinked⟩ := h.reachable hthread
    cases hhandle.symm.trans hheld'
    refine ⟨_, rfl, .inr ?_⟩
    show (s.stop || held.keepAlive) = true
    rcases hlinked with hkeep | hstop
    · rw [hkeep, Bool.or_true]
    · rw [hstop, Bool.true_or]
  unmade hbefore := by
    cases owner with
    | starting | reading | greeting => cases hpast
    | _ => cases hbefore
  told _ held' hheld' := by
    cases hheld'
    rfl
  lost := h.lost
  ended hended := by
    rcases h.ended hended with hstop | hlost
    · left
      show (s.stop || held.keepAlive) = true
      rw [hstop, Bool.true_or]
    · exact .inr hlost

theorem linked_say (h : Linked s) (events : List Event) : Linked (s.say events) :=
  ⟨h.stopped, h.reachable, h.unmade, h.told, h.lost, h.ended⟩

theorem not_past_of_before {owner : Owner} (h : owner.before) : owner.past = false := by
  cases owner with
  | starting | reading | greeting => rfl
  | _ => cases h

/-- A handle that is made, with or without a thread. -/
theorem linked_hold (h : Linked s) (hbefore : s.owner.before) {owner : Owner}
    (howner : owner = .firstPing ∨ owner = .holding) (c : Client) (id : String) (origin : Origin)
    (spawned : Bool) : Linked { s.hold c id origin spawned with owner := owner } where
  stopped hstop := by
    have hpast := h.stopped hstop
    rw [not_past_of_before hbefore] at hpast
    cases hpast
  reachable hthread := by
    refine ⟨_, rfl, .inl ?_⟩
    cases spawned with
    | true => rfl
    | false => exact absurd rfl hthread
  unmade hmade := by
    rcases howner with rfl | rfl <;> cases hmade
  told hgone := by
    rcases howner with rfl | rfl <;> cases hgone
  lost hlost := by
    have hended := h.lost hlost
    rw [(h.unmade hbefore).1] at hended
    cases hended
  ended hended := by
    cases spawned <;> cases hended

theorem linked_step (h : Linked s) (hstep : Stepped s action t) : Linked t := by
  cases hstep with
  | @destroyed held howner hhandle =>
    unfold State.destroy
    split
    · exact linked_stopPinging h hhandle rfl held.done
    · split
      · exact linked_stopPinging h hhandle rfl held.done
      · unfold State.finish
        split
        · exact absurd ‹_› ‹_›
        · obtain ⟨hstopped, hreachable, hunmade, htold, hlost, hended⟩ := h
          constructor
          all_goals simp_all [State.say, Owner.past, Owner.before]
  | @detached held howner hhandle =>
    have hpast : (if held.keepAlive then Owner.joining else .dropping).past := by
      split <;> rfl
    exact linked_stopPinging h hhandle hpast true
  | @asked held action finish haction howner hhandle =>
    have hstop : s.stop = false := by
      cases hstop : s.stop with
      | false => rfl
      | true =>
        have hpast := h.stopped hstop
        rw [howner] at hpast
        cases hpast
    unfold State.finish
    split
    · exact linked_stopPinging h hhandle rfl held.done
    · obtain ⟨hstopped, hreachable, hunmade, htold, hlost, hended⟩ := h
      constructor
      all_goals simp_all [State.say, Owner.past, Owner.before]
  | finished answer howner hhandle =>
    exact linked_stopPinging (linked_say h _) hhandle (by split <;> rfl) _
  | started answer id spawned howner =>
    exact linked_hold (linked_say h _) (by rw [State.say, howner]; rfl) (.inr rfl) _ id _ spawned
  | startedLate answer id spawned howner =>
    exact linked_say (linked_hold (linked_say h _) (by rw [State.say, howner]; rfl) (.inl rfl) _ id _
      spawned) _
  | greeted body spawned howner =>
    exact linked_hold (linked_say h _) (by rw [State.say, howner]; rfl) (.inr rfl) _ _ _ spawned
  | _ =>
    obtain ⟨hstopped, hreachable, hunmade, htold, hlost, hended⟩ := h
    constructor
    all_goals simp_all [State.say, Owner.past, Owner.before]

theorem linked_of_runs [FloatText] (h₀ : Initial c origin s₀)
    (h : Runs State.step anySchedule s₀ s) : Linked s := by
  apply h.invariant
  · cases h₀
    all_goals exact ⟨nofun, fun h => absurd rfl h, fun _ => ⟨rfl, rfl⟩, nofun, nofun, nofun⟩
  · intro t u action hlinked _ hstep
    exact linked_step hlinked (stepped hstep)

/-! ## What the cluster said -/

/-- The thread was told that its transaction is gone. -/
def Event.gone : Event → Bool
  | .answered .thread _ (.error e) => transactionIsGone e
  | _ => false

/-- The thread's word for it is the cluster's. -/
def Heard (s : State) : Prop := s.log.any Event.gone = s.lost

theorem heard_say {events : List Event} (h : Heard s) (hquiet : events.any Event.gone = false) :
    (s.log ++ events).any Event.gone = s.lost := by
  rw [List.any_append, hquiet, Bool.or_false]
  exact h

theorem heard_finish (h : Heard s) (held : Held) (finish : Finish) (inDrop : Bool) :
    Heard (s.finish held finish inDrop) := by
  unfold State.finish
  split
  · exact h
  · exact heard_say h rfl

theorem heard_step (h : Heard s) (hstep : Stepped s action t) : Heard t := by
  cases hstep with
  | threadAnswered answer hthread hhandle hlive =>
    apply heard_say h
    cases answer with
    | ok body => rfl
    | error e =>
      show (transactionIsGone e || false) = false
      rw [hlive e rfl, Bool.or_false]
  | threadLost e hthread hhandle hgone =>
    show (s.log ++ [_]).any Event.gone = true
    rw [List.any_append]
    show (s.log.any Event.gone || (transactionIsGone e || false)) = true
    rw [hgone, Bool.true_or, Bool.or_true]
  | asked finish => exact heard_finish h _ finish false
  | destroyed =>
    unfold State.destroy
    split
    · exact h
    · split
      · exact h
      · exact heard_finish h _ .abort true
  | detached => exact h
  | dropped => exact h
  | joined => exact h
  | checked => exact h
  | woken => exact h
  | startedLate => exact heard_say (s := s.say _) (heard_say h rfl) rfl
  | read => exact heard_say (s := s.say _) (heard_say h rfl) rfl
  | _ => exact heard_say h rfl

theorem heard_of_runs [FloatText] (h₀ : Initial c origin s₀)
    (h : Runs State.step anySchedule s₀ s) : Heard s := by
  apply h.invariant (I := Heard)
  · cases h₀ <;> rfl
  · intro t u action hheard _ hstep
    exact heard_step hheard (stepped hstep)

/-- An answer to a ping of the thread said that the transaction is gone. -/
def SaidGone (log : List Event) : Prop :=
  ∃ order e, .answered .thread order (.error e) ∈ log ∧ transactionIsGone e

theorem saidGone_iff (log : List Event) : SaidGone log ↔ log.any Event.gone = true := by
  rw [List.any_eq_true]
  constructor
  · intro h
    obtain ⟨order, e, he, hgone⟩ := h
    exact ⟨_, he, hgone⟩
  · intro h
    obtain ⟨event, hevent, hgone⟩ := h
    unfold Event.gone at hgone
    split at hgone
    · exact ⟨_, _, hevent, hgone⟩
    · cases hgone

theorem saidGone_iff_lost (h : Heard s) : SaidGone s.log ↔ s.lost = true := by
  rw [saidGone_iff, h]

/-- **What `is_lost` says is so**, as long as the handle can say it. -/
theorem isLost_iff [FloatText] (h₀ : Initial c origin s₀) (h : Runs State.step anySchedule s₀ s)
    {held : Held} (hhandle : s.handle = some held) (hkeep : held.keepAlive = true) :
    s.isLost = true ↔ SaidGone s.log := by
  unfold State.isLost
  rw [hhandle, saidGone_iff_lost (heard_of_runs h₀ h)]
  dsimp only
  rw [hkeep, Bool.true_and]

/-! ## Behind the stop -/

def Event.threadPing : Event → Bool
  | .sent .thread _ => true
  | _ => false

/-- The pings that a thread sends once it was told to stop. -/
def Thread.pingsLeft : Thread → Nat
  | .due => 1
  | _ => 0

/-- The steps that a thread takes once it was told to stop. -/
def Thread.stepsLeft : Thread → Nat
  | .absent | .ended => 0
  | .entering | .waiting => 1
  | .pinging => 2
  | .due => 3

/-- What is said from `s` to `t`, once the stop is raised: no more pings of the thread than it had
left, and of the owner's requests only the abort of a drop. -/
structure Behind (s t : State) (new : List Event) : Prop where
  log : t.log = s.log ++ new
  pings : (new.filter Event.threadPing).length + t.thread.pingsLeft ≤ s.thread.pingsLeft
  asked : ∀ order, .sent .owner order ∈ new → order.command = "abort_transaction"

theorem behind_step (h : Linked s) (hstop : s.stop = true) (hstep : Stepped s action t) :
    t.stop = true ∧ t.thread.stepsLeft + (if action.who = .thread then 1 else 0) ≤ s.thread.stepsLeft ∧
      ∃ new, Behind s t new := by
  have hpast := h.stopped hstop
  have hnothing {t : State} (hlog : t.log = s.log) (hthread : t.thread.pingsLeft ≤
      s.thread.pingsLeft) : ∃ new, Behind s t new :=
    ⟨[], by rw [hlog, List.append_nil], by simpa using hthread, by simp⟩
  cases hstep with
  | checked hthread =>
    have hended : (if s.stop then Thread.ended else .waiting) = .ended := if_pos hstop
    refine ⟨hstop, ?_, ?_⟩
    · rw [hthread, hended]
      exact Nat.le_refl 1
    · refine hnothing rfl ?_
      rw [hended]
      exact Nat.zero_le _
  | woken hthread =>
    have hended : (if s.stop then Thread.ended else .due) = .ended := if_pos hstop
    refine ⟨hstop, ?_, ?_⟩
    · rw [hthread, hended]
      exact Nat.le_refl 1
    · refine hnothing rfl ?_
      rw [hended]
      exact Nat.zero_le _
  | threadSent hthread hhandle =>
    refine ⟨hstop, ?_, _, rfl, ?_, by simp⟩
    · rw [hthread]
      exact Nat.le_refl 3
    · rw [hthread]
      exact Nat.le_refl 1
  | threadAnswered answer hthread hhandle hlive =>
    refine ⟨hstop, ?_, _, rfl, Nat.zero_le _, by simp⟩
    rw [hthread]
    exact Nat.le_refl 2
  | threadLost e hthread hhandle hgone =>
    refine ⟨hstop, ?_, _, rfl, Nat.zero_le _, by simp⟩
    rw [hthread]
    exact Nat.le_succ 1
  | @finished held finish inDrop spent spawned answer howner hhandle =>
    have hraised : (s.stop || held.keepAlive) = true := by rw [hstop, Bool.true_or]
    exact ⟨hraised, Nat.le_refl _, _, rfl, by simp [State.stopPinging, State.say, Event.threadPing],
      by simp⟩
  | joined howner => exact ⟨hstop, Nat.le_refl _, hnothing rfl (Nat.le_refl _)⟩
  | @destroyed held howner hhandle =>
    have hraised : (s.stop || held.keepAlive) = true := by rw [hstop, Bool.true_or]
    unfold State.destroy
    split
    · exact ⟨hraised, Nat.le_refl _, hnothing rfl (Nat.le_refl _)⟩
    · split
      · exact ⟨hraised, Nat.le_refl _, hnothing rfl (Nat.le_refl _)⟩
      · unfold State.finish
        split
        · exact ⟨hraised, Nat.le_refl _, hnothing rfl (Nat.le_refl _)⟩
        · refine ⟨hstop, Nat.le_refl _, _, rfl, by simp [State.say, Event.threadPing], ?_⟩
          intro order horder
          cases List.mem_singleton.mp horder
          rfl
  | _ => simp_all [Owner.past]

/-- Behind the stop a run says little. -/
theorem behind_run [FloatText] (h : Linked s) (hstop : s.stop = true)
    (hrun : Runs State.step anySchedule s t) : Linked t ∧ t.stop = true ∧ ∃ new, Behind s t new := by
  induction hrun with
  | refl => exact ⟨h, hstop, [], by simp, by simp, by simp⟩
  | @step t u action _ _ hstep ih =>
    obtain ⟨hlinked, hstop', new, hlog, hpings, hasked⟩ := ih
    obtain ⟨hstop'', -, more, hlog', hpings', hasked'⟩ :=
      behind_step hlinked hstop' (stepped hstep)
    refine ⟨linked_step hlinked (stepped hstep), hstop'', new ++ more, ?_, ?_, ?_⟩
    · rw [hlog', hlog, List.append_assoc]
    · rw [List.filter_append, List.length_append, Nat.add_assoc]
      exact Nat.le_trans (Nat.add_le_add_left hpings' _) hpings
    · intro order horder
      rcases List.mem_append.mp horder with horder | horder
      · exact hasked order horder
      · exact hasked' order horder

/-- The owner sends no pings for the thread, and a thread that has ended does nothing. -/
theorem ended_step (h : Linked s) (hended : s.thread = .ended)
    (hstep : Stepped s action t) :
    t.thread = .ended ∧ ∃ new, t.log = s.log ++ new ∧ ∀ e ∈ new, e.threadPing = false := by
  have hquiet {t : State} {events : List Event} (hthread : t.thread = s.thread)
      (hlog : t.log = s.log ++ events) (hevents : ∀ e ∈ events, e.threadPing = false) :
      t.thread = .ended ∧ ∃ new, t.log = s.log ++ new ∧ ∀ e ∈ new, e.threadPing = false :=
    ⟨hthread.trans hended, events, hlog, hevents⟩
  have hmade (hbefore : s.owner.before) : False := by
    have habsent := (h.unmade hbefore).1
    rw [hended] at habsent
    cases habsent
  cases hstep with
  | started _ _ _ howner => exact absurd (by rw [howner]; rfl) hmade
  | startedLate _ _ _ howner => exact absurd (by rw [howner]; rfl) hmade
  | greeted _ _ howner => exact absurd (by rw [howner]; rfl) hmade
  | read => exact hquiet rfl (List.append_assoc _ _ _) (by simp [Event.threadPing])
  | asked =>
    unfold State.finish
    split
    · exact hquiet rfl (List.append_nil _).symm (by simp)
    · exact hquiet rfl rfl (by simp [Event.threadPing])
  | destroyed =>
    unfold State.destroy
    split
    · exact hquiet rfl (List.append_nil _).symm (by simp)
    · split
      · exact hquiet rfl (List.append_nil _).symm (by simp)
      · unfold State.finish
        split
        · exact hquiet rfl (List.append_nil _).symm (by simp)
        · exact hquiet rfl rfl (by simp [Event.threadPing])
  | detached => exact hquiet rfl (List.append_nil _).symm (by simp)
  | dropped => exact hquiet rfl (List.append_nil _).symm (by simp)
  | joined => exact hquiet rfl (List.append_nil _).symm (by simp)
  | checked hthread => exact absurd (hended.symm.trans hthread) nofun
  | woken hthread => exact absurd (hended.symm.trans hthread) nofun
  | threadSent hthread => exact absurd (hended.symm.trans hthread) nofun
  | threadAnswered _ hthread => exact absurd (hended.symm.trans hthread) nofun
  | threadLost _ hthread => exact absurd (hended.symm.trans hthread) nofun
  | _ => exact hquiet rfl rfl (by simp [Event.threadPing])

theorem ended_run [FloatText] (h : Linked s) (hended : s.thread = .ended)
    (hrun : Runs State.step anySchedule s t) :
    ∃ new, t.log = s.log ++ new ∧ ∀ e ∈ new, e.threadPing = false := by
  have hall : Linked t ∧ t.thread = .ended ∧
      ∃ new, t.log = s.log ++ new ∧ ∀ e ∈ new, e.threadPing = false := by
    induction hrun with
    | refl => exact ⟨h, hended, [], by simp, by simp⟩
    | step _ _ hstep ih =>
      obtain ⟨hlinked, hended', new, hlog, hnew⟩ := ih
      obtain ⟨hended'', more, hlog', hmore⟩ := ended_step hlinked hended' (stepped hstep)
      refine ⟨linked_step hlinked (stepped hstep), hended'', new ++ more, ?_, ?_⟩
      · rw [hlog', hlog, List.append_assoc]
      · intro e he
        rcases List.mem_append.mp he with he | he
        · exact hnew e he
        · exact hmore e he
  exact hall.2.2

/-! ## The results -/

section

variable [FloatText]

/-- **The pings run until the end is answered, and no longer.** While a commit or an abort that
the owner asked for is under way nothing has stopped them, and the thread is there unless it has
heard that the transaction is gone. Once they are told to stop the thread sends one at most, and
that only when it had looked before; and none once the cluster has said that the transaction is
gone. -/
theorem pings_until_the_end (h₀ : Initial c origin s₀) (h : Runs State.step anySchedule s₀ s) :
    (∀ finish, s.owner = .finishing finish false →
        s.stop = false ∧ (s.thread = .ended → SaidGone s.log)) ∧
      (s.stop = true → ∀ t, Runs State.step anySchedule s t → ∃ new, t.log = s.log ++ new ∧
        (new.filter Event.threadPing).length ≤ (if s.thread = .due then 1 else 0) ∧
        ∀ order, .sent .owner order ∈ new → order.command = "abort_transaction") ∧
      (SaidGone s.log → ∀ t, Runs State.step anySchedule s t → ∃ new, t.log = s.log ++ new ∧
        ∀ e ∈ new, e.threadPing = false) := by
  have hlinked := linked_of_runs h₀ h
  have hheard := heard_of_runs h₀ h
  refine ⟨?_, ?_, ?_⟩
  · intro finish howner
    have hstop : s.stop = false := by
      cases hstop : s.stop with
      | false => rfl
      | true =>
        have hpast := hlinked.stopped hstop
        rw [howner] at hpast
        cases finish <;> cases hpast
    refine ⟨hstop, ?_⟩
    intro hended
    rw [saidGone_iff_lost hheard]
    rcases hlinked.ended hended with hraised | hlost
    · rw [hstop] at hraised
      cases hraised
    · exact hlost
  · intro hstop t hrun
    obtain ⟨-, -, new, hlog, hpings, hasked⟩ := behind_run hlinked hstop hrun
    refine ⟨new, hlog, Nat.le_trans (Nat.le_of_add_right_le hpings) ?_, hasked⟩
    unfold Thread.pingsLeft
    split <;> simp_all
  · intro hgone t hrun
    exact ended_run hlinked (hlinked.lost ((saidGone_iff_lost hheard).mp hgone)) hrun

/-- **No thread outlives its handle.** When the owner is through, the thread was told to stop, if
there is one; then it is over after three steps of its own, whatever the owner does; and until it
has ended it can take one, so that nothing but an answer keeps it. -/
theorem thread_ends (h₀ : Initial c origin s₀)
    (h : Runs State.step anySchedule s₀ s) :
    (s.owner = .gone → s.thread = .absent ∨ s.stop = true) ∧
      (s.stop = true → ∀ actions t, play State.step anySchedule s actions = some t →
        (actions.filter fun action => action.who == .thread).length + t.thread.stepsLeft ≤
          s.thread.stepsLeft) ∧
      (s.thread ≠ .absent → s.thread ≠ .ended →
        ∃ action, action.who = .thread ∧ (s.step action).isSome) := by
  have hlinked := linked_of_runs h₀ h
  refine ⟨?_, ?_, ?_⟩
  · intro hgone
    by_cases habsent : s.thread = .absent
    · exact .inl habsent
    · obtain ⟨held, hhandle, hkeep | hstop⟩ := hlinked.reachable habsent
      · rw [hlinked.told hgone held hhandle] at hkeep
        cases hkeep
      · exact .inr hstop
  · intro hstop actions
    clear h
    induction actions generalizing s with
    | nil =>
      intro t hplay
      cases hplay
      simp
    | cons action actions ih =>
      intro t hplay
      obtain ⟨-, u, hstep, hrest⟩ := play_cons_eq_some hplay
      obtain ⟨hstop', hsteps, -⟩ := behind_step hlinked hstop (stepped hstep)
      have hbehind := ih (linked_step hlinked (stepped hstep)) hstop' t hrest
      rw [List.filter_cons]
      by_cases hwho : action.who = .thread
      · rw [if_pos hwho] at hsteps
        rw [if_pos (by simp [hwho]), List.length_cons]
        omega
      · rw [if_neg hwho] at hsteps
        rw [if_neg (by simp [hwho])]
        omega
  · intro habsent hended
    obtain ⟨held, hhandle, -⟩ := hlinked.reachable habsent
    have hturn {action : Action} (hwho : action.who = .thread)
        (hsome : (s.turn held action).isSome)
        (hstep : s.step action = s.handle.bind fun held => s.turn held action) :
        ∃ action, action.who = .thread ∧ (s.step action).isSome := by
      refine ⟨action, hwho, ?_⟩
      rw [hstep, hhandle]
      exact hsome
    cases hthread : s.thread with
    | absent => exact absurd hthread habsent
    | ended => exact absurd hthread hended
    | entering => exact @hturn .check rfl (by simp [State.turn, hthread]) rfl
    | waiting => exact @hturn .wake rfl (by simp [State.turn, hthread]) rfl
    | due => exact @hturn .send rfl (by simp [State.turn, hthread]) rfl
    | pinging => exact @hturn (.pinged (.ok [])) rfl (by simp [State.turn, hthread]) rfl

end

/-! ### A commit beside a ping -/

/-- The commit is answered where the thread has looked and is about to ping; and a ping is answered
with "gone" where a commit is to come. -/
theorem pings_until_the_end_committed :
    (∃ s, play (@State.step Yson.plainFloatText) anySchedule (.start begun (secs 30)) committed =
        some s ∧ s.thread = .due ∧
      ∀ t, Runs (@State.step Yson.plainFloatText) anySchedule s t → ∃ new, t.log = s.log ++ new ∧
        (new.filter Event.threadPing).length ≤ (if s.thread = .due then 1 else 0) ∧
        ∀ order, .sent .owner order ∈ new → order.command = "abort_transaction") ∧
    ∃ s, play (@State.step Yson.plainFloatText) anySchedule (.start begun (secs 30)) lateCommit =
        some s ∧ s.owner = .finishing .commit false ∧ s.stop = false ∧ SaidGone s.log ∧
      ∀ t, Runs (@State.step Yson.plainFloatText) anySchedule s t → ∃ new, t.log = s.log ++ new ∧
        ∀ e ∈ new, e.threadPing = false := by
  obtain ⟨s, hplay, hstop, hdue⟩ := committed_run
  obtain ⟨s', hplay', howner, hended, -⟩ := lateCommit_run
  obtain ⟨-, hbehind, -⟩ := @pings_until_the_end begun .started s _ Yson.plainFloatText
    (.start (secs 30)) (runs_of_play hplay)
  obtain ⟨hfinishing, -, hafter⟩ := @pings_until_the_end begun .started s' _ Yson.plainFloatText
    (.start (secs 30)) (runs_of_play hplay')
  have hgone := (hfinishing _ howner).2 hended
  exact ⟨⟨s, hplay, hdue, hbehind hstop⟩, s', hplay', howner, (hfinishing _ howner).1, hgone,
    hafter hgone⟩

/-- The owner is gone, the thread has a ping behind it and is about to look. -/
theorem thread_ends_committed :
    ∃ s, play (@State.step Yson.plainFloatText) anySchedule (.start begun (secs 30)) failedCommit =
        some s ∧ s.owner = .gone ∧ s.thread = .entering ∧
      (s.thread = .absent ∨ s.stop = true) ∧
      (∀ actions t, play (@State.step Yson.plainFloatText) anySchedule s actions = some t →
        (actions.filter fun action => action.who == .thread).length + t.thread.stepsLeft ≤
          s.thread.stepsLeft) ∧
      ∃ action, action.who = .thread ∧ (@State.step Yson.plainFloatText s action).isSome := by
  obtain ⟨s, hplay, hgone, hstop, hentering⟩ := failedCommit_run
  obtain ⟨htold, hbound, hstep⟩ := @thread_ends begun .started s _ Yson.plainFloatText
    (.start (secs 30)) (runs_of_play hplay)
  refine ⟨s, hplay, hgone, hentering, htold hgone, hbound hstop, hstep ?_ ?_⟩
  · rw [hentering]
    decide
  · rw [hentering]
    decide

end Ytsaurus.Client.Handle
