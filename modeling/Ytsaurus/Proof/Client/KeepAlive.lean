import Ytsaurus.Client.Transaction

/-!
# `Proof/Client/KeepAlive.lean` — one lost ping

Two pings in a row are sent no further apart than one request's budget and one interval. With
one lost ping between two others that makes two budgets and two intervals, and the transaction
lives through it exactly when they fit into its timeout.

Time is a number here, and a turn of the loop is what the world decides: when the thread is told to
stop, how long the ping took, and what it came to. The loop is run on any list of turns, and what
is said about it is said of two pings that follow each other in its trace (`run_step`).

The interval is a third of the timeout and the budget half of the interval, so two of each are the
timeout, with nothing to spare. But a budget is never less than a second, and an interval of less
than two seconds has half of it and more taken by its ping: below six seconds they do not fit
(`worstGap_le_iff`). What stands there besides the six seconds is the rounding of the two
divisions.
-/

set_option autoImplicit false

namespace Ytsaurus.Client.KeepAlive

/-- Every request ends within its budget. -/
def WithinBudget (timeout : Duration) (turns : List Turn) : Prop :=
  ∀ turn ∈ turns, turn.took ≤ pingRequestTimeout (pingInterval timeout)

def Ping.succeeded (ping : Ping) : Bool := ping.answer.isOk

/-- No two pings in a row fail. -/
def NoTwoLost (pings : List Ping) : Prop :=
  ∀ (i : Nat) (a b : Ping), pings[i]? = some a → pings[i + 1]? = some b →
    a.succeeded ∨ b.succeeded

/-- Two successful pings with none between them are sent within the timeout. -/
def KeptWithin (timeout : Duration) (pings : List Ping) : Prop :=
  ∀ (i j : Nat) (a b : Ping), i < j → pings[i]? = some a → pings[j]? = some b →
    a.succeeded → b.succeeded →
    (∀ (k : Nat) (between : Ping), i < k → k < j → pings[k]? = some between →
      between.succeeded = false) →
    b.sent ≤ a.sent + timeout

/-! ## Two pings in a row -/

theorem waited_le (wait : Duration) (woken : Option Duration) : waited wait woken ≤ wait := by
  cases woken with
  | none => exact Nat.le_refl _
  | some after => exact Nat.min_le_right _ _

section

variable {interval budget wait : Duration} {now : Nat} {turns : List Turn}

/-- The first ping waits at most for the wait. -/
theorem run_head {ping : Ping} (h : (run interval now wait turns).1[0]? = some ping) :
    ping.sent ≤ now + wait := by
  cases turns with
  | nil => cases h
  | cons turn turns =>
    have hsent := Nat.add_le_add_left (waited_le wait turn.woken) now
    unfold run at h
    split at h
    · cases h
    · dsimp only at h
      split at h
      · cases h
        exact hsent
      · split at h
        · cases h
          exact hsent
        · cases h
          exact hsent

/-- What the loop sends behind its first ping is what it sends from the end of that one on. -/
theorem run_tail {turn : Turn} {first : Ping} {rest : List Ping}
    (h : (run interval now wait (turn :: turns)).1 = first :: rest) :
    rest = [] ∨ rest = (run interval (first.sent + turn.took) interval turns).1 := by
  unfold run at h
  split at h
  · cases h
  · dsimp only at h
    split at h
    · cases h
      exact .inr rfl
    · split at h
      · cases h
        exact .inl rfl
      · cases h
        exact .inr rfl

/-- **Two pings in a row are at most a budget and an interval apart.** -/
theorem run_step (hbudget : ∀ turn ∈ turns, turn.took ≤ budget) {i : Nat} {a b : Ping}
    (ha : (run interval now wait turns).1[i]? = some a)
    (hb : (run interval now wait turns).1[i + 1]? = some b) :
    b.sent ≤ a.sent + (budget + interval) := by
  induction turns generalizing i now wait with
  | nil => cases ha
  | cons turn turns ih =>
    have htook : turn.took ≤ budget := hbudget turn List.mem_cons_self
    cases hrun : (run interval now wait (turn :: turns)).1 with
    | nil =>
      rw [hrun] at ha
      cases ha
    | cons first rest =>
      rw [hrun] at ha hb
      rcases run_tail hrun with rfl | hrest
      · cases hb
      · rw [List.getElem?_cons_succ, hrest] at hb
        cases i with
        | zero =>
          cases ha
          have hhead := run_head hb
          calc b.sent ≤ a.sent + turn.took + interval := hhead
            _ = a.sent + (turn.took + interval) := Nat.add_assoc _ _ _
            _ ≤ a.sent + (budget + interval) :=
              Nat.add_le_add_left (Nat.add_le_add_right htook _) _
        | succ i =>
          rw [List.getElem?_cons_succ, hrest] at ha
          exact ih (fun turn hturn => hbudget turn (List.mem_cons_of_mem _ hturn)) ha hb

end

/-! ## One lost ping -/

/-- Two intervals and two budgets. -/
def worstGap (timeout : Duration) : Nat :=
  2 * (pingRequestTimeout (pingInterval timeout) + pingInterval timeout)

/-- With at most one lost ping between them, two successful pings are at most the worst gap
apart. -/
theorem gap_le {timeout step : Nat} {pings : List Ping}
    (hstep : ∀ (i : Nat) (a b : Ping), pings[i]? = some a → pings[i + 1]? = some b →
      b.sent ≤ a.sent + step)
    (htwo : NoTwoLost pings) (hfits : 2 * step ≤ timeout) : KeptWithin timeout pings := by
  intro i j a b hij ha hb _ _ hbetween
  obtain ⟨middle, hmiddle⟩ : ∃ middle, pings[i + 1]? = some middle := by
    have hlength := (List.getElem?_eq_some_iff.mp hb).1
    exact ⟨pings[i + 1], List.getElem?_eq_getElem (by omega)⟩
  have hfirst := hstep i a middle ha hmiddle
  by_cases hnext : j = i + 1
  · subst hnext
    cases hmiddle.symm.trans hb
    omega
  · have hlost := hbetween (i + 1) middle (by omega) (by omega) hmiddle
    obtain ⟨last, hlast⟩ : ∃ last, pings[i + 2]? = some last := by
      have hlength := (List.getElem?_eq_some_iff.mp hb).1
      exact ⟨pings[i + 2], List.getElem?_eq_getElem (by omega)⟩
    have hsecond := hstep (i + 1) middle last hmiddle hlast
    -- the one behind a lost ping is not lost, so it is the other successful one
    have hfound : last.succeeded := by
      rcases htwo (i + 1) middle last hmiddle hlast with h | h
      · rw [hlost] at h
        cases h
      · exact h
    have hj : j = i + 2 := by
      apply Classical.byContradiction
      intro hj
      have hlost' := hbetween (i + 2) last (by omega) (by omega) hlast
      rw [hfound] at hlost'
      cases hlost'
    subst hj
    cases hlast.symm.trans hb
    omega

/-- A ping, a lost one, and another, each as slow as it may be. -/
def slowTurns (timeout : Duration) : List Turn :=
  let budget := pingRequestTimeout (pingInterval timeout)
  let turn (answer : Except ClientError Unit) : Turn := ⟨false, none, budget, answer⟩
  [turn (.ok ()), turn (.error (.transport "ping_transaction" .timeout)), turn (.ok ())]

theorem slowTurns_within (timeout : Duration) : WithinBudget timeout (slowTurns timeout) := by
  intro turn hturn
  simp only [slowTurns, List.mem_cons, List.not_mem_nil, or_false] at hturn
  rcases hturn with rfl | rfl | rfl <;> exact Nat.le_refl _

theorem pings_slowTurns (timeout : Duration) :
    ∃ first : Nat, pings timeout 0 0 (slowTurns timeout) =
      [⟨first, .ok ()⟩,
        ⟨first + pingRequestTimeout (pingInterval timeout) + pingInterval timeout,
          .error (.transport "ping_transaction" .timeout)⟩,
        ⟨first + pingRequestTimeout (pingInterval timeout) + pingInterval timeout +
          pingRequestTimeout (pingInterval timeout) + pingInterval timeout, .ok ()⟩] :=
  ⟨0 + firstPingIn (pingInterval timeout) 0, rfl⟩

/-- The worst gap is reached, so it has to fit. -/
theorem worstGap_le_of_kept {timeout : Duration}
    (h : KeptWithin timeout (pings timeout 0 0 (slowTurns timeout))) :
    worstGap timeout ≤ timeout := by
  obtain ⟨first, hpings⟩ := pings_slowTurns timeout
  rw [hpings] at h
  have hgap := h 0 2 _ _ (by decide) rfl rfl rfl rfl (by
    intro k between hlow hhigh hbetween
    have hk : k = 1 := by omega
    subst hk
    cases hbetween
    rfl)
  calc worstGap timeout
      = pingRequestTimeout (pingInterval timeout) + pingInterval timeout +
          (pingRequestTimeout (pingInterval timeout) + pingInterval timeout) := Nat.two_mul _
    _ ≤ timeout := by
      refine Nat.le_of_add_le_add_left (Nat.le_trans (Nat.le_of_eq ?_) hgap)
      simp only [Nat.add_assoc]

theorem noTwoLost_slowTurns (timeout : Duration) :
    NoTwoLost (pings timeout 0 0 (slowTurns timeout)) := by
  obtain ⟨first, hpings⟩ := pings_slowTurns timeout
  rw [hpings]
  intro i a b ha hb
  match i with
  | 0 =>
    cases ha
    exact .inl rfl
  | 1 =>
    cases hb
    exact .inr rfl
  | i + 2 =>
    simp at hb

/-- The worst gap fits from just under six seconds on: below them the floor of a request's budget
is more than half the interval. -/
theorem worstGap_le_iff (timeout : Nat) :
    worstGap timeout ≤ timeout ↔ 5999999998 ≤ timeout ∨ timeout = 5999999996 := by
  simp only [worstGap, pingRequestTimeout, pingInterval, secs, defaultTimeout]
  omega

/-- **One lost ping is not a lost transaction from a timeout of six seconds on.** -/
theorem one_lost_ping_iff (timeout : Duration) :
    (∀ (spent : Duration) (now : Nat) (turns : List Turn), WithinBudget timeout turns →
        NoTwoLost (pings timeout spent now turns) →
        KeptWithin timeout (pings timeout spent now turns)) ↔
      5999999998 ≤ timeout ∨ timeout = 5999999996 := by
  rw [← worstGap_le_iff timeout]
  constructor
  · intro hkept
    exact worstGap_le_of_kept
      (hkept 0 0 _ (slowTurns_within timeout) (noTwoLost_slowTurns timeout))
  · intro hfits spent now turns hbudget htwo
    exact gap_le (fun i a b ha hb => run_step hbudget ha hb) htwo hfits

/-- With a timeout of three seconds, two successful pings are four seconds apart. -/
theorem three_seconds_lost : WithinBudget (secs 3) (slowTurns (secs 3)) ∧
    NoTwoLost (pings (secs 3) 0 0 (slowTurns (secs 3))) ∧
    ¬ KeptWithin (secs 3) (pings (secs 3) 0 0 (slowTurns (secs 3))) :=
  ⟨slowTurns_within _, noTwoLost_slowTurns _,
    fun hkept => absurd (worstGap_le_of_kept hkept) (by decide)⟩

end Ytsaurus.Client.KeepAlive
