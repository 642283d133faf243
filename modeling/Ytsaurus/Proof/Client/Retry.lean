import Ytsaurus.Client.Retry

/-!
# `Proof/Client/Retry.lean` — what the loop does

The loop is a row of failures that are worth another attempt, and one outcome that ends it
(`Stops`). It is counted once, in `runLoop_stops`; what the attempts leave behind follows by the
rule `runLoop_state`, in which one attempt is the step.

The loop knows nothing of commands. It is given an action that may change a state, and it tells the
action whether it has been run before; the callers say what the state is. So everything about one
command (`Proof/Client/Call.lean`) is `Stops` together with one step for `runLoop_state`.

A wait doubles from one failure to the next until it reaches the longest one. Doubling is a shift
and a multiplication, either of which may overflow when somebody asks for very many attempts; the
first then gives the largest factor and the second the longest wait, so the waits stay in order
(`backoff_mono`).
-/

set_option autoImplicit false

namespace Ytsaurus.Client

/-! ## The sleeps -/

namespace RetryPolicy

theorem factor_mono {a b : Nat} (h : a ≤ b) : factor a ≤ factor b := by
  have hsub : a - 1 ≤ b - 1 := Nat.sub_le_sub_right h 1
  unfold factor
  by_cases hb : b - 1 < 32
  · have ha : a - 1 < 32 := Nat.lt_of_le_of_lt hsub hb
    rw [if_pos ha, if_pos hb, Nat.shiftLeft_eq, Nat.shiftLeft_eq]
    exact Nat.mul_le_mul_left 1 (Nat.pow_le_pow_right (Nat.succ_pos 1) hsub)
  · rw [if_neg hb]
    by_cases ha : a - 1 < 32
    · rw [if_pos ha, Nat.shiftLeft_eq]
      have hbit := Nat.mul_le_mul_left 1
        (Nat.pow_le_pow_right (Nat.succ_pos 1) (Nat.le_of_lt_succ ha))
      exact Nat.le_trans hbit (by decide)
    · rw [if_neg ha]

variable (policy : RetryPolicy)

theorem backoff_le (attempt : Nat) : policy.backoff attempt ≤ policy.maxBackoff :=
  Nat.min_le_right _ _

/-- **The waits never get shorter.** Where the doubling overflows, the wait is the longest. -/
theorem backoff_mono {a b : Nat} (h : a ≤ b) : policy.backoff a ≤ policy.backoff b := by
  have hfactor := Nat.mul_le_mul_left policy.initialBackoff (factor_mono h)
  unfold backoff Duration.checkedMul
  dsimp only
  by_cases hb : policy.initialBackoff * factor b < durationLimit
  · rw [if_pos hb, if_pos (Nat.lt_of_le_of_lt hfactor hb)]
    show min (policy.initialBackoff * factor a) policy.maxBackoff ≤
      min (policy.initialBackoff * factor b) policy.maxBackoff
    exact Nat.le_min.mpr ⟨Nat.le_trans (Nat.min_le_left _ _) hfactor, Nat.min_le_right _ _⟩
  · rw [if_neg hb]
    show _ ≤ min policy.maxBackoff policy.maxBackoff
    rw [Nat.min_self]
    exact Nat.min_le_right _ _

theorem allowed_pos (repeatable : Repeatable) : 1 ≤ policy.allowed repeatable := by
  cases repeatable with
  | freely => exact policy.positive
  | withMutationId => exact policy.positive
  | never => exact Nat.le_refl 1
  | heavy => exact Nat.le_refl 1

end RetryPolicy

/-! ## The loop -/

variable [JsonText] {α σ : Type}

/-- What a run of attempts came to, of `allowed` at most: failures that are worth another
attempt, and the outcome that ends it. -/
structure Stops (policy : RetryPolicy) (allowed : Nat) (ran : Ran α σ)
    (failures : List ClientError) (last : Except ClientError α) : Prop where
  outcomes : ran.outcomes = failures.map .error ++ [last]
  result : ran.result = last
  worth : ∀ e ∈ failures, isRetriable e
  few : failures.length + 1 ≤ allowed
  settled : ∀ e, last = .error e → isRetriable e = false ∨ failures.length + 1 = allowed
  sleeps : ran.sleeps = (List.range failures.length).map fun i => policy.backoff (i + 1)

theorem runLoop_stops (policy : RetryPolicy) {allowed : Nat}
    (action : Bool → σ → Except ClientError α × σ) (fuel attempt : Nat) (state : σ)
    (hpos : 0 < fuel) (hfuel : attempt + fuel = allowed + 1) :
    ∃ (failures : List ClientError) (last : Except ClientError α),
      (runLoop policy allowed action fuel attempt state).outcomes =
          failures.map .error ++ [last] ∧
        (runLoop policy allowed action fuel attempt state).result = last ∧
        (∀ e ∈ failures, isRetriable e) ∧ failures.length + attempt ≤ allowed ∧
        (∀ e, last = .error e → isRetriable e = false ∨ failures.length + attempt = allowed) ∧
        (runLoop policy allowed action fuel attempt state).sleeps =
          (List.range failures.length).map fun i => policy.backoff (attempt + i) := by
  induction fuel generalizing attempt state with
  | zero => exact absurd hpos (Nat.lt_irrefl 0)
  | succ fuel ih =>
    unfold runLoop
    generalize action (decide (1 < attempt)) state = made
    obtain ⟨outcome, state⟩ := made
    cases outcome with
    | ok value =>
      refine ⟨[], .ok value, rfl, rfl, ?_, ?_, ?_, rfl⟩
      · simp
      · simp only [List.length_nil]
        omega
      · intro e he
        cases he
    | error error =>
      dsimp only
      by_cases hlast : allowed ≤ attempt ∨ isRetriable error = false
      · rw [if_pos hlast]
        refine ⟨[], .error error, rfl, rfl, ?_, ?_, ?_, rfl⟩
        · simp
        · simp only [List.length_nil]
          omega
        · intro e he
          cases he
          rcases hlast with hlast | hlast
          · right
            simp only [List.length_nil]
            omega
          · exact .inl hlast
      · rw [if_neg hlast]
        dsimp only
        obtain ⟨hmore, hworth⟩ := not_or.mp hlast
        obtain ⟨failures, last, houtcomes, hresult, hall, hfew, hsettled, hsleeps⟩ :=
          ih (attempt + 1) state (by omega) (by omega)
        refine ⟨error :: failures, last, ?_, hresult, ?_, ?_, ?_, ?_⟩
        · rw [houtcomes]
          rfl
        · intro e he
          rcases List.mem_cons.mp he with rfl | he
          · simpa using hworth
          · exact hall e he
        · rw [List.length_cons]
          omega
        · intro e he
          rw [List.length_cons]
          exact (hsettled e he).imp id fun hcount => by omega
        · rw [hsleeps, List.length_cons, List.range_succ_eq_map, List.map_cons, List.map_map]
          congr 1
          apply List.map_congr_left
          intro i _
          show policy.backoff (attempt + 1 + i) = policy.backoff (attempt + (i + 1))
          rw [Nat.add_assoc, Nat.add_comm 1]

/-- **The loop** makes at least one attempt and at most as many as are allowed, and ends at the
first outcome that another attempt cannot better. -/
theorem run_stops (policy : RetryPolicy) (repeatable : Repeatable)
    (action : Bool → σ → Except ClientError α × σ) (state : σ) :
    ∃ failures last, Stops policy (policy.allowed repeatable) (run policy repeatable action state)
      failures last := by
  obtain ⟨failures, last, houtcomes, hresult, hall, hfew, hsettled, hsleeps⟩ :=
    runLoop_stops policy action (policy.allowed repeatable) 1 state
      (policy.allowed_pos repeatable) (Nat.add_comm _ _)
  refine ⟨failures, last, houtcomes, hresult, hall, hfew, hsettled, ?_⟩
  refine hsleeps.trans (List.map_congr_left ?_)
  intro i _
  rw [Nat.add_comm]

/-- What one attempt keeps, the loop keeps: `holds made` is about the state behind attempts that
came to `made`. -/
theorem runLoop_state {policy : RetryPolicy} {allowed : Nat}
    {action : Bool → σ → Except ClientError α × σ}
    {holds : List (Except ClientError α) → σ → Prop}
    (hstep : ∀ made state, holds made state →
      holds (made ++ [(action (decide (0 < made.length)) state).1])
        (action (decide (0 < made.length)) state).2)
    (fuel : Nat) (made : List (Except ClientError α)) (state : σ) (h : holds made state) :
    holds (made ++ (runLoop policy allowed action fuel (made.length + 1) state).outcomes)
      (runLoop policy allowed action fuel (made.length + 1) state).state := by
  induction fuel generalizing made state with
  | zero =>
    show holds (made ++ []) state
    rw [List.append_nil]
    exact h
  | succ fuel ih =>
    have hmade := hstep made state h
    have hretry : decide (1 < made.length + 1) = decide (0 < made.length) :=
      decide_eq_decide.mpr (by omega)
    unfold runLoop
    rw [hretry]
    generalize action (decide (0 < made.length)) state = outcome at hmade ⊢
    obtain ⟨outcome, state⟩ := outcome
    cases outcome with
    | ok value => exact hmade
    | error error =>
      dsimp only
      by_cases hlast : allowed ≤ made.length + 1 ∨ isRetriable error = false
      · rw [if_pos hlast]
        exact hmade
      · rw [if_neg hlast]
        have hrest := ih (made ++ [.error error]) state hmade
        rw [List.length_append, List.append_assoc] at hrest
        exact hrest

theorem run_state (policy : RetryPolicy) (repeatable : Repeatable)
    (action : Bool → σ → Except ClientError α × σ)
    (holds : List (Except ClientError α) → σ → Prop) (state : σ)
    (hstep : ∀ made state, holds made state →
      holds (made ++ [(action (decide (0 < made.length)) state).1])
        (action (decide (0 < made.length)) state).2)
    (h : holds [] state) :
    holds (run policy repeatable action state).outcomes
      (run policy repeatable action state).state :=
  runLoop_state hstep (policy.allowed repeatable) [] state h

end Ytsaurus.Client
