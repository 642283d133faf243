import Ytsaurus.Client.Routing

/-!
# `Proof/Client/Routing.lean` — what one look for a destination does

`baseFor_spec` says once what a command finds and what it leaves in the shared state: the hosts
stay as they are unless the cluster was asked and named some that may be used (`relists`).
`afterHeavy_blames` and `afterHeavy_keeps` do the same for what a command came to.

The shared state is one of four: nothing has been asked yet, the cluster named nobody and the
configured base is used, the question failed and is not put again for a while or at all, or there
is a pool. All but the last have nothing on offer, so `HeavyProxy.hosts` is all that the proofs
look at, and `Stocked` is the invariant of the source that its choice among the hosts depends on:
it takes a remainder by their number.

What the cluster names is filtered by the policy of the client that asked, entry by entry
(`Proof/Client/Authority.lean`); a pool is only made of what is left. Which client that is matters
when several share the state, and `Proof/Client/Fleet.lean` is about these.
-/

set_option autoImplicit false

namespace Ytsaurus.Client

/-- The base URLs a state has on offer. -/
def HeavyProxy.hosts : HeavyProxy → List Str
  | .pool held => held.hosts
  | _ => []

/-- A stored pool has a host. -/
def HeavyProxy.Stocked (state : HeavyProxy) : Prop :=
  ∀ held, state = .pool held → held.hosts ≠ []

/-- The base of a host that the transport's own policy admits. -/
def Transport.Admits (t : Transport) (base : Str) : Prop :=
  ∃ host, t.hosts.admits t.base (Text.trim host) ∧ heavyBase t.base host t.hosts = .ok base

theorem admits_of_heavyBase {configured host base : Str} {allowed : HeavyHosts}
    (h : heavyBase configured host allowed = .ok base) :
    allowed.admits configured (Text.trim host) := by
  unfold heavyBase at h
  dsimp only at h
  split at h
  · cases h
  · split at h
    · cases h
    · rename_i hadmits
      simpa using hadmits

namespace HeavyPool

variable {pool : HeavyPool}

/-- **A pool with a host in it does not divide by zero.** -/
theorem pick_mem (h : pool.hosts ≠ []) (drawn : Nat) :
    ∃ picked ∈ pool.hosts, pool.pick drawn = some picked := by
  have hpos : 0 < pool.hosts.length := List.length_pos_iff.mpr h
  have hlt : drawn % pool.hosts.length < pool.hosts.length := Nat.mod_lt _ hpos
  refine ⟨pool.hosts[drawn % pool.hosts.length], List.getElem_mem hlt, ?_⟩
  unfold pick
  rw [if_neg (Nat.ne_of_gt hpos)]
  exact List.getElem?_eq_getElem hlt

theorem mem_dropHost {base other : Str} :
    other ∈ (pool.dropHost base).1.hosts ↔ other ∈ pool.hosts ∧ other ≠ base := by
  unfold dropHost
  dsimp only
  rw [List.mem_filter, bne_iff_ne]

theorem dropHost_survives {base : Str} :
    (pool.dropHost base).2 = true ↔ (pool.dropHost base).1.hosts ≠ [] := by
  unfold dropHost
  dsimp only
  rw [Bool.not_eq_true', List.isEmpty_eq_false_iff]

end HeavyPool

namespace Transport

variable {t : Transport}

theorem admits_of_usable {hosts : List Str} {base : Str} (h : base ∈ t.usableHosts hosts) :
    t.Admits base := by
  obtain ⟨host, _, hbase⟩ := List.mem_filterMap.mp h
  cases hmade : heavyBase t.base host t.hosts with
  | error why =>
    rw [hmade] at hbase
    cases hbase
  | ok made =>
    rw [hmade] at hbase
    cases hbase
    exact ⟨host, admits_of_heavyBase hmade, hmade⟩

/-- Whether a command asks the cluster where to go. -/
def asks (t : Transport) (repeatable : Repeatable) (state : HeavyProxy) (now : Instant) : Prop :=
  repeatable = .heavy ∧ t.discovery = true ∧
    match state with
    | .pool pool => ¬ now - pool.fetched < t.hostListRefresh
    | .configured asked => ¬ now - asked < t.hostListRefresh
    | .fellBack until_ => ¬ until_.all (now < ·)
    | .unasked => True

/-- Whether a command puts new hosts on offer: the cluster was asked, and named some. -/
def relists (t : Transport) (repeatable : Repeatable) (state : HeavyProxy) (asking : Asking) :
    Prop :=
  t.asks repeatable state asking.now ∧
    ∃ hosts, asking.lookup = .ok hosts ∧ t.usableHosts hosts ≠ []

/-- What one look for a destination does: a destination is found; what is on offer stays, or it
is the usable part of a new answer; and what was found is on offer, or the configured base. -/
structure Routes (t : Transport) (repeatable : Repeatable) (state : HeavyProxy) (asking : Asking)
    (state' : HeavyProxy) (destination : Destination) : Prop where
  stocked : state'.Stocked
  hosts : state'.hosts = state.hosts ∨
    t.relists repeatable state asking ∧
      ∃ hosts, asking.lookup = .ok hosts ∧ state'.hosts = t.usableHosts hosts
  found : destination = .configured t.base ∨
    repeatable = .heavy ∧ ∃ base ∈ state'.hosts, destination = .discovered base

theorem pickFrom_ok {pool : HeavyPool} (h : pool.hosts ≠ []) (drawn : Nat) :
    ∃ picked ∈ pool.hosts, pickFrom pool drawn = .ok (.pool pool, .discovered picked) := by
  obtain ⟨picked, hmem, hpick⟩ := HeavyPool.pick_mem h drawn
  refine ⟨picked, hmem, ?_⟩
  unfold pickFrom
  rw [hpick]

theorem stocked_pool {pool : HeavyPool} (h : pool.hosts ≠ []) : (HeavyProxy.pool pool).Stocked := by
  intro other hother
  cases hother
  exact h

/-- The configured base, with what is on offer as it was. -/
theorem routes_configured {repeatable : Repeatable} {state state' : HeavyProxy} {asking : Asking}
    (hstocked : state'.Stocked) (hhosts : state'.hosts = state.hosts) :
    Routes t repeatable state asking state' (.configured t.base) :=
  ⟨hstocked, .inl hhosts, .inl rfl⟩

/-- A state without a pool is stocked. -/
theorem stocked_of_ne {state : HeavyProxy} (h : ∀ pool, state ≠ .pool pool) : state.Stocked :=
  fun pool hpool => absurd hpool (h pool)

theorem stocked_unasked : HeavyProxy.unasked.Stocked := stocked_of_ne nofun

/-- What a refresh leaves in the pool. -/
theorem refresh_hosts (pool : HeavyPool) (asking : Asking) (h : pool.hosts ≠ []) :
    (t.refresh pool asking).hosts ≠ [] ∧
      ((t.refresh pool asking).hosts = pool.hosts ∨
        ¬ asking.now - pool.fetched < t.hostListRefresh ∧
          ∃ hosts, asking.lookup = .ok hosts ∧ t.usableHosts hosts ≠ [] ∧
            (t.refresh pool asking).hosts = t.usableHosts hosts) := by
  unfold refresh
  by_cases hfresh : asking.now - pool.fetched < t.hostListRefresh
  · rw [if_pos hfresh]
    exact ⟨h, .inl rfl⟩
  · rw [if_neg hfresh]
    cases asking.lookup with
    | error e => exact ⟨h, .inl rfl⟩
    | ok hosts =>
      dsimp only
      by_cases husable : t.usableHosts hosts = []
      · rw [if_pos husable]
        exact ⟨h, .inl rfl⟩
      · rw [if_neg husable]
        exact ⟨husable, .inr ⟨hfresh, hosts, rfl, husable, rfl⟩⟩

theorem mem_dropFailed {state : HeavyProxy} {base other : Str} {now : Instant} :
    other ∈ (t.dropFailed state base now).hosts ↔ other ∈ state.hosts ∧ other ≠ base := by
  unfold dropFailed
  cases state with
  | pool pool =>
    dsimp only
    by_cases hsurvives : (pool.dropHost base).2 = true
    · rw [if_pos hsurvives]
      exact HeavyPool.mem_dropHost
    · rw [if_neg hsurvives]
      have hempty : (pool.dropHost base).1.hosts = [] :=
        Decidable.not_not.mp (mt HeavyPool.dropHost_survives.mpr hsurvives)
      show other ∈ [] ↔ other ∈ pool.hosts ∧ other ≠ base
      rw [← HeavyPool.mem_dropHost, hempty]
  | unasked => simp [HeavyProxy.hosts]
  | configured asked => simp [HeavyProxy.hosts]
  | fellBack until_ => simp [HeavyProxy.hosts]

theorem stocked_dropFailed {state : HeavyProxy} {base : Str} {now : Instant}
    (h : state.Stocked) : (t.dropFailed state base now).Stocked := by
  unfold dropFailed
  cases state with
  | pool pool =>
    dsimp only
    by_cases hsurvives : (pool.dropHost base).2 = true
    · rw [if_pos hsurvives]
      exact stocked_pool (HeavyPool.dropHost_survives.mp hsurvives)
    · rw [if_neg hsurvives]
      intro other hother
      cases hother
  | unasked => exact h
  | configured asked => exact h
  | fellBack until_ => exact h

variable [JsonText]

/-- The cluster is asked in a state that has nothing on offer. -/
theorem settle_routes {state : HeavyProxy} {asking : Asking}
    (hasks : t.asks .heavy state asking.now) (hnone : state.hosts = []) :
    ∃ state' destination, t.settle asking = .ok (state', destination) ∧
      Routes t .heavy state asking state' destination := by
  unfold settle
  cases hlookup : asking.lookup with
  | ok hosts =>
    dsimp only
    by_cases husable : t.usableHosts hosts = []
    · rw [if_pos husable]
      exact ⟨_, _, rfl, routes_configured (stocked_of_ne nofun) hnone.symm⟩
    · rw [if_neg husable]
      have hpool : (⟨t.usableHosts hosts, asking.later⟩ : HeavyPool).hosts ≠ [] := husable
      obtain ⟨picked, hmem, hpick⟩ := pickFrom_ok hpool asking.drawn
      refine ⟨_, _, hpick, stocked_pool husable, .inr ⟨⟨hasks, hosts, hlookup, husable⟩, ?_⟩,
        .inr ⟨rfl, picked, hmem, rfl⟩⟩
      exact ⟨hosts, hlookup, rfl⟩
  | error error =>
    dsimp only
    split
    · exact ⟨_, _, rfl, routes_configured (stocked_of_ne nofun) hnone.symm⟩
    · exact ⟨_, _, rfl, routes_configured (stocked_of_ne nofun) hnone.symm⟩

/-- **One look for a destination.** -/
theorem baseFor_spec (t : Transport) (repeatable : Repeatable) {state : HeavyProxy}
    (asking : Asking) (h : state.Stocked) :
    ∃ state' destination, t.baseFor repeatable state asking = .ok (state', destination) ∧
      Routes t repeatable state asking state' destination := by
  unfold baseFor
  by_cases hlight : repeatable ≠ .heavy ∨ t.discovery = false
  · rw [if_pos hlight]
    exact ⟨_, _, rfl, routes_configured h rfl⟩
  · rw [if_neg hlight]
    obtain ⟨hheavy, hdiscovery⟩ := not_or.mp hlight
    obtain rfl := Decidable.not_not.mp hheavy
    have hon : t.discovery = true := by simpa using hdiscovery
    cases state with
    | pool pool =>
      dsimp only
      obtain ⟨hstays, hhosts⟩ := t.refresh_hosts pool asking (h pool rfl)
      obtain ⟨picked, hmem, hpick⟩ := pickFrom_ok hstays asking.drawn
      refine ⟨_, _, hpick, stocked_pool hstays, ?_, .inr ⟨rfl, picked, hmem, rfl⟩⟩
      rcases hhosts with hsame | ⟨hold, hosts, hlookup, husable, hnew⟩
      · exact .inl hsame
      · exact .inr ⟨⟨⟨rfl, hon, hold⟩, hosts, hlookup, husable⟩, hosts, hlookup, hnew⟩
    | configured asked =>
      dsimp only
      by_cases hfresh : asking.now - asked < t.hostListRefresh
      · rw [if_pos hfresh]
        exact ⟨_, _, rfl, routes_configured h rfl⟩
      · rw [if_neg hfresh]
        exact settle_routes ⟨rfl, hon, hfresh⟩ rfl
    | fellBack until_ =>
      dsimp only
      by_cases hfresh : until_.all (asking.now < ·)
      · rw [if_pos hfresh]
        exact ⟨_, _, rfl, routes_configured h rfl⟩
      · rw [if_neg hfresh]
        exact settle_routes ⟨rfl, hon, hfresh⟩ rfl
    | unasked => exact settle_routes ⟨rfl, hon, trivial⟩ rfl

/-! ## Failures -/

/-- The result of a routed command is a failure that is put down to the host it went to. -/
def blames {α : Type} (t : Transport) (repeatable : Repeatable) (destination : Destination)
    (result : Except ClientError α) (base : Str) : Prop :=
  repeatable = .heavy ∧ t.discovery = true ∧ destination = .discovered base ∧
    ∃ error, result = .error error ∧ attributableToTheHost error = true

/-- **A failure that is put down to a host takes that host off, and no other.** -/
theorem afterHeavy_blames {α : Type} {repeatable : Repeatable} {destination : Destination}
    {result : Except ClientError α} {base : Str} {state : HeavyProxy} {now : Instant}
    (h : t.blames repeatable destination result base) :
    (t.afterHeavy repeatable destination result state now).2 = t.dropFailed state base now := by
  obtain ⟨rfl, hon, rfl, error, rfl, hblamed⟩ := h
  have hoff : ¬ t.discovery = false := by simp [hon]
  unfold afterHeavy
  rw [if_neg (not_not_intro rfl)]
  dsimp only
  rw [if_neg hoff]
  dsimp only
  rw [if_pos hblamed]

/-- Any other result leaves the state as it is. -/
theorem afterHeavy_keeps {α : Type} {repeatable : Repeatable} {destination : Destination}
    {result : Except ClientError α} {state : HeavyProxy} {now : Instant}
    (h : ∀ base, ¬ t.blames repeatable destination result base) :
    (t.afterHeavy repeatable destination result state now).2 = state := by
  unfold afterHeavy
  by_cases hlight : repeatable ≠ .heavy
  · rw [if_pos hlight]
  · rw [if_neg hlight]
    cases result with
    | ok value => rfl
    | error error =>
      dsimp only
      by_cases hoff : t.discovery = false
      · rw [if_pos hoff]
      · rw [if_neg hoff]
        cases destination with
        | configured base => rfl
        | discovered base =>
          dsimp only
          by_cases hblamed : attributableToTheHost error = true
          · refine absurd ⟨Decidable.not_not.mp hlight, ?_, rfl, error, rfl, hblamed⟩ (h base)
            simpa using hoff
          · rw [if_neg hblamed]

/-- What a result is reported as: a success stays, and an error is only explained. -/
theorem afterHeavy_result {α : Type} (t : Transport) (repeatable : Repeatable)
    (destination : Destination) (result : Except ClientError α) (state : HeavyProxy)
    (now : Instant) :
    (∀ value, result = .ok value →
        (t.afterHeavy repeatable destination result state now).1 = .ok value) ∧
      ∀ error, result = .error error →
        (t.afterHeavy repeatable destination result state now).1 = .error error ∨
          (∃ why, (t.afterHeavy repeatable destination result state now).1 =
            .error (refusalHint error why)) ∨
          ∃ base, (t.afterHeavy repeatable destination result state now).1 =
            .error (routedTo error base) := by
  unfold afterHeavy
  refine ⟨?_, ?_⟩
  · rintro value rfl
    split <;> rfl
  · rintro error rfl
    by_cases hlight : repeatable ≠ .heavy
    · rw [if_pos hlight]
      exact .inl rfl
    · rw [if_neg hlight]
      dsimp only
      split
      · exact .inr (.inl ⟨_, rfl⟩)
      · cases destination with
        | configured base => exact .inr (.inl ⟨_, rfl⟩)
        | discovered base => exact .inr (.inr ⟨base, rfl⟩)

end Transport

end Ytsaurus.Client
