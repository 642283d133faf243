import Ytsaurus.Client.Fleet
import Ytsaurus.Lib.Transition
import Ytsaurus.Proof.Client.Routing

/-!
# `Proof/Client/Fleet.lean` — the pool stays within policy

Clients that share a cell have the same rules, for a client whose rules change leaves for a fresh
cell. So what one of them puts on offer, every other may use (`Sound`). What is on offer in a cell
shrinks by the hosts that failures are put down to, and grows only when the cluster is asked
again.

`Sound` is the invariant of the fleet. The clause that carries it is `agree`: two clients with one
cell have one policy and one base. A setter could break it, and `Transport.set_cases` is why it
does not: either it leaves for a cell that nobody else has, or it changes nothing the policy reads.
From `agree` and from what one look for a destination does (`Proof/Client/Routing.lean`) every
choice is within the policy of the client that made it, and not only of the one that filled the
pool.

Commands are underway between the choice and the judgement of what came of it, and any number of
acts of other clients may lie between. A failure is put down to the host that was chosen then, in
the cell that the client had then; the cell may have been filled again since, so `hosts_blamed`
speaks of the cell as it is found.
-/

set_option autoImplicit false

namespace Ytsaurus.Client

open Transition (Runs anySchedule)

/-- A destination within the policy of the client that chose it. -/
def Routed.Within (routed : Routed) : Prop :=
  routed.destination = .configured routed.client.base ∨
    routed.repeatable = .heavy ∧
      ∃ base, routed.client.Admits base ∧ routed.destination = .discovered base

theorem Transport.Admits.congr {t u : Transport} {base : Str} (h : t.Admits base)
    (hbase : t.base = u.base) (hhosts : t.hosts = u.hosts) : u.Admits base := by
  unfold Transport.Admits at h ⊢
  rw [← hbase, ← hhosts]
  exact h

/-- A setter leaves for a fresh cell, or leaves the rules as they are. -/
theorem Transport.set_cases (t : Transport) (cell : Nat) (setting : Setting) :
    (t.set cell setting).base = t.base ∧
      ((t.set cell setting).heavy = cell ∨
        (t.set cell setting).heavy = t.heavy ∧ (t.set cell setting).hosts = t.hosts) := by
  cases setting with
  | proxyDiscovery enabled => exact ⟨rfl, .inl rfl⟩
  | heavyProxiesAnywhere enabled => exact ⟨rfl, .inl rfl⟩
  | heavyProxiesIn names => exact ⟨rfl, .inl rfl⟩
  | heavyProxiesUnder domains => exact ⟨rfl, .inl rfl⟩
  | retries policy => exact ⟨rfl, .inr ⟨rfl, rfl⟩⟩
  | hostsRetryAfter after => exact ⟨rfl, .inr ⟨rfl, rfl⟩⟩
  | hostListRefreshInterval interval => exact ⟨rfl, .inr ⟨rfl, rfl⟩⟩
  | transaction id => exact ⟨rfl, .inr ⟨rfl, rfl⟩⟩
  | trace trace tracestate => exact ⟨rfl, .inr ⟨rfl, rfl⟩⟩

namespace Fleet

/-- What holds of the clients and cells that there are. -/
structure Sound (fleet : Fleet) : Prop where
  stocked : ∀ cell, (fleet.cells cell).Stocked
  numbered : ∀ t ∈ fleet.clients, t.heavy < fleet.made
  flying : ∀ routed ∈ fleet.underway, routed.client.heavy < fleet.made
  agree : ∀ t ∈ fleet.clients, ∀ u ∈ fleet.clients, t.heavy = u.heavy →
    t.base = u.base ∧ t.hosts = u.hosts
  offered : ∀ t ∈ fleet.clients, ∀ base ∈ (fleet.cells t.heavy).hosts, t.Admits base
  /-- A cell that is not made yet has nothing on offer. -/
  unmade : ∀ cell, fleet.made ≤ cell → (fleet.cells cell).hosts = []
  chosen : ∀ routed ∈ fleet.chosen, routed.Within

theorem sound_empty : empty.Sound where
  stocked := fun _ => Transport.stocked_unasked
  numbered := List.forall_mem_nil _
  flying := List.forall_mem_nil _
  agree := List.forall_mem_nil _
  offered := List.forall_mem_nil _
  unmade := fun _ _ => rfl
  chosen := List.forall_mem_nil _

@[simp] theorem write_same (fleet : Fleet) (cell : Nat) (state : HeavyProxy) :
    (fleet.write cell state).cells cell = state := if_pos rfl

theorem write_other (fleet : Fleet) {cell other : Nat} (state : HeavyProxy) (h : other ≠ cell) :
    (fleet.write cell state).cells other = fleet.cells other := if_neg h

theorem stocked_write {fleet : Fleet} {cell : Nat} {state : HeavyProxy}
    (h : ∀ cell, (fleet.cells cell).Stocked) (hstate : state.Stocked) (other : Nat) :
    ((fleet.write cell state).cells other).Stocked := by
  by_cases hother : other = cell
  · rw [hother, write_same]
    exact hstate
  · rw [write_other fleet state hother]
    exact h other

/-- What is on offer behind a write of one cell. -/
theorem hosts_write {fleet : Fleet} {cell other : Nat} {state : HeavyProxy} {base : Str}
    (h : base ∈ ((fleet.write cell state).cells other).hosts) :
    other = cell ∧ base ∈ state.hosts ∨ other ≠ cell ∧ base ∈ (fleet.cells other).hosts := by
  by_cases hother : other = cell
  · rw [hother, write_same] at h
    exact .inl ⟨hother, h⟩
  · rw [write_other fleet state hother] at h
    exact .inr ⟨hother, h⟩

/-- The clients change, and a fresh cell is there for the one that is new: it takes the fresh
cell, or shares a cell and its rules with a client that was there. -/
theorem Sound.admit {fleet fleet' : Fleet} (h : fleet.Sound) {t : Transport}
    (hcells : fleet'.cells = fleet.cells ∧ fleet'.made = fleet.made ∨
      fleet'.cells = (fleet.write fleet.made .unasked).cells ∧ fleet'.made = fleet.made + 1)
    (hclients : ∀ u ∈ fleet'.clients, u = t ∨ u ∈ fleet.clients)
    (hunderway : fleet'.underway = fleet.underway) (hchosen : fleet'.chosen = fleet.chosen)
    (ht : fleet'.made = fleet.made + 1 ∧ t.heavy = fleet.made ∨
      ∃ u ∈ fleet.clients, t.heavy = u.heavy ∧ t.base = u.base ∧ t.hosts = u.hosts) :
    fleet'.Sound := by
  -- below the fresh number, nothing has changed
  have hmade : fleet.made ≤ fleet'.made := by
    rcases hcells with ⟨_, hmade⟩ | ⟨_, hmade⟩
    · exact Nat.le_of_eq hmade.symm
    · rw [hmade]
      exact Nat.le_succ _
  have hold : ∀ cell, cell < fleet.made → fleet'.cells cell = fleet.cells cell := by
    intro cell hcell
    rcases hcells with ⟨hsame, _⟩ | ⟨hfresh, _⟩
    · rw [hsame]
    · rw [hfresh]
      exact write_other fleet _ (Nat.ne_of_lt hcell)
  have hfresh : fleet'.made = fleet.made + 1 → (fleet'.cells fleet.made).hosts = [] := by
    intro hmore
    rcases hcells with ⟨_, hmade⟩ | ⟨hcells, _⟩
    · exact absurd (hmade.symm.trans hmore) (Nat.ne_of_lt (Nat.lt_succ_self _))
    · rw [hcells, write_same]
      rfl
  -- a client of the new fleet is alone in the fresh cell, or has the rules of an old one
  have hlike : ∀ u ∈ fleet'.clients,
      fleet'.made = fleet.made + 1 ∧ u = t ∧ u.heavy = fleet.made ∨
        ∃ v ∈ fleet.clients, u.heavy = v.heavy ∧ u.base = v.base ∧ u.hosts = v.hosts := by
    intro u hu
    rcases hclients u hu with rfl | hu
    · exact ht.imp (fun h => ⟨h.1, rfl, h.2⟩) id
    · exact .inr ⟨u, hu, rfl, rfl, rfl⟩
  constructor
  · intro cell
    rcases hcells with ⟨hsame, _⟩ | ⟨hfresh, _⟩
    · rw [hsame]
      exact h.stocked cell
    · rw [hfresh]
      exact stocked_write h.stocked Transport.stocked_unasked cell
  · intro u hu
    rcases hlike u hu with ⟨hmore, _, hheavy⟩ | ⟨v, hv, hheavy, _⟩
    · rw [hheavy, hmore]
      exact Nat.lt_succ_self _
    · rw [hheavy]
      exact Nat.lt_of_lt_of_le (h.numbered v hv) hmade
  · rw [hunderway]
    intro routed hrouted
    exact Nat.lt_of_lt_of_le (h.flying routed hrouted) hmade
  · intro u hu v hv hsame
    rcases hlike u hu with ⟨_, rfl, hheavy⟩ | ⟨w, hw, hwheavy, hwbase, hwhosts⟩
    · rcases hlike v hv with ⟨_, rfl, _⟩ | ⟨w, hw, hwheavy, _⟩
      · exact ⟨rfl, rfl⟩
      · have hlt := h.numbered w hw
        rw [← hwheavy, ← hsame, hheavy] at hlt
        exact absurd hlt (Nat.lt_irrefl _)
    · rcases hlike v hv with ⟨_, rfl, hheavy⟩ | ⟨x, hx, hxheavy, hxbase, hxhosts⟩
      · have hlt := h.numbered w hw
        rw [← hwheavy, hsame, hheavy] at hlt
        exact absurd hlt (Nat.lt_irrefl _)
      · obtain ⟨hbase, hhosts⟩ := h.agree w hw x hx (hwheavy.symm.trans (hsame.trans hxheavy))
        exact ⟨hwbase.trans (hbase.trans hxbase.symm), hwhosts.trans (hhosts.trans hxhosts.symm)⟩
  · intro u hu base hbase
    rcases hlike u hu with ⟨hmore, _, hheavy⟩ | ⟨v, hv, hheavy, hvbase, hvhosts⟩
    · rw [hheavy, hfresh hmore] at hbase
      cases hbase
    · rw [hheavy, hold _ (h.numbered v hv)] at hbase
      exact (h.offered v hv base hbase).congr hvbase.symm hvhosts.symm
  · intro cell hcell
    rcases hcells with ⟨hsame, _⟩ | ⟨hwritten, _⟩
    · rw [hsame]
      exact h.unmade cell (Nat.le_trans hmade hcell)
    · rw [hwritten]
      by_cases hthis : cell = fleet.made
      · rw [hthis, write_same]
        rfl
      · rw [write_other fleet _ hthis]
        exact h.unmade cell (Nat.le_trans hmade hcell)
  · rw [hchosen]
    exact h.chosen

/-- One cell is written, with hosts that its clients may use. -/
theorem Sound.rewrite {fleet fleet' : Fleet} (h : fleet.Sound) {cell : Nat} {state : HeavyProxy}
    (hcells : fleet'.cells = (fleet.write cell state).cells) (hmade : fleet'.made = fleet.made)
    (hclients : fleet'.clients = fleet.clients) (hcell : cell < fleet.made)
    (hstate : state.Stocked)
    (hhosts : ∀ t ∈ fleet.clients, t.heavy = cell → ∀ base ∈ state.hosts, t.Admits base)
    (hunderway : ∀ routed ∈ fleet'.underway, routed.client.heavy < fleet.made)
    (hchosen : ∀ routed ∈ fleet'.chosen, routed.Within) : fleet'.Sound := by
  constructor
  · intro other
    rw [hcells]
    exact stocked_write h.stocked hstate other
  · rw [hclients, hmade]
    exact h.numbered
  · rw [hmade]
    exact hunderway
  · rw [hclients]
    exact h.agree
  · rw [hclients, hcells]
    intro t ht base hbase
    rcases hosts_write hbase with ⟨hsame, hbase⟩ | ⟨_, hbase⟩
    · exact hhosts t ht hsame base hbase
    · exact h.offered t ht base hbase
  · rw [hcells, hmade]
    intro other hother
    rw [write_other fleet state (Nat.ne_of_gt (Nat.lt_of_lt_of_le hcell hother))]
    exact h.unmade other hother
  · exact hchosen

variable {fleet fleet' : Fleet}

theorem allocate_below {cell : Nat} (h : cell < fleet.made) :
    fleet.allocate.cells cell = fleet.cells cell :=
  write_other fleet _ (Nat.ne_of_lt h)

theorem Sound.route (h : fleet.Sound) {client : Nat} {t : Transport}
    (ht : fleet.clients[client]? = some t) {repeatable : Repeatable} {asking : Asking}
    {state : HeavyProxy} {destination : Destination}
    (hroutes : t.Routes repeatable (fleet.cells t.heavy) asking state destination) :
    ({ fleet.write t.heavy state with
      underway := fleet.underway ++ [⟨t, repeatable, destination⟩]
      chosen := fleet.chosen ++ [⟨t, repeatable, destination⟩] } : Fleet).Sound := by
  have hmem : t ∈ fleet.clients := List.mem_of_getElem? ht
  have hhosts : ∀ base ∈ state.hosts, t.Admits base := by
    intro base hbase
    rcases hroutes.hosts with hsame | ⟨_, hosts, _, hnew⟩
    · rw [hsame] at hbase
      exact h.offered t hmem base hbase
    · rw [hnew] at hbase
      exact Transport.admits_of_usable hbase
  refine h.rewrite rfl rfl rfl (h.numbered t hmem) hroutes.stocked ?_ ?_ ?_
  · intro u hu hsame base hbase
    -- the clients of the cell have the rules of the one that asked
    obtain ⟨hubase, huhosts⟩ := h.agree t hmem u hu hsame.symm
    exact (hhosts base hbase).congr hubase huhosts
  · intro routed hrouted
    rcases List.mem_append.mp hrouted with hrouted | hrouted
    · exact h.flying routed hrouted
    · rw [List.mem_singleton.mp hrouted]
      exact h.numbered t hmem
  · intro routed hrouted
    rcases List.mem_append.mp hrouted with hrouted | hrouted
    · exact h.chosen routed hrouted
    · rw [List.mem_singleton.mp hrouted]
      rcases hroutes.found with hfound | ⟨hheavy, base, hbase, hfound⟩
      · exact .inl hfound
      · exact .inr ⟨hheavy, base, hhosts base hbase, hfound⟩

variable [JsonText]

/-- **What a look for a destination does to the fleet.** -/
theorem step_route (h : fleet.Sound) {client : Nat} {t : Transport}
    (ht : fleet.clients[client]? = some t) (repeatable : Repeatable) (asking : Asking) :
    ∃ state destination, t.Routes repeatable (fleet.cells t.heavy) asking state destination ∧
      fleet.step (.route client repeatable asking) = some { fleet.write t.heavy state with
        underway := fleet.underway ++ [⟨t, repeatable, destination⟩]
        chosen := fleet.chosen ++ [⟨t, repeatable, destination⟩] } := by
  obtain ⟨state, destination, hfound, hroutes⟩ :=
    t.baseFor_spec repeatable asking (h.stocked t.heavy)
  refine ⟨state, destination, hroutes, ?_⟩
  unfold step
  dsimp only
  rw [ht]
  dsimp only
  rw [hfound]

/-- What a result does to the cell of the command it is the result of. -/
theorem hosts_judged (routed : Routed) (result : Except ClientError Unit) (state : HeavyProxy)
    (now : Instant) (other : Str) :
    other ∈ (routed.client.afterHeavy routed.repeatable routed.destination result state
        now).2.hosts ↔
      other ∈ state.hosts ∧
        ¬ routed.client.blames routed.repeatable routed.destination result other := by
  by_cases hblames :
      ∃ base, routed.client.blames routed.repeatable routed.destination result base
  · obtain ⟨base, hblames⟩ := hblames
    rw [Transport.afterHeavy_blames hblames, Transport.mem_dropFailed]
    apply and_congr_right
    intro _
    apply not_congr
    constructor
    · rintro rfl
      exact hblames
    · intro hother
      -- a command went to one host only
      have hsame := hblames.2.2.1.symm.trans hother.2.2.1
      cases hsame
      rfl
  · rw [Transport.afterHeavy_keeps fun base hbase => hblames ⟨base, hbase⟩]
    exact ⟨fun hmem => ⟨hmem, fun hother => hblames ⟨other, hother⟩⟩, And.left⟩

theorem Sound.judge (h : fleet.Sound) {command : Nat} {routed : Routed}
    (hrouted : fleet.underway[command]? = some routed) (result : Except ClientError Unit) (now : Instant) :
    ({ fleet.write routed.client.heavy (routed.client.afterHeavy routed.repeatable
        routed.destination result (fleet.cells routed.client.heavy) now).2 with
      underway := fleet.underway.eraseIdx command } : Fleet).Sound := by
  refine h.rewrite rfl rfl rfl (h.flying routed (List.mem_of_getElem? hrouted)) ?_ ?_ ?_ ?_
  · by_cases hblames :
        ∃ base, routed.client.blames routed.repeatable routed.destination result base
    · obtain ⟨base, hblames⟩ := hblames
      rw [Transport.afterHeavy_blames hblames]
      exact Transport.stocked_dropFailed (h.stocked _)
    · rw [Transport.afterHeavy_keeps fun base hbase => hblames ⟨base, hbase⟩]
      exact h.stocked _
  · intro t ht hsame base hbase
    have hwas := ((hosts_judged routed result _ now base).mp hbase).1
    rw [← hsame] at hwas
    exact h.offered t ht base hwas
  · intro other hother
    exact h.flying other (List.mem_of_mem_eraseIdx hother)
  · exact h.chosen

/-- **One act keeps the fleet sound.** -/
theorem Sound.step (h : fleet.Sound) {act : Act} (hstep : fleet.step act = some fleet') :
    fleet'.Sound := by
  cases act with
  | connect proxy token tls tlsRefused insideJob =>
    cases hstep
    refine h.admit (t := Transport.new proxy token tls tlsRefused insideJob fleet.made)
      (.inr ⟨rfl, rfl⟩) ?_ rfl rfl (.inl ⟨rfl, rfl⟩)
    intro u hu
    rcases List.mem_append.mp hu with hu | hu
    · exact .inr hu
    · exact .inl (List.mem_singleton.mp hu)
  | clone client =>
    obtain ⟨t, ht, rfl⟩ := Option.map_eq_some_iff.mp hstep
    have hmem : t ∈ fleet.clients := List.mem_of_getElem? ht
    refine h.admit (t := t) (.inl ⟨rfl, rfl⟩) ?_ rfl rfl (.inr ⟨t, hmem, rfl, rfl, rfl⟩)
    intro u hu
    rcases List.mem_append.mp hu with hu | hu
    · exact .inr hu
    · exact .inl (List.mem_singleton.mp hu)
  | configure client setting =>
    obtain ⟨t, ht, rfl⟩ := Option.map_eq_some_iff.mp hstep
    have hmem : t ∈ fleet.clients := List.mem_of_getElem? ht
    obtain ⟨hbase, hset⟩ := t.set_cases fleet.made setting
    refine h.admit (t := t.set fleet.made setting) (.inr ⟨rfl, rfl⟩) ?_ rfl rfl ?_
    · intro u hu
      exact (List.mem_or_eq_of_mem_set hu).symm
    · rcases hset with hfresh | ⟨hheavy, hhosts⟩
      · exact .inl ⟨rfl, hfresh⟩
      · exact .inr ⟨t, hmem, hheavy, hbase, hhosts⟩
  | route client repeatable asking =>
    cases ht : fleet.clients[client]? with
    | none =>
      unfold Fleet.step at hstep
      dsimp only at hstep
      rw [ht] at hstep
      cases hstep
    | some t =>
      obtain ⟨state, destination, hroutes, hmade⟩ := step_route h ht repeatable asking
      cases hmade.symm.trans hstep
      exact h.route ht hroutes
  | judge command result now =>
    obtain ⟨routed, hrouted, rfl⟩ := Option.map_eq_some_iff.mp hstep
    exact h.judge hrouted result now

theorem sound_of_runs (h : Runs Fleet.step anySchedule empty fleet) : fleet.Sound :=
  h.invariant sound_empty fun hsound _ hstep => hsound.step hstep

/-! ## What is on offer -/

/-- An act by which hosts come to be on offer in a cell: a client of it asks the cluster, which
names some that may be used. -/
def Relists (fleet : Fleet) (cell : Nat) : Act → Prop
  | .route client repeatable asking =>
    ∃ t, fleet.clients[client]? = some t ∧ t.heavy = cell ∧
      t.relists repeatable (fleet.cells cell) asking
  | _ => False

/-- A failure that is put down to a host of a cell. -/
def Blames (fleet : Fleet) (cell : Nat) (base : Str) : Act → Prop
  | .judge command result _ =>
    ∃ routed, fleet.underway[command]? = some routed ∧ routed.client.heavy = cell ∧
      routed.client.blames routed.repeatable routed.destination result base
  | _ => False

/-- **What one act does to a cell**, unless it puts new hosts on offer: a host goes when a failure
is put down to it, and the others stay. -/
theorem hosts_step (h : fleet.Sound) {act : Act} (hstep : fleet.step act = some fleet') {cell : Nat}
    (hcell : cell < fleet.made) (hnew : ¬ fleet.Relists cell act) (base : Str) :
    base ∈ (fleet'.cells cell).hosts ↔
      base ∈ (fleet.cells cell).hosts ∧ ¬ fleet.Blames cell base act := by
  cases act with
  | connect proxy token tls tlsRefused insideJob =>
    cases hstep
    show base ∈ (fleet.allocate.cells cell).hosts ↔ _
    rw [allocate_below hcell]
    exact (and_iff_left id).symm
  | clone client =>
    obtain ⟨t, _, rfl⟩ := Option.map_eq_some_iff.mp hstep
    exact (and_iff_left id).symm
  | configure client setting =>
    obtain ⟨t, _, rfl⟩ := Option.map_eq_some_iff.mp hstep
    show base ∈ (fleet.allocate.cells cell).hosts ↔ _
    rw [allocate_below hcell]
    exact (and_iff_left id).symm
  | route client repeatable asking =>
    cases ht : fleet.clients[client]? with
    | none =>
      unfold step at hstep
      dsimp only at hstep
      rw [ht] at hstep
      cases hstep
    | some t =>
      obtain ⟨state, destination, hroutes, hmade⟩ := step_route h ht repeatable asking
      cases hmade.symm.trans hstep
      show base ∈ ((fleet.write t.heavy state).cells cell).hosts ↔ _
      rw [show (¬ fleet.Blames cell base (.route client repeatable asking)) = ¬ False from rfl,
        and_iff_left id]
      by_cases hthis : cell = t.heavy
      · subst hthis
        rw [write_same]
        rcases hroutes.hosts with hsame | ⟨hlists, _⟩
        · rw [hsame]
        · exact absurd ⟨t, ht, rfl, hlists⟩ hnew
      · rw [write_other fleet state hthis]
  | judge command result now =>
    obtain ⟨routed, hrouted, rfl⟩ := Option.map_eq_some_iff.mp hstep
    show base ∈ ((fleet.write routed.client.heavy _).cells cell).hosts ↔ _
    have hblames : fleet.Blames cell base (.judge command result now) ↔
        routed.client.heavy = cell ∧
          routed.client.blames routed.repeatable routed.destination result base := by
      constructor
      · rintro ⟨other, hother, hrest⟩
        cases hrouted.symm.trans hother
        exact hrest
      · intro hrest
        exact ⟨routed, hrouted, hrest⟩
    rw [hblames]
    by_cases hthis : cell = routed.client.heavy
    · subst hthis
      rw [write_same, hosts_judged, and_iff_right rfl]
    · rw [write_other fleet _ hthis]
      exact (and_iff_left fun hboth => hthis hboth.1.symm).symm

theorem made_step {act : Act} (hstep : fleet.step act = some fleet') :
    fleet.made ≤ fleet'.made := by
  cases act with
  | connect proxy token tls tlsRefused insideJob =>
    cases hstep
    exact Nat.le_succ _
  | clone client =>
    obtain ⟨t, _, rfl⟩ := Option.map_eq_some_iff.mp hstep
    exact Nat.le_refl _
  | configure client setting =>
    obtain ⟨t, _, rfl⟩ := Option.map_eq_some_iff.mp hstep
    exact Nat.le_succ _
  | route client repeatable asking =>
    unfold step at hstep
    dsimp only at hstep
    split at hstep
    · cases hstep
    · split at hstep
      · cases hstep
      · cases hstep
        exact Nat.le_refl _
  | judge command result now =>
    obtain ⟨routed, _, rfl⟩ := Option.map_eq_some_iff.mp hstep
    exact Nat.le_refl _

/-- A choice is the configured base, or a host that is on offer. -/
theorem chosen_step (h : fleet.Sound) {act : Act} (hstep : fleet.step act = some fleet') :
    ∃ more, fleet'.chosen = fleet.chosen ++ more ∧ ∀ routed ∈ more,
      routed.destination = .configured routed.client.base ∨
        ∃ base ∈ (fleet'.cells routed.client.heavy).hosts,
          routed.destination = .discovered base := by
  cases act with
  | connect proxy token tls tlsRefused insideJob =>
    cases hstep
    exact ⟨[], (List.append_nil _).symm, List.forall_mem_nil _⟩
  | clone client =>
    obtain ⟨t, _, rfl⟩ := Option.map_eq_some_iff.mp hstep
    exact ⟨[], (List.append_nil _).symm, List.forall_mem_nil _⟩
  | configure client setting =>
    obtain ⟨t, _, rfl⟩ := Option.map_eq_some_iff.mp hstep
    exact ⟨[], (List.append_nil _).symm, List.forall_mem_nil _⟩
  | route client repeatable asking =>
    cases ht : fleet.clients[client]? with
    | none =>
      unfold step at hstep
      dsimp only at hstep
      rw [ht] at hstep
      cases hstep
    | some t =>
      obtain ⟨state, destination, hroutes, hmade⟩ := step_route h ht repeatable asking
      cases hmade.symm.trans hstep
      refine ⟨[⟨t, repeatable, destination⟩], rfl, ?_⟩
      intro routed hrouted
      rw [List.mem_singleton.mp hrouted]
      rcases hroutes.found with hfound | ⟨_, base, hbase, hfound⟩
      · exact .inl hfound
      · refine .inr ⟨base, ?_, hfound⟩
        show base ∈ ((fleet.write t.heavy state).cells t.heavy).hosts
        rw [write_same]
        exact hbase
  | judge command result now =>
    obtain ⟨routed, _, rfl⟩ := Option.map_eq_some_iff.mp hstep
    exact ⟨[], (List.append_nil _).symm, List.forall_mem_nil _⟩

/-- **A host that is off stays off** until hosts are put on offer again, and no command goes
there. -/
theorem stays_off (h : fleet.Sound) {cell : Nat} {base : Str} (hcell : cell < fleet.made)
    (hoff : base ∉ (fleet.cells cell).hosts) {later : Fleet}
    (hruns : Runs step (fun fleet act => ¬ fleet.Relists cell act) fleet later) :
    base ∉ (later.cells cell).hosts ∧ ∃ more, later.chosen = fleet.chosen ++ more ∧
      ∀ routed ∈ more, routed.client.heavy = cell → routed.destination ≠ .discovered base := by
  have hboth : later.Sound ∧ cell < later.made ∧ base ∉ (later.cells cell).hosts ∧
      ∃ more, later.chosen = fleet.chosen ++ more ∧
        ∀ routed ∈ more, routed.client.heavy = cell → routed.destination ≠ .discovered base := by
    induction hruns with
    | refl => exact ⟨h, hcell, hoff, [], (List.append_nil _).symm, List.forall_mem_nil _⟩
    | @step later next act _ hnew hstep ih =>
      obtain ⟨hsound, hbelow, hstill, more, hchosen, hmore⟩ := ih
      have hafter : base ∉ (next.cells cell).hosts := by
        intro hback
        exact hstill ((hosts_step hsound hstep hbelow hnew base).mp hback).1
      obtain ⟨latest, hlatest, hall⟩ := chosen_step hsound hstep
      refine ⟨hsound.step hstep, Nat.lt_of_lt_of_le hbelow (made_step hstep), hafter,
        more ++ latest, by rw [hlatest, hchosen, List.append_assoc], ?_⟩
      intro routed hrouted hthis
      rcases List.mem_append.mp hrouted with hrouted | hrouted
      · exact hmore routed hrouted hthis
      · intro hthere
        rcases hall routed hrouted with hbase | ⟨other, hother, hfound⟩
        · cases hbase.symm.trans hthere
        · cases hfound.symm.trans hthere
          rw [hthis] at hother
          exact hafter hother
  exact ⟨hboth.2.2.1, hboth.2.2.2⟩

/-- **A host stays on** while no failure is put down to it. -/
theorem stays_on (h : fleet.Sound) {cell : Nat} {base : Str}
    (hon : base ∈ (fleet.cells cell).hosts) {later : Fleet}
    (hruns : Runs step (fun fleet act => ¬ fleet.Relists cell act ∧ ¬ fleet.Blames cell base act)
      fleet later) : base ∈ (later.cells cell).hosts := by
  have hcell : cell < fleet.made := by
    apply Nat.lt_of_not_le
    intro hle
    rw [h.unmade cell hle] at hon
    cases hon
  have hboth : later.Sound ∧ cell < later.made ∧ base ∈ (later.cells cell).hosts := by
    induction hruns with
    | refl => exact ⟨h, hcell, hon⟩
    | step _ hok hstep ih =>
      obtain ⟨hsound, hbelow, hstill⟩ := ih
      exact ⟨hsound.step hstep, Nat.lt_of_lt_of_le hbelow (made_step hstep),
        (hosts_step hsound hstep hbelow hok.1 base).mpr ⟨hstill, hok.2⟩⟩
  exact hboth.2.2

/-- What a failure that is put down to a host does to the cells. -/
theorem hosts_blamed {act : Act} (hstep : fleet.step act = some fleet')
    {cell : Nat} {base : Str} (hblames : fleet.Blames cell base act) (place : Nat) (other : Str) :
    other ∈ (fleet'.cells place).hosts ↔
      other ∈ (fleet.cells place).hosts ∧ ¬ (place = cell ∧ other = base) := by
  cases act with
  | judge command result now =>
    obtain ⟨routed, hrouted, rfl⟩ := Option.map_eq_some_iff.mp hstep
    obtain ⟨_, hsame, rfl, hblames⟩ := hblames
    cases hrouted.symm.trans hsame
    show other ∈ ((fleet.write routed.client.heavy _).cells place).hosts ↔ _
    by_cases hthis : place = routed.client.heavy
    · subst hthis
      rw [write_same, Transport.afterHeavy_blames hblames, Transport.mem_dropFailed,
        and_iff_right rfl]
    · rw [write_other fleet _ hthis]
      exact (and_iff_left fun hboth => hthis hboth.1).symm
  | connect _ _ _ _ _ => cases hblames
  | clone _ => cases hblames
  | configure _ _ => cases hblames
  | route _ _ _ => cases hblames

/-- **The pool stays within policy**, in every run of commands on any clones, changes of policy,
answers and failures: a stored pool has a host, so no look for a destination panics; a light
command goes to the configured base, and a heavy one there or to the base of a host that its
client's own policy admits; and a failure that is put down to a host takes it off until the
cluster is asked again, and no other. -/
theorem pool_within_policy :
    (∀ fleet, Runs step anySchedule empty fleet →
        (∀ cell, (fleet.cells cell).Stocked) ∧ (∀ routed ∈ fleet.chosen, routed.Within) ∧
          ∀ (client : Nat) (t : Transport), fleet.clients[client]? = some t →
            ∀ repeatable asking, ∃ fleet', fleet.step (.route client repeatable asking) = some fleet')
      ∧ (∀ fleet fleet' act cell base, Runs step anySchedule empty fleet →
          fleet.step act = some fleet' → fleet.Blames cell base act →
          (∀ place other, other ∈ (fleet'.cells place).hosts ↔
              other ∈ (fleet.cells place).hosts ∧ ¬ (place = cell ∧ other = base)) ∧
            ∀ later, Runs step (fun fleet act => ¬ fleet.Relists cell act) fleet' later →
              base ∉ (later.cells cell).hosts ∧ ∃ more, later.chosen = fleet'.chosen ++ more ∧
                ∀ routed ∈ more, routed.client.heavy = cell →
                  routed.destination ≠ .discovered base)
      ∧ ∀ fleet later cell base, Runs step anySchedule empty fleet →
          base ∈ (fleet.cells cell).hosts →
          Runs step (fun fleet act => ¬ fleet.Relists cell act ∧ ¬ fleet.Blames cell base act)
            fleet later →
          base ∈ (later.cells cell).hosts := by
  refine ⟨?_, ?_, ?_⟩
  · intro fleet hruns
    have hsound := sound_of_runs hruns
    refine ⟨hsound.stocked, hsound.chosen, ?_⟩
    intro client t ht repeatable asking
    obtain ⟨_, _, _, hstep⟩ := step_route hsound ht repeatable asking
    exact ⟨_, hstep⟩
  · intro fleet fleet' act cell base hruns hstep hblames
    have hsound := sound_of_runs hruns
    have hcells := hosts_blamed hstep hblames
    refine ⟨hcells, ?_⟩
    intro later hlater
    have hcell : cell < fleet'.made := by
      cases act with
      | judge command result now =>
        obtain ⟨routed, hrouted, rfl, _⟩ := hblames
        exact Nat.lt_of_lt_of_le (hsound.flying routed (List.mem_of_getElem? hrouted))
          (made_step hstep)
      | connect _ _ _ _ _ => cases hblames
      | clone _ => cases hblames
      | configure _ _ => cases hblames
      | route _ _ _ => cases hblames
    have hoff : base ∉ (fleet'.cells cell).hosts := by
      intro hstill
      exact ((hcells cell base).mp hstill).2 ⟨rfl, rfl⟩
    exact stays_off (hsound.step hstep) hcell hoff hlater
  · intro fleet later cell base hruns hon hlater
    exact stays_on (sound_of_runs hruns) hon hlater

end Fleet

end Ytsaurus.Client
