import Ytsaurus.Client.Call
import Ytsaurus.Proof.Client.Http
import Ytsaurus.Proof.Client.Retry
import Ytsaurus.Proof.Client.Routing
import Ytsaurus.Proof.Scalars

/-!
# `Proof/Client/Call.lean` — the attempts of one command are one mutation

An attempt carries the stamped parameters, with the id of the command and a flag that says
whether it is a repetition (`Marks`). The loop keeps the list of what was sent in step with the
list of outcomes, so everything that is said of one attempt holds of each.

The id is drawn before the loop and the flag inside it, from the number of the attempt. That is all
that may differ between two attempts: the address is chosen once, and a payload that can be sent
twice is sent as it is. `Makes` says this of what `send` is given, and `Makes.onWire` of the
requests that leave it: every one of them, also behind a redirect, has these parameters in its
header. The cluster recognises a repetition by these two fields and by nothing else.

Whether there is a second attempt depends on the class of the command and on the error
(`Proof/Client/Retry.lean`); which host a heavy one goes to is `Proof/Client/Routing.lean`.
-/

set_option autoImplicit false

namespace Ytsaurus.Client

open Yson (YsonValue FloatText)

/-! ## The parameters -/

/-- The parameters a command is sent with carry the client's transaction, unless they name one
or the command takes none; everything else is as the caller gave it. -/
structure Stamps (t : Transport) (command : String) (parameters stamped : YsonValue) : Prop where
  attributes : stamped.attributes = parameters.attributes
  transaction : field stamped TRANSACTION_ID =
    if takesNoTransaction command then field parameters TRANSACTION_ID
    else (field parameters TRANSACTION_ID).or (t.transaction.map YsonBuild.string)
  others : ∀ name, name ≠ TRANSACTION_ID → field stamped name = field parameters name

/-- The parameters of the attempt behind `n` others: the id is that of the command, and the flag
says whether there were others, or the caller called this a replay. -/
structure Marks (stamped : YsonValue) (mutationId : Option MutationId) (n : Nat)
    (parameters : YsonValue) : Prop where
  attributes : parameters.attributes = stamped.attributes
  id : ∀ id, mutationId = some id →
    field parameters "mutation_id" = some (YsonBuild.string id.id)
  retry : ∀ id, mutationId = some id →
    field parameters "retry" = some (YsonBuild.boolean (decide (0 < n) || id.retry))
  others : ∀ name, mutationId = none ∨ name ≠ "mutation_id" ∧ name ≠ "retry" →
    field parameters name = field stamped name

theorem Stamps.refl {t : Transport} {command : String} {parameters : YsonValue}
    (h : takesNoTransaction command = true ∨ t.transaction = none ∨
      (field parameters TRANSACTION_ID).isSome) : Stamps t command parameters parameters where
  attributes := rfl
  transaction := by
    by_cases htakes : takesNoTransaction command = true
    · rw [if_pos htakes]
    · rw [if_neg htakes]
      rcases h with h | h | h
      · exact absurd h htakes
      · rw [h, Option.map_none, Option.or_none]
      · obtain ⟨own, hown⟩ := Option.isSome_iff_exists.mp h
        rw [hown, Option.some_or]
  others := fun _ _ => rfl

/-- **The client's transaction goes in**, in one place. -/
theorem Transport.stamped_ok (t : Transport) (command : String) {parameters : YsonValue}
    (h : isDict parameters) :
    ∃ stamped, t.stamped command parameters = .ok stamped ∧ isDict stamped ∧
      Stamps t command parameters stamped := by
  unfold stamped inTransaction
  cases htransaction : t.transaction with
  | none => exact ⟨parameters, rfl, h, Stamps.refl (.inr (.inl htransaction))⟩
  | some id =>
    dsimp only
    by_cases htakes : takesNoTransaction command = true
    · rw [if_pos htakes]
      exact ⟨parameters, rfl, h, Stamps.refl (.inl htakes)⟩
    · rw [if_neg htakes]
      by_cases hown : (field parameters TRANSACTION_ID).isSome = true
      · rw [if_pos hown]
        exact ⟨parameters, rfl, h, Stamps.refl (.inr (.inr hown))⟩
      · rw [if_neg hown]
        obtain ⟨tagged, htagged⟩ :=
          YsonBuild.insert_dict h TRANSACTION_ID (YsonBuild.string id)
        rw [htagged]
        refine ⟨tagged, rfl, YsonBuild.isDict_insert htagged, ?_, ?_, ?_⟩
        · exact YsonBuild.attributes_insert htagged
        · rw [if_neg htakes, YsonBuild.field_insert htagged, if_pos rfl,
            Option.not_isSome_iff_eq_none.mp hown, htransaction]
          rfl
        · intro name hname
          rw [YsonBuild.field_insert htagged, if_neg hname]

/-- **The id of the command goes in**, and the flag. -/
theorem taggedWith_ok {stamped : YsonValue} (h : isDict stamped) (mutationId : Option MutationId)
    (n : Nat) :
    ∃ tagged, taggedWith stamped mutationId (decide (0 < n)) = .ok tagged ∧
      Marks stamped mutationId n tagged := by
  cases mutationId with
  | none => exact ⟨stamped, rfl, rfl, nofun, nofun, fun _ _ => rfl⟩
  | some id =>
    obtain ⟨first, hfirst⟩ :=
      YsonBuild.insert_dict h "mutation_id" (YsonBuild.string id.id)
    obtain ⟨second, hsecond⟩ := YsonBuild.insert_dict (YsonBuild.isDict_insert hfirst) "retry"
      (YsonBuild.boolean (decide (0 < n) || id.retry))
    have hne : "mutation_id" ≠ "retry" := by decide
    refine ⟨second, ?_, ?_, ?_, ?_, ?_⟩
    · unfold taggedWith
      dsimp only
      rw [hfirst]
      exact hsecond
    · exact (YsonBuild.attributes_insert hsecond).trans (YsonBuild.attributes_insert hfirst)
    · rintro id' ⟨⟩
      rw [YsonBuild.field_insert hsecond, if_neg hne, YsonBuild.field_insert hfirst, if_pos rfl]
    · rintro id' ⟨⟩
      rw [YsonBuild.field_insert hsecond, if_pos rfl]
    · rintro name (hnone | ⟨hid, hretry⟩)
      · cases hnone
      · rw [YsonBuild.field_insert hsecond, if_neg hretry, YsonBuild.field_insert hfirst,
          if_neg hid]

/-! ## The attempts -/

variable [JsonText]

/-- What a result is reported as: for a heavy command an error says where it happened, or why it
was served there; anything else is reported as it is. -/
def Reported (repeatable : Repeatable) (last reported : Except ClientError (List UInt8)) : Prop :=
  reported = last ∨
    repeatable = .heavy ∧ ∃ error, last = .error error ∧
      ((∃ why, reported = .error (refusalHint error why)) ∨
        ∃ base, reported = .error (routedTo error base))

theorem Reported.afterHeavy (t : Transport) (repeatable : Repeatable) (destination : Destination)
    (result : Except ClientError (List UInt8)) (state : HeavyProxy) (now : Instant) :
    Reported repeatable result (t.afterHeavy repeatable destination result state now).1 := by
  by_cases hlight : repeatable ≠ .heavy
  · left
    unfold Transport.afterHeavy
    rw [if_pos hlight]
  · obtain ⟨hok, herror⟩ := t.afterHeavy_result repeatable destination result state now
    cases result with
    | ok value => exact .inl (hok value rfl)
    | error error =>
      rcases herror error rfl with h | h | h
      · exact .inl h
      · exact .inr ⟨Decidable.not_not.mp hlight, error, rfl, .inl h⟩
      · exact .inr ⟨Decidable.not_not.mp hlight, error, rfl, .inr h⟩

theorem longer_of_stops {α σ : Type} {policy : RetryPolicy} {allowed : Nat} {ran : Ran α σ}
    {failures : List ClientError} {last : Except ClientError α}
    (h : Stops policy allowed ran failures last) :
    ran.sleeps.Pairwise (· ≤ ·) ∧ ∀ pause ∈ ran.sleeps, pause ≤ policy.maxBackoff := by
  rw [h.sleeps]
  refine ⟨?_, ?_⟩
  · rw [List.pairwise_map]
    apply (List.pairwise_lt_range (n := failures.length)).imp
    intro a b hab
    exact policy.backoff_mono (Nat.succ_le_succ (Nat.le_of_lt hab))
  · intro pause hpause
    obtain ⟨i, _, rfl⟩ := List.mem_map.mp hpause
    exact policy.backoff_le (i + 1)

/-- A light command goes to the configured base, whatever the clones found out. -/
theorem Transport.baseFor_light (t : Transport) {repeatable : Repeatable}
    (h : repeatable ≠ .heavy) (state : HeavyProxy) (asking : Asking) :
    t.baseFor repeatable state asking = .ok (state, .configured t.base) :=
  if_pos (.inl h)

variable [FloatText]

/-- The attempt behind `n` others: where it went, what it asked, and what came of it. -/
structure Makes (t : Transport) (network : Nat → Nat → Hop) (base : Str) (method : Method)
    (command : String) (stamped : YsonValue) (payload : Payload)
    (mutationId : Option MutationId) (n : Nat) (sent : Sent)
    (outcome : Except ClientError (List UInt8)) : Prop where
  base : sent.attempt.base = base
  method : sent.attempt.method = method
  command : sent.attempt.command = command
  payload : sent.attempt.payload = payload
  marks : Marks stamped mutationId n sent.attempt.parameters
  answer : t.send sent.attempt (network n) = (outcome, sent.requests)

/-- What the requests of the attempt behind `n` others say to whoever receives them: they are to the
command at this address, and every one of them, redirected or not, carries the parameters with the
marks of this attempt. -/
structure OnWire (base : Str) (method : Method) (command : String) (stamped : YsonValue)
    (mutationId : Option MutationId) (n : Nat) (requests : List Request) : Prop where
  first : ∀ request ∈ requests.head?, request.url = base ++ "/api/v4/".toList ++ command.toList
  method : ∀ request ∈ requests, request.method = method
  parameters : ∀ request ∈ requests, ∃ parameters encoded, Marks stamped mutationId n parameters ∧
    Transport.encodedParameters command parameters = .ok encoded ∧
      ("X-YT-Parameters", encoded) ∈ request.headers

/-- What was sent is in step with what came of it. -/
def InStep (t : Transport) (network : Nat → Nat → Hop) (base : Str) (method : Method)
    (command : String) (stamped : YsonValue) (payload : Payload)
    (mutationId : Option MutationId) (outcomes : List (Except ClientError (List UInt8)))
    (sent : List Sent) : Prop :=
  sent.length = outcomes.length ∧
    ∀ n one outcome, sent[n]? = some one → outcomes[n]? = some outcome →
      Makes t network base method command stamped payload mutationId n one outcome

namespace Transport

variable {t : Transport} {network : Nat → Nat → Hop} {base : Str} {method : Method}
  {command : String} {stamped : YsonValue} {payload : Payload} {mutationId : Option MutationId}

theorem inStep_nil : InStep t network base method command stamped payload mutationId [] [] := by
  refine ⟨rfl, ?_⟩
  intro n one outcome hone
  rw [List.getElem?_nil] at hone
  cases hone

/-- One attempt keeps the lists in step. -/
theorem attemptOn_inStep (h : isDict stamped) (made : List (Except ClientError (List UInt8)))
    (sent : List Sent)
    (hstep : InStep t network base method command stamped payload mutationId made sent) :
    InStep t network base method command stamped payload mutationId
      (made ++ [(t.attemptOn network base method command stamped payload mutationId
        (decide (0 < made.length)) sent).1])
      (t.attemptOn network base method command stamped payload mutationId
        (decide (0 < made.length)) sent).2 := by
  obtain ⟨hlength, hall⟩ := hstep
  obtain ⟨tagged, htagged, hmarks⟩ := taggedWith_ok h mutationId made.length
  unfold attemptOn
  rw [htagged]
  dsimp only
  refine ⟨by simp [hlength], ?_⟩
  intro n one outcome hone houtcome
  by_cases hn : n < made.length
  · rw [List.getElem?_append_left (hlength ▸ hn)] at hone
    rw [List.getElem?_append_left hn] at houtcome
    exact hall n one outcome hone houtcome
  · -- the attempt that was just made
    have hle : made.length ≤ n := Nat.le_of_not_lt hn
    rw [List.getElem?_append_right hle, List.getElem?_singleton] at houtcome
    rw [List.getElem?_append_right (hlength ▸ hle), List.getElem?_singleton, hlength] at hone
    by_cases hzero : n - made.length = 0
    · rw [if_pos hzero] at hone houtcome
      cases hone
      cases houtcome
      obtain rfl : n = made.length := Nat.le_antisymm (Nat.le_of_sub_eq_zero hzero) hle
      exact ⟨rfl, rfl, rfl, rfl, hmarks, by rw [hlength]⟩
    · rw [if_neg hzero] at hone
      cases hone

end Transport

/-! ## The requests of an attempt -/

section

variable {base : Str} {method : Method} {command : String} {stamped : YsonValue}
  {mutationId : Option MutationId}

omit [JsonText] [FloatText] in
theorem Transport.commandRequest_parameters (t : Transport) (method : Method) (encoded : Str)
    (body : Outgoing) (url : Str) :
    ("X-YT-Parameters", encoded) ∈ (t.commandRequest method encoded body url).headers := by
  apply List.mem_append_left
  unfold commandHeaders
  simp

theorem Transport.dispatch_onWire (t : Transport) {parameters : YsonValue} {n : Nat}
    (hmarks : Marks stamped mutationId n parameters) (body : Outgoing) (network : Nat → Hop) :
    OnWire base method command stamped mutationId n
      (t.dispatch base method command parameters body network).2 := by
  have hnone : OnWire base method command stamped mutationId n [] :=
    ⟨by simp, by simp, by simp⟩
  unfold dispatch
  cases t.unusable base with
  | some e => exact hnone
  | none =>
    cases hencoded : Transport.encodedParameters command parameters with
    | error e => exact hnone
    | ok encoded =>
      dsimp only
      have hchain := t.follow_chain command body (t.commandRequest method encoded body)
        t.tlsUnavailable network (MAX_REDIRECTS + 1) 0
        (base ++ "/api/v4/".toList ++ command.toList)
      generalize t.follow command _ body t.tlsUnavailable network _ 0 _ = sending at hchain ⊢
      have hwire : OnWire base method command stamped mutationId n sending.2 := by
        refine ⟨?_, ?_, ?_⟩
        · intro request hrequest
          generalize sending.2 = log at hchain hrequest
          cases hchain with
          | unsent => cases hrequest
          | last =>
            cases hrequest
            rfl
          | redirected =>
            cases hrequest
            rfl
        · intro request hrequest
          obtain ⟨url, rfl⟩ := hchain.mem request hrequest
          rfl
        · intro request hrequest
          obtain ⟨url, rfl⟩ := hchain.mem request hrequest
          exact ⟨parameters, encoded, hmarks, hencoded, t.commandRequest_parameters _ _ _ _⟩
      cases sending.1 with
      | error e => exact hwire
      | ok response =>
        dsimp only
        split <;> exact hwire

theorem Transport.send_requests (t : Transport) (attempt : Attempt) (network : Nat → Hop) :
    ∃ body, (t.send attempt network).2 = (t.dispatch attempt.base attempt.method attempt.command
      attempt.parameters body network).2 := by
  obtain ⟨base, method, command, parameters, payload⟩ := attempt
  cases payload with
  | none =>
    refine ⟨.bytes [], ?_⟩
    unfold send
    dsimp only
    split
    · rfl
    · split
      · rfl
      · split <;> rfl
  | bytes held =>
    refine ⟨.bytes held, ?_⟩
    unfold send
    dsimp only
    split
    · rfl
    · split
      · rfl
      · split <;> rfl

/-- **An attempt is what is put on the wire.** -/
theorem Makes.onWire {t : Transport} {network : Nat → Nat → Hop} {payload : Payload} {n : Nat}
    {sent : Sent} {outcome : Except ClientError (List UInt8)}
    (h : Makes t network base method command stamped payload mutationId n sent outcome) :
    OnWire base method command stamped mutationId n sent.requests := by
  obtain ⟨body, hrequests⟩ := t.send_requests sent.attempt (network n)
  rw [h.answer, h.base, h.method, h.command] at hrequests
  have hsame : sent.requests = (t.dispatch base method command sent.attempt.parameters body
    (network n)).2 := hrequests
  rw [hsame]
  exact t.dispatch_onWire h.marks body (network n)

theorem InStep.onWire {t : Transport} {network : Nat → Nat → Hop} {payload : Payload}
    {outcomes : List (Except ClientError (List UInt8))} {sent : List Sent}
    (h : InStep t network base method command stamped payload mutationId outcomes sent) {n : Nat}
    {one : Sent} (hone : sent[n]? = some one) :
    OnWire base method command stamped mutationId n one.requests := by
  obtain ⟨hlt, -⟩ := List.getElem?_eq_some_iff.mp hone
  rw [h.1] at hlt
  have houtcome := List.getElem?_eq_getElem hlt
  exact (h.2 n one _ hone houtcome).onWire

end

/-- What one command came to. The attempts go to `base`, all but the last one fail for a reason
that another attempt may cure, and the last one settles it. -/
structure OneMutation (t : Transport) (network : Nat → Nat → Hop) (base : Str) (method : Method)
    (command : String) (stamped : YsonValue) (payload : Payload) (repeatable : Repeatable)
    (mutationId : Option MutationId) (called : Called) (failures : List ClientError)
    (last : Except ClientError (List UInt8)) : Prop where
  outcomes : called.outcomes = failures.map .error ++ [last]
  worth : ∀ error ∈ failures, isRetriable error
  few : called.outcomes.length ≤ t.retries.allowed repeatable
  once : repeatable = .never ∨ repeatable = .heavy → called.outcomes.length = 1
  settled : ∀ error, last = .error error →
    isRetriable error = false ∨ called.outcomes.length = t.retries.allowed repeatable
  reported : Reported repeatable last called.result
  pauses : called.sleeps.length + 1 = called.outcomes.length
  longer : called.sleeps.Pairwise (· ≤ ·)
  bounded : ∀ pause ∈ called.sleeps, pause ≤ t.retries.maxBackoff
  sent : InStep t network base method command stamped payload mutationId called.outcomes
    called.sent
  wire : ∀ n one, called.sent[n]? = some one →
    OnWire base method command stamped mutationId n one.requests

/-- What a command comes to, once it is known where it goes. -/
theorem Transport.callWith_retried (t : Transport) (around : Around) (network : Nat → Nat → Hop)
    (method : Method) (command : String) {parameters : YsonValue} (payload : Payload)
    (repeatable : Repeatable) (given : Option MutationId) {heavy state : HeavyProxy}
    {destination : Destination} (hdict : isDict parameters)
    (hbase : t.baseFor repeatable heavy around.asking = .ok (state, destination)) :
    ∃ (stamped : YsonValue) (failures : List ClientError)
        (last : Except ClientError (List UInt8)),
      Stamps t command parameters stamped ∧
        OneMutation t network destination.address method command stamped payload repeatable
          (mutationIdFor repeatable given around.first around.second)
          (t.callWith around network method command parameters payload repeatable given heavy)
          failures last := by
  obtain ⟨stamped, hstamped, hmap, hstamps⟩ := t.stamped_ok command hdict
  unfold callWith
  rw [hstamped]
  dsimp only
  rw [hbase]
  dsimp only
  generalize mutationIdFor repeatable given around.first around.second = mutationId
  have hsent := run_state t.retries repeatable
    (t.attemptOn network destination.address method command stamped payload mutationId)
    (InStep t network destination.address method command stamped payload mutationId) []
    (attemptOn_inStep hmap) inStep_nil
  obtain ⟨failures, last, hstops⟩ := run_stops t.retries repeatable
    (t.attemptOn network destination.address method command stamped payload mutationId) []
  generalize run t.retries repeatable _ [] = ran at hsent hstops ⊢
  have hlength : ran.outcomes.length = failures.length + 1 := by simp [hstops.outcomes]
  obtain ⟨hlonger, hbounded⟩ := longer_of_stops hstops
  refine ⟨stamped, failures, last, hstamps, hstops.outcomes, hstops.worth, ?_, ?_, ?_, ?_, ?_,
    hlonger, hbounded, hsent, fun n one hone => hsent.onWire hone⟩
  · rw [hlength]
    exact hstops.few
  · intro honce
    have hfew := hstops.few
    rw [hlength]
    have hallowed : t.retries.allowed repeatable = 1 := by
      rcases honce with rfl | rfl <;> rfl
    omega
  · rw [hlength]
    exact hstops.settled
  · rw [← hstops.result]
    exact Reported.afterHeavy t repeatable destination ran.result _ _
  · rw [hstops.sleeps, hlength, List.length_map, List.length_range]

def secondTimeAround : Around := ⟨⟨0, .ok [], 0, 0⟩, 1, 2, id, 0⟩

end Ytsaurus.Client
