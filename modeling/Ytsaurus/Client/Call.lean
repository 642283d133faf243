import Ytsaurus.Client.Routing
import Ytsaurus.Client.YsonBuild

/-!
# `Client/Call.lean` — a command, from its parameters to its answer (`http.rs`)

`callWith` puts the client's transaction into the parameters, asks once where the command goes,
and runs `send` there under the retry policy; each attempt of a mutation carries the same
`mutation_id` and says whether it is a repetition. What the network does is a parameter, one
`Hop` for each attempt and each request of it; what the other clones do to the shared state while
the attempts run is one as well.
-/

set_option autoImplicit false

namespace Ytsaurus.Client

open Yson (YsonValue FloatText)
open Utf8 (fromUtf8Lossy)

/-- Which id the attempts of a command share; the words are those drawn for a fresh one. -/
def mutationIdFor (repeatable : Repeatable) (given : Option MutationId) (first second : UInt64) :
    Option MutationId :=
  match repeatable, given with
  | _, some given => some given
  | .withMutationId, none => some (MutationId.new first second)
  | _, none => none

/-- The parameters of one attempt. The id stays the same across attempts and only the flag
changes; an id the caller supplied may be marked as a replay already. -/
def taggedWith (parameters : YsonValue) (mutationId : Option MutationId) (isRetry : Bool) :
    Except ClientError YsonValue :=
  match mutationId with
  | some id =>
    match YsonBuild.insert parameters "mutation_id" (YsonBuild.string id.id) with
    | .error e => .error e
    | .ok tagged => YsonBuild.insert tagged "retry" (YsonBuild.boolean (isRetry || id.retry))
  | none => .ok parameters

/-- A buffered response body, capped at `limit` decoded bytes. -/
def readCapped (command : String) (response : Response) (limit : Nat) :
    Except ClientError (List UInt8) :=
  if limit < response.body.length then .error (.responseTooLarge command limit)
  else
    match response.cut with
    | some (.bodyExceedsLimit _) => .error (.responseTooLarge command limit)
    | some e => .error (.transport command e)
    | none => .ok response.body

/-- What one attempt asks of `send`. -/
structure Attempt where
  base : Str
  method : Method
  command : String
  parameters : YsonValue
  payload : Payload

/-- An attempt that was made, and the requests it came to. -/
structure Sent where
  attempt : Attempt
  requests : List Request

/-- What is around one command: the lookup of a destination, the words drawn for a mutation id,
what the shared state has become by the time the result is judged, and the clock then. -/
structure Around where
  asking : Asking
  first : UInt64
  second : UInt64
  meanwhile : HeavyProxy → HeavyProxy
  judgedAt : Instant

/-- What a command came to. -/
structure Called where
  result : Except ClientError (List UInt8)
  heavy : HeavyProxy
  outcomes : List (Except ClientError (List UInt8))
  sleeps : List Duration
  sent : List Sent

namespace Transport

/-- Puts the client's transaction into a command's parameters; nothing when it is not to be
added. -/
def inTransaction (t : Transport) (command : String) (parameters : YsonValue) :
    Except ClientError (Option YsonValue) :=
  match t.transaction with
  | none => .ok none
  | some id =>
    if takesNoTransaction command then .ok none
    -- a command that already names a transaction keeps it
    else if (field parameters TRANSACTION_ID).isSome then .ok none
    else
      match YsonBuild.insert parameters TRANSACTION_ID (YsonBuild.string id) with
      | .error e => .error e
      | .ok tagged => .ok (some tagged)

/-- `stamped.as_ref().unwrap_or(parameters)`. -/
def stamped (t : Transport) (command : String) (parameters : YsonValue) :
    Except ClientError YsonValue :=
  match t.inTransaction command parameters with
  | .error e => .error e
  | .ok tagged => .ok (tagged.getD parameters)

variable [FloatText] [JsonText]

/-- One attempt, read into memory. -/
def send (t : Transport) (attempt : Attempt) (network : Nat → Hop) :
    Except ClientError (List UInt8) × List Request :=
  -- no payload is an empty slice, not a missing body
  let body := match attempt.payload with
    | .none => Outgoing.bytes []
    | .bytes held => Outgoing.bytes held
  let sending := t.dispatch attempt.base attempt.method attempt.command attempt.parameters body
    network
  match sending.1 with
  | .error e => (.error e, sending.2)
  | .ok response =>
    match readCapped attempt.command response t.responseLimit with
    | .error e => (.error e, sending.2)
    | .ok body =>
      if response.isSuccess then (.ok body, sending.2)
      else
        (.error (.http attempt.command response.status (truncate (fromUtf8Lossy body) 400)),
          sending.2)

/-- The closure that `call_with` hands to `run`; it acts on what was sent so far. -/
def attemptOn (t : Transport) (network : Nat → Nat → Hop) (base : Str) (method : Method)
    (command : String) (parameters : YsonValue) (payload : Payload)
    (mutationId : Option MutationId) (isRetry : Bool) (sent : List Sent) :
    Except ClientError (List UInt8) × List Sent :=
  match taggedWith parameters mutationId isRetry with
  | .error e => (.error e, sent)
  | .ok tagged =>
    let attempt := ⟨base, method, command, tagged, payload⟩
    let sending := t.send attempt (network sent.length)
    (sending.1, sent ++ [⟨attempt, sending.2⟩])

/-- Executes a command, repeating it when the failure looks transient. -/
def callWith (t : Transport) (around : Around) (network : Nat → Nat → Hop) (method : Method)
    (command : String) (parameters : YsonValue) (payload : Payload) (repeatable : Repeatable)
    (given : Option MutationId) (heavy : HeavyProxy) : Called :=
  let mutationId := mutationIdFor repeatable given around.first around.second
  match t.stamped command parameters with
  | .error e => ⟨.error e, heavy, [], [], []⟩
  | .ok parameters =>
    match t.baseFor repeatable heavy around.asking with
    | .error e => ⟨.error e, heavy, [], [], []⟩
    | .ok routed =>
      let ran := run t.retries repeatable
        (t.attemptOn network routed.2.address method command parameters payload mutationId) []
      let judged := t.afterHeavy repeatable routed.2 ran.result (around.meanwhile routed.1)
        around.judgedAt
      ⟨judged.1, judged.2, ran.outcomes, ran.sleeps, ran.state⟩

end Transport

end Ytsaurus.Client
