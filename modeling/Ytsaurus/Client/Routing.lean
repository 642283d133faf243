import Ytsaurus.Client.Http

/-!
# `Client/Routing.lean` — which address a command is sent to (`http.rs`)

Everything light goes to the configured address. A heavy command goes to a host of the pool,
which is asked for lazily, refreshed when it is old, and loses a host at which a command failed.
`baseFor` and `afterHeavy` act on the state that clones share; what the clock, `/hosts` and the
draw give at that moment is an `Asking`.
-/

set_option autoImplicit false

namespace Ytsaurus.Client

/-- What the outside gives when a destination is looked for: the clock, the answer of `/hosts`
if it is asked, the clock behind it, and the word drawn. -/
structure Asking where
  now : Instant
  lookup : Except ClientError (List Str)
  later : Instant
  drawn : Nat

/-- Why a heavy command was served at the configured address after all. -/
def declinedRouting : HeavyProxy → String
  | .configured _ =>
    "/hosts named no heavy proxy this client would use — " ++
      "Client::with_heavy_proxies_under([…]) or YT_HEAVY_PROXY_DOMAINS " ++
      "names the domain they are in, Client::with_heavy_proxies_in([…]) " ++
      "names the proxies themselves, and " ++
      "Client::with_heavy_proxies_anywhere(true) or " ++
      "YT_HEAVY_PROXIES_ANYWHERE=1 allows any name it refused"
  | .fellBack _ =>
    "the heavy proxies /hosts named have all just failed, " ++
      "so this went to the configured address for a moment"
  | .unasked | .pool _ => "this client did not route this command"

/-- Adds the sentence a control proxy's refusal does not carry. -/
def refusalHint (error : ClientError) (why : String) : ClientError :=
  match error with
  | .cluster command code message raw =>
    if Text.contains CONTROL_REFUSAL.toList message.toList then
      .cluster command code (message ++ " (" ++ why ++ ")") raw
    else error
  | _ => error

/-- Names the proxy a routed command actually went to. -/
def routedTo (error : ClientError) (base : Str) : ClientError :=
  let «at» := " at " ++ String.ofList (authorityOf base)
  match error with
  | .transport command source => .transport (command ++ «at») source
  | .cluster command code message raw => .cluster (command ++ «at») code message raw
  | .http command status body => .http (command ++ «at») status body
  | .decode command path row e => .decode (command ++ «at») path row e
  | .decodeRow command problem => .decodeRow (command ++ «at») problem
  | .parameters command e => .parameters (command ++ «at») e
  | .undecodable command reason => .undecodable (command ++ «at») reason
  | other => other

namespace Transport

/-- The base URLs this client will use, out of one answer of `/hosts`. -/
def usableHosts (t : Transport) (hosts : List Str) : List Str :=
  hosts.filterMap fun host => (heavyBase t.base host t.hosts).toOption

/-- A pool is picked from, and stays. -/
def pickFrom (pool : HeavyPool) (drawn : Nat) : Except ClientError (HeavyProxy × Destination) :=
  match pool.pick drawn with
  | some picked => .ok (.pool pool, .discovered picked)
  | none => .error .panicked

/-- The refresh of a pool: an answer with nothing usable keeps it for another interval. -/
def refresh (t : Transport) (pool : HeavyPool) (asking : Asking) : HeavyPool :=
  if asking.now - pool.fetched < t.hostListRefresh then pool
  else
    match asking.lookup with
    | .error _ => { pool with fetched := asking.later }
    | .ok hosts =>
      if t.usableHosts hosts = [] then { pool with fetched := asking.later }
      else ⟨t.usableHosts hosts, asking.later⟩

variable [JsonText]

/-- The part of `base_for` behind the state it found: the cluster is asked. -/
def settle (t : Transport) (asking : Asking) : Except ClientError (HeavyProxy × Destination) :=
  match asking.lookup with
  | .ok hosts =>
    if t.usableHosts hosts = [] then .ok (.configured asking.later, .configured t.base)
    else pickFrom ⟨t.usableHosts hosts, asking.later⟩ asking.drawn
  | .error error =>
    if worthAskingAgain error then
      .ok (.fellBack (Instant.checkedAdd asking.later t.hostsRetryAfter), .configured t.base)
    else .ok (.configured asking.later, .configured t.base)

/-- Which address one command is sent to. -/
def baseFor (t : Transport) (repeatable : Repeatable) (state : HeavyProxy) (asking : Asking) :
    Except ClientError (HeavyProxy × Destination) :=
  if repeatable ≠ .heavy ∨ t.discovery = false then .ok (state, .configured t.base)
  else
    match state with
    | .pool pool => pickFrom (t.refresh pool asking) asking.drawn
    | .configured asked =>
      if asking.now - asked < t.hostListRefresh then .ok (state, .configured t.base)
      else t.settle asking
    | .fellBack until_ =>
      if until_.all (asking.now < ·) then .ok (state, .configured t.base) else t.settle asking
    | .unasked => t.settle asking

/-- A pool without a host; emptied, it is a fallback that lasts for a while. -/
def dropFailed (t : Transport) (state : HeavyProxy) (base : Str) (now : Instant) : HeavyProxy :=
  match state with
  | .pool pool =>
    if (pool.dropHost base).2 then .pool (pool.dropHost base).1
    else .fellBack (Instant.checkedAdd now t.hostsRetryAfter)
  | other => other

/-- What a heavy command's failure says about the proxy it was routed to. -/
def afterHeavy {α : Type} (t : Transport) (repeatable : Repeatable) (destination : Destination)
    (result : Except ClientError α) (state : HeavyProxy) (now : Instant) :
    Except ClientError α × HeavyProxy :=
  if repeatable ≠ .heavy then (result, state)
  else
    match result with
    | .ok value => (.ok value, state)
    | .error error =>
      if t.discovery = false then
        (.error (refusalHint error ("this client does not route heavy commands: " ++
          "Client::with_proxy_discovery(true) turns the /hosts lookup on")), state)
      else
        match destination with
        | .configured _ => (.error (refusalHint error (declinedRouting state)), state)
        | .discovered base =>
          (.error (routedTo error base),
            if attributableToTheHost error then t.dropFailed state base now else state)

end Transport

end Ytsaurus.Client
