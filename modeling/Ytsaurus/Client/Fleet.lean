import Ytsaurus.Client.Routing

/-!
# `Client/Fleet.lean` — clients that share a pool (`http.rs`)

A clone of a client shares its cell, in which is where heavy commands go; a change of the rules
takes a fresh cell and leaves the shared one as it is. A `Fleet` is all clients of a process with
their cells; what one of them does is an `Act`, and a command is two of them, for it is under way
while other clients do theirs.
-/

set_option autoImplicit false

namespace Ytsaurus.Client

namespace Transport

/-! ## The setters -/

/-- Drops what discovery resolved: a fresh cell, not a write through the shared one. -/
def forgetHeavy (t : Transport) (cell : Nat) : Transport := { t with heavy := cell }

def setRetries (t : Transport) (policy : RetryPolicy) : Transport := { t with retries := policy }

/-- Turns the `/hosts` lookup on or off, forgetting anything it found. -/
def setProxyDiscovery (t : Transport) (enabled : Bool) (cell : Nat) : Transport :=
  ({ t with discovery := enabled } : Transport).forgetHeavy cell

/-- Lets a discovered host be one outside the configured address's domain. -/
def setHeavyProxiesAnywhere (t : Transport) (enabled : Bool) (cell : Nat) : Transport :=
  ({ t with hosts := if enabled then .anywhere else .sameDomain } : Transport).forgetHeavy cell

/-- Narrows discovered hosts to a list the caller wrote out. -/
def setHeavyProxiesIn (t : Transport) (names : List Str) (cell : Nat) : Transport :=
  ({ t with hosts := .only names } : Transport).forgetHeavy cell

/-- Widens the domain rule by the domains named. -/
def setHeavyProxiesUnder (t : Transport) (domains : List Str) (cell : Nat) : Transport :=
  ({ t with hosts := .under (domainsUnder domains).1 (domainsUnder domains).2 } :
    Transport).forgetHeavy cell

/-- How long a fallback lasts before the cluster is asked again. -/
def setHostsRetryAfter (t : Transport) (after : Duration) : Transport :=
  { t with hostsRetryAfter := after }

/-- How old a `/hosts` answer may grow before it is refreshed. -/
def setHostListRefreshInterval (t : Transport) (interval : Duration) : Transport :=
  { t with hostListRefresh := interval }

def setTransaction (t : Transport) (id : Option String) : Transport := { t with transaction := id }

end Transport

/-- A call of one of the setters. -/
inductive Setting where
  | retries (policy : RetryPolicy)
  | proxyDiscovery (enabled : Bool)
  | heavyProxiesAnywhere (enabled : Bool)
  | heavyProxiesIn (names : List Str)
  | heavyProxiesUnder (domains : List Str)
  | hostsRetryAfter (after : Duration)
  | hostListRefreshInterval (interval : Duration)
  | transaction (id : Option String)
  | trace (trace : Str) (tracestate : Option Str)

/-- `cell` is the number of a fresh one, for the setters that forget. -/
def Transport.set (t : Transport) (cell : Nat) : Setting → Transport
  | .retries policy => t.setRetries policy
  | .proxyDiscovery enabled => t.setProxyDiscovery enabled cell
  | .heavyProxiesAnywhere enabled => t.setHeavyProxiesAnywhere enabled cell
  | .heavyProxiesIn names => t.setHeavyProxiesIn names cell
  | .heavyProxiesUnder domains => t.setHeavyProxiesUnder domains cell
  | .hostsRetryAfter after => t.setHostsRetryAfter after
  | .hostListRefreshInterval interval => t.setHostListRefreshInterval interval
  | .transaction id => t.setTransaction id
  | .trace trace tracestate => t.setTrace trace tracestate

/-! ## The fleet -/

/-- A command with the destination that was chosen for it, and the client as it was then. -/
structure Routed where
  client : Transport
  repeatable : Repeatable
  destination : Destination

/-- The clients of a process and their cells, `made` of them so far; the commands under way, and
all choices of a destination in order. -/
structure Fleet where
  cells : Nat → HeavyProxy
  made : Nat
  clients : List Transport
  underway : List Routed
  chosen : List Routed

inductive Act where
  | connect (proxy : Str) (token : Option Str) (tls : Bool) (tlsRefused : Option String)
      (insideJob : Bool)
  | clone (client : Nat)
  | configure (client : Nat) (setting : Setting)
  /-- A command looks for its destination. -/
  | route (client : Nat) (repeatable : Repeatable) (asking : Asking)
  /-- A command under way comes to its result. -/
  | judge (command : Nat) (result : Except ClientError Unit) (now : Instant)

namespace Fleet

def empty : Fleet := ⟨fun _ => .unasked, 0, [], [], []⟩

def write (fleet : Fleet) (cell : Nat) (state : HeavyProxy) : Fleet :=
  { fleet with cells := fun other => if other = cell then state else fleet.cells other }

/-- A fresh cell, not asked yet. -/
def allocate (fleet : Fleet) : Fleet :=
  { fleet.write fleet.made .unasked with made := fleet.made + 1 }

variable [JsonText]

/-- One act; nothing when there is no such client or command, or when it panics. -/
def step (fleet : Fleet) : Act → Option Fleet
  | .connect proxy token tls tlsRefused insideJob =>
    let t := Transport.new proxy token tls tlsRefused insideJob fleet.made
    some { fleet.allocate with clients := fleet.clients ++ [t] }
  | .clone client =>
    fleet.clients[client]?.map fun t => { fleet with clients := fleet.clients ++ [t] }
  | .configure client setting =>
    fleet.clients[client]?.map fun t =>
      { fleet.allocate with clients := fleet.clients.set client (t.set fleet.made setting) }
  | .route client repeatable asking =>
    match fleet.clients[client]? with
    | none => none
    | some t =>
      match t.baseFor repeatable (fleet.cells t.heavy) asking with
      | .error _ => none
      | .ok found =>
        let routed := ⟨t, repeatable, found.2⟩
        some { fleet.write t.heavy found.1 with
          underway := fleet.underway ++ [routed]
          chosen := fleet.chosen ++ [routed] }
  | .judge command result now =>
    fleet.underway[command]?.map fun routed =>
      let judged := routed.client.afterHeavy routed.repeatable routed.destination result
        (fleet.cells routed.client.heavy) now
      { fleet.write routed.client.heavy judged.2 with
        underway := fleet.underway.eraseIdx command }

end Fleet

end Ytsaurus.Client
