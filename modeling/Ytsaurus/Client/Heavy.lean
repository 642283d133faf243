import Ytsaurus.Client.Error

/-!
# `Client/Heavy.lean` — where heavy commands may go (`http.rs`)

`/hosts` answers bare host names; everything else about an address is the client's to decide.
`heavyBase` turns a name into a base URL or refuses it, and the pool keeps the base URLs of one
answer. Names pass `HeavyHosts.admits` or they are declined.
-/

set_option autoImplicit false

namespace Ytsaurus.Client

/-- Which of the names `/hosts` gives back this client is willing to use. -/
inductive HeavyHosts where
  /-- The configured address's own domain, the default. -/
  | sameDomain
  /-- That domain and the ones named here; `ignored` are the entries that were not a domain. -/
  | under (domains ignored : List Str)
  | anywhere
  /-- Exactly these names. -/
  | only (names : List Str)
  deriving DecidableEq, Repr

/-- Whether a discovered host is one this client may send a token to. -/
def HeavyHosts.admits (allowed : HeavyHosts) (configured discovered : Str) : Bool :=
  match allowed with
  | .sameDomain => Client.sameDomain (hostOf configured) (hostOf discovered)
  | .under domains _ =>
    Client.sameDomain (hostOf configured) (hostOf discovered) ||
      domains.any fun domain => underDomain domain (hostOf discovered)
  | .anywhere => true
  | .only names => names.any fun name => sameName name discovered

/-- Why a name from `/hosts` was passed over. -/
inductive Declined where
  | malformed
  | elsewhere
  deriving DecidableEq, Repr

def httpsPrefix : Str := "https://".toList

def httpPrefix : Str := "http://".toList

/-- Turns a host from `/hosts` into a base URL, or refuses it. -/
def heavyBase (configured host : Str) (allowed : HeavyHosts) : Except Declined Str :=
  let host := Text.trim host
  if host.isEmpty || Text.contains schemeMark host || host.contains '/' || host.contains '@' ||
      host.any (fun c => c == '?' || c == '#') || host.any Text.isWhitespace ||
      !isAuthority host then
    .error .malformed
  else if !allowed.admits configured host then .error .elsewhere
  else
    let scheme := if Text.startsWith httpsPrefix configured then httpsPrefix else httpPrefix
    match hasPort host, portOf configured with
    | false, some port => .ok (scheme ++ host ++ ':' :: port)
    | _, _ => .ok (scheme ++ host)

/-- One domain as the caller wrote it, normalised: no wildcard, scheme, port or stray dots. -/
def normalisedDomain (domain : Str) : Str :=
  let name := (hostOf (Text.trim domain)).dropWhile (· == '*')
  let name := name.dropWhile (· == '.')
  Text.toAsciiLowercase (name.reverse.dropWhile (· == '.')).reverse

/-- The loop of `set_heavy_proxies_under`: the domains kept, and the entries that are none. -/
def domainsUnder (domains : List Str) : List Str × List Str :=
  domains.foldl (fun parts domain =>
    let normalised := normalisedDomain domain
    if normalised.isEmpty then parts
    else if normalised.contains '.' then
      (if parts.1.contains normalised then parts.1 else parts.1 ++ [normalised], parts.2)
    else
      let value := Text.trim domain
      (parts.1, if parts.2.contains value then parts.2 else parts.2 ++ [value])) ([], [])

/-! ## The pool -/

/-- An `Instant`, in nanoseconds since some moment. -/
abbrev Instant := Nat

/-- The first number of nanoseconds that an `Instant` does not hold. -/
def instantLimit : Nat := 9223372036854775808 * 1000000000

/-- `Instant::checked_add`. -/
def Instant.checkedAdd (instant : Instant) (duration : Nat) : Option Instant :=
  if instant + duration < instantLimit then some (instant + duration) else none

/-- The heavy proxies this client is currently willing to use. -/
structure HeavyPool where
  hosts : List Str
  fetched : Instant
  deriving DecidableEq, Repr

/-- One of the pool's hosts; `drawn` is the word drawn for it. An empty pool divides by zero. -/
def HeavyPool.pick (pool : HeavyPool) (drawn : Nat) : Option Str :=
  if pool.hosts.length = 0 then none else pool.hosts[drawn % pool.hosts.length]?

/-- Takes a failed host out of the pool, and says whether the pool survived. -/
def HeavyPool.dropHost (pool : HeavyPool) (base : Str) : HeavyPool × Bool :=
  let hosts := pool.hosts.filter (· != base)
  ({ pool with hosts := hosts }, !hosts.isEmpty)

/-- Where the cluster wants heavy commands sent. -/
inductive HeavyProxy where
  /-- The cluster has not been asked yet. -/
  | unasked
  | pool (pool : HeavyPool)
  /-- The cluster was asked and named none this client may use. -/
  | configured (asked : Instant)
  /-- The question did not settle, or the whole pool has been dropped. -/
  | fellBack (until_ : Option Instant)
  deriving DecidableEq, Repr

/-- Where one command was sent: an address out of `/hosts`, or the one the caller configured. -/
inductive Destination where
  | discovered (base : Str)
  | configured (base : Str)
  deriving DecidableEq, Repr

/-- The base URL to dial, whichever way it was arrived at. -/
def Destination.address : Destination → Str
  | .discovered base | .configured base => base

end Ytsaurus.Client
