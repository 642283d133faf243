import Ytsaurus.Lib.IpAddr
import Ytsaurus.Lib.Text

/-!
# `Client/Url.lean` — addresses as the client reads them (`http.rs`)

A `Location` is resolved against the address the request went to, and an origin is read off an
absolute URL. The two cut their texts separately. Hosts and ports of base URLs and of the names
`/hosts` gives are read by a third group of functions.
-/

set_option autoImplicit false

namespace Ytsaurus.Client

/-- `str`: its characters. -/
abbrev Str := List Char

/-- `://`. -/
def schemeMark : Str := [':', '/', '/']

/-- Where an authority ends: `['/', '?', '#']`. -/
def endsAuthority (c : Char) : Bool := c == '/' || c == '?' || c == '#'

/-- Whether a string begins with a URI scheme and its colon. -/
def hasScheme (url : Str) : Bool :=
  match Text.splitOnce [':'] url with
  | none => false
  | some (scheme, _) =>
    !scheme.isEmpty && scheme.head?.any Char.isAlpha &&
      scheme.all fun c => c.isAlphanum || c == '+' || c == '-' || c == '.'

/-- The part of `resolve` behind the scheme: the authority stays, and the rest is put together
from the base's path and the location. -/
def resolveRelative (scheme authority target location : Str) : Str :=
  match Text.stripPrefix ['/', '/'] location with
  | some elsewhere => scheme ++ schemeMark ++ elsewhere
  | none =>
    if location.head? = some '/' then scheme ++ schemeMark ++ (authority ++ location)
    else
      -- the base's path and query; a fragment is never resolved against
      let base := target.takeWhile (· != '#')
      let path := base.takeWhile (· != '?')
      if location.head? = some '#' then scheme ++ schemeMark ++ (authority ++ (base ++ location))
      else if location.head? = some '?' then
        scheme ++ schemeMark ++ (authority ++ (path ++ location))
      else
        let directory := ((Text.rsplitOnce '/' path).map Prod.fst).getD []
        scheme ++ schemeMark ++ (authority ++ (directory ++ '/' :: location))

/-- Resolves a `Location` against the address the request went to. -/
def resolve (request location : Str) : Option Str :=
  let location := Text.trim location
  if location = [] then none
  else if hasScheme location then some location
  else
    match Text.splitOnce schemeMark request with
    | none => none
    | some (scheme, rest) =>
      let authority := rest.takeWhile fun c => !endsAuthority c
      let target := rest.dropWhile fun c => !endsAuthority c
      if authority = [] then none else some (resolveRelative scheme authority target location)

/-- Scheme, host and port. -/
structure Origin where
  scheme : Str
  host : Str
  port : Nat
  deriving DecidableEq, Repr

/-- `str::parse::<u16>` of digits. -/
def parsePort (digits : Str) : Option Nat :=
  if Text.digitsValue digits < 65536 then some (Text.digitsValue digits) else none

/-- The port a scheme has by default; none for a scheme this client does not speak. -/
def defaultPort (scheme : Str) : Option Nat :=
  if scheme = "http".toList then some 80
  else if scheme = "https".toList then some 443
  else none

/-- Host and port out of `host_port`; the last colon counts, if digits follow it. -/
def hostPort (hostPort : Str) (port : Nat) : Option (Str × Nat) :=
  match Text.rsplitOnce ':' hostPort with
  | some (host, given) =>
    if !given.isEmpty && given.all Char.isDigit then (parsePort given).map fun port => (host, port)
    else some (hostPort, port)
  | none => some (hostPort, port)

/-- What `origin` makes of a scheme and what follows it. -/
def originOf (scheme rest : Str) : Option Origin := do
  let scheme := Text.toAsciiLowercase scheme
  let port ← defaultPort scheme
  let authority := rest.takeWhile fun c => !endsAuthority c
  let (host, port) ← hostPort (((Text.rsplitOnce '@' authority).map Prod.snd).getD authority) port
  if host = [] then none else some ⟨scheme, Text.toAsciiLowercase host, port⟩

def origin (url : Str) : Option Origin :=
  (Text.splitOnce schemeMark url).bind fun parts => originOf parts.1 parts.2

/-- Whether two absolute URLs share an origin. A URL that cannot be split shares none. -/
def sameOrigin (one other : Str) : Bool :=
  match origin one, origin other with
  | some one, some other => one = other
  | _, _ => false

/-! ## Hosts and ports -/

/-- The `host:port` out of a base URL, without userinfo. -/
def authorityOf (base : Str) : Str :=
  let rest := ((Text.splitOnce schemeMark base).map Prod.snd).getD base
  let authority := rest.takeWhile fun c => !endsAuthority c
  ((Text.rsplitOnce '@' authority).map Prod.snd).getD authority

/-- The host out of a base URL, without scheme, port or path, and without brackets. -/
def hostOf (base : Str) : Str :=
  match Text.stripPrefix ['['] (authorityOf base) with
  | some literal => literal.takeWhile (· != ']')
  | none => (authorityOf base).takeWhile (· != ':')

/-- Whether what follows a colon is a port and nothing else. -/
def isPort (port : Str) : Bool := !port.isEmpty && port.all Char.isDigit

/-- The port out of a base URL, if it names one. -/
def portOf (base : Str) : Option Str :=
  let port := match Text.splitOnce [']'] (authorityOf base) with
    | some (_, rest) => Text.stripPrefix [':'] rest
    | none => (Text.splitOnce [':'] (authorityOf base)).map Prod.snd
  port.bind fun port => if isPort port then some port else none

/-- Whether an authority names a port of its own. -/
def hasPort (authority : Str) : Bool :=
  match Text.splitOnce [']'] authority with
  | some (_, rest) => Text.startsWith [':'] rest
  | none => authority.contains ':'

/-- Whether a name from `/hosts` is one host and at most one port. -/
def isAuthority (host : Str) : Bool :=
  match Text.stripPrefix ['['] host with
  | some rest =>
    match Text.splitOnce [']'] rest with
    | some (literal, tail) =>
      (IpAddr.parseIpv6 literal).isSome &&
        (tail.isEmpty || (Text.stripPrefix [':'] tail).any isPort)
    | none => false
  | none =>
    match Text.splitOnce [':'] host with
    | some (name, port) => !name.isEmpty && isPort port
    | none => true

/-- The suffix rule, on names in lower case. -/
def isUnder (domain discovered : Str) : Bool :=
  discovered == domain || Text.endsWith ('.' :: domain) discovered

/-- Whether `discovered` sits under the same domain as `configured`. -/
def sameDomain (configured discovered : Str) : Bool :=
  let configured := Text.toAsciiLowercase configured
  let discovered := Text.toAsciiLowercase discovered
  if configured = discovered then true
  else if (IpAddr.parse configured).isSome || (IpAddr.parse discovered).isSome then false
  else
    match Text.splitOnce ['.'] configured with
    -- its parent domain, never shortened below two labels
    | some (_, parent) => isUnder (if parent.contains '.' then parent else configured) discovered
    -- a bare cluster name: a label of the discovered name, and not the leftmost one
    | none => ((Text.split '.' discovered).drop 1).any fun label => label == configured

/-- Whether `discovered` sits under a domain the caller added by hand. -/
def underDomain (domain discovered : Str) : Bool :=
  isUnder domain (Text.toAsciiLowercase discovered)

/-- Whether a name a caller wrote out means the same proxy as a discovered one. -/
def sameName (listed discovered : Str) : Bool :=
  let listed := Text.trim listed
  if Text.toAsciiLowercase (hostOf listed) ≠ Text.toAsciiLowercase (hostOf discovered) then false
  else
    match portOf listed, portOf discovered with
    | some listed, some discovered => listed == discovered
    | _, _ => true

/-- Whether `base` names a cluster on this machine, or a tunnel to one. -/
def isLocal (base : Str) : Bool :=
  match IpAddr.parse (hostOf base) with
  | some address => address.isLoopback || address.isUnspecified
  | none => Text.toAsciiLowercase (hostOf base) == "localhost".toList

end Ytsaurus.Client
