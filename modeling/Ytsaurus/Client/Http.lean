import Ytsaurus.Client.Heavy
import Ytsaurus.Client.Retry
import Ytsaurus.Lib.Utf8
import Ytsaurus.Yson.Ser

/-!
# `Client/Http.lean` — the HTTP transport (`http.rs`)

`dispatch` sends one request of a command and follows its redirects, `fetch` does the same for
`/hosts`, and `callWith` repeats a command as its class allows. What the network does is a
parameter: one `Hop` for each request that could be sent. Every function says what it sent.

Timeouts are in the `Hop`s, and notices on stderr are left out.
-/

set_option autoImplicit false

namespace Ytsaurus.Client

open Yson (YsonValue YsonNode YsonFormat FloatText)
open Utf8 (asBytes)

/-- How many redirects one request may follow before the chain is called a loop. -/
def MAX_REDIRECTS : Nat := 10

/-- The heavy commands this crate routes to a heavy proxy. -/
def HEAVY : List String :=
  ["read_table", "write_table", "read_file", "write_file", "read_blob_table", "get_job_input",
    "get_job_stderr", "lookup_rows", "select_rows", "insert_rows", "delete_rows"]

def isHeavy (command : String) : Bool := HEAVY.contains command

/-- Commands that have no transaction to be in. -/
def NO_TRANSACTION : List String :=
  ["execute_batch", "get_operation", "list_operations", "list_operation_events",
    "abort_operation", "complete_operation", "suspend_operation", "resume_operation",
    "update_operation_parameters", "list_jobs", "get_job", "get_job_stderr", "get_job_input",
    "abort_job", "poll_job_shell"]

def takesNoTransaction (command : String) : Bool := NO_TRANSACTION.contains command

/-- The parameter that puts a command inside a transaction. -/
def TRANSACTION_ID : String := "transaction_id"

/-- The HTTP verb a command is sent with. -/
inductive Method where
  | get
  | post
  | put
  deriving DecidableEq, Repr

/-- How the command's payload is carried. -/
inductive Payload where
  | none
  | bytes (held : List UInt8)
  deriving DecidableEq, Repr

/-- The request body, in a form one request can send more than once. -/
inductive Outgoing where
  | empty
  | bytes (held : List UInt8)
  /-- A reader, which cannot be rewound. -/
  | stream
  deriving DecidableEq, Repr

/-- Whether a redirect on this request could send the same request again. -/
def Outgoing.replayable : Outgoing → Bool
  | .stream => false
  | _ => true

/-- Whether there are bytes here that a redirect would be giving away. -/
def Outgoing.carriesData : Outgoing → Bool
  | .empty => false
  | .bytes held => !held.isEmpty
  | .stream => true

/-- One request, as it is handed to the HTTP library. A `GET` has no body. -/
structure Request where
  method : Method
  url : Str
  headers : List (String × Str)
  body : Outgoing
  deriving DecidableEq, Repr

/-- The answer to a request: its status, the headers the client reads, and the body, as the
bytes that arrive with the error that ends them, if one does, and as the text that the HTTP
library reads it as. -/
structure Response where
  status : Nat
  location : Option Str
  error : Option String
  body : List UInt8
  cut : Option UreqError
  text : Except UreqError String

/-- `(200..300).contains(&status)`. -/
def Response.isSuccess (response : Response) : Bool :=
  200 ≤ response.status && response.status < 300

/-- What becomes of one request. -/
inductive Hop where
  /-- Nothing was left of the deadline before it was sent. -/
  | expired
  | failed (e : UreqError)
  | answered (response : Response)

/-! ## The transport -/

/-- The headers that say who is asking. -/
def callerHeaders (token trace tracestate : Option Str) : List (String × Str) :=
  (token.map fun token => ("Authorization", "OAuth ".toList ++ token)).toList ++
    (trace.map fun trace => ("traceparent", trace)).toList ++
    -- only beside `traceparent`: a `tracestate` alone names no trace
    (trace.bind fun _ => tracestate.map fun state => ("tracestate", state)).toList

/-- A configured connection to one cluster. `heavy` is the number of the cell that its clones
share, and `tls` whether the crate was built with that feature. -/
structure Transport where
  base : Str
  heavy : Nat
  discovery : Bool
  hosts : HeavyHosts
  hostsRetryAfter : Duration
  hostListRefresh : Duration
  token : Option Str
  retries : RetryPolicy
  responseLimit : Nat
  transaction : Option String
  trace : Option Str
  tracestate : Option Str
  tls : Bool
  tlsRefused : Option String
  caller : List (String × Str)
  /-- The headers are rendered whenever what they are made of is set. -/
  rendered : caller = callerHeaders token trace tracestate

/-- `trim_end_matches('/')`. -/
def trimEndSlashes (proxy : Str) : Str := (proxy.reverse.dropWhile (· == '/')).reverse

/-- A bare host means TLS; only an explicit `http://` opts out. -/
def baseOf (proxy : Str) : Str :=
  if Text.startsWith httpPrefix proxy || Text.startsWith httpsPrefix proxy then
    trimEndSlashes proxy
  else httpsPrefix ++ trimEndSlashes proxy

def RetryPolicy.quiet (policy : RetryPolicy) : RetryPolicy := { policy with report := false }

/-- Five attempts, with a doubling delay from one second, capped at ten. -/
def RetryPolicy.default : RetryPolicy := RetryPolicy.new 5 1000000000 10000000000

namespace Transport

/-- A transport whose cell is a fresh one. -/
def new (proxy : Str) (token : Option Str) (tls : Bool) (tlsRefused : Option String)
    (insideJob : Bool) (cell : Nat) : Transport where
  base := baseOf proxy
  heavy := cell
  discovery := !isLocal (baseOf proxy)
  hosts := .sameDomain
  hostsRetryAfter := 10 * 1000000000
  hostListRefresh := 60 * 1000000000
  token := token
  retries := if insideJob then RetryPolicy.default.quiet else RetryPolicy.default
  responseLimit := 512 * 1024 * 1024
  transaction := none
  trace := none
  tracestate := none
  tls := tls
  tlsRefused := tlsRefused
  caller := callerHeaders token none none
  rendered := rfl

def setTrace (t : Transport) (trace : Str) (tracestate : Option Str) : Transport :=
  { t with
    trace := some trace
    tracestate := tracestate
    caller := callerHeaders t.token (some trace) tracestate
    rendered := rfl }

/-- Refuses an `https://` address when the crate was built without TLS. -/
def tlsUnavailable (t : Transport) (base : Str) : Option ClientError :=
  if !t.tls && Text.startsWith httpsPrefix base then
    some (.config (String.ofList base ++ " needs TLS, and this build has none: the `tls` feature " ++
      "of ytsaurus-client is off. Enable it, or use an http:// proxy."))
  else none

/-- Why no request can be sent at all, if that was settled before any was. -/
def unusable (t : Transport) (base : Str) : Option ClientError :=
  match t.tlsUnavailable base with
  | some error => some error
  | none =>
    match t.tlsRefused with
    | some why => if Text.startsWith httpsPrefix base then some (.config why) else none
    | none => none

/-! ## Redirects -/

/-- What becomes of a `3xx`: a URL to go to, nothing to treat the response as an ordinary one, or
a refusal. -/
def redirect (t : Transport) (command : String) (response : Response) (requestUrl : Str)
    (body : Outgoing) (hops : Nat) : Except ClientError (Option Str) :=
  if response.status < 300 ∨ 400 ≤ response.status then .ok none
  else
    match response.location with
    | none => .ok none
    | some location =>
      match resolve requestUrl location with
      | none => .ok none
      | some target =>
        let refused := fun refusal =>
          .error (.redirected command response.status target refusal (isHeavy command))
        let elsewhere := !sameOrigin requestUrl target
        -- credentials first: the reason a caller most needs
        if t.token.isSome && elsewhere then refused .credentials
        else if !body.replayable then refused .body
        else if elsewhere && body.carriesData then refused .payload
        else if MAX_REDIRECTS ≤ hops then refused .tooMany
        else .ok (some target)

/-- The loop that `dispatch` and `fetch` share: one request for each hop, and what was sent. -/
def follow (t : Transport) (command : String) (request : Str → Request) (body : Outgoing)
    (guard : Str → Option ClientError) (network : Nat → Hop) :
    Nat → Nat → Str → Except ClientError Response × List Request
  | 0, _, _ => (.error .outOfFuel, [])
  | fuel + 1, hops, url =>
    match network hops with
    | .expired => (.error (.transport command .timeout), [])
    | .failed e => (.error (.transport command e), [request url])
    | .answered response =>
      match t.redirect command response url body hops with
      | .error e => (.error e, [request url])
      | .ok none => (.ok response, [request url])
      | .ok (some next) =>
        match guard next with
        | some e => (.error e, [request url])
        | none =>
          let rest := t.follow command request body guard network fuel (hops + 1) next
          (rest.1, request url :: rest.2)

/-! ## Requests -/

section

variable [FloatText]

/-- `to_string(parameters, YsonFormat::Text)`. -/
def encodedParameters (command : String) (parameters : YsonValue) : Except ClientError Str :=
  match parameters.toVec .text with
  | .error e => .error (.parameters command (some e))
  | .ok bytes =>
    match Utf8.fromUtf8 bytes with
    | some text => .ok text.toList
    | none => .error (.parameters command none)

/-- What is being asked. -/
def commandHeaders (encoded : Str) : List (String × Str) :=
  [("X-YT-Header-Format", "<format=text>yson".toList), ("X-YT-Parameters", encoded),
    ("X-YT-Output-Format", "<format=text>yson".toList),
    ("Content-Type", "application/octet-stream".toList)]

/-- The request of a command, to one address after another. A `GET` carries no body. -/
def commandRequest (t : Transport) (method : Method) (encoded : Str) (body : Outgoing) (url : Str) :
    Request where
  method := method
  url := url
  headers := commandHeaders encoded ++ t.caller
  body := if method = .get then .empty else body

variable [JsonText]

/-- Builds and sends one request, and checks the cluster's own error header. -/
def dispatch (t : Transport) (base : Str) (method : Method) (command : String)
    (parameters : YsonValue) (body : Outgoing) (network : Nat → Hop) :
    Except ClientError Response × List Request :=
  match t.unusable base with
  | some error => (.error error, [])
  | none =>
    match encodedParameters command parameters with
    | .error e => (.error e, [])
    | .ok encoded =>
      let sending := t.follow command (t.commandRequest method encoded body) body t.tlsUnavailable
        network (MAX_REDIRECTS + 1) 0 (base ++ "/api/v4/".toList ++ command.toList)
      match sending.1 with
      | .error e => (.error e, sending.2)
      | .ok response =>
        match response.error with
        | some raw => (.error (.fromYtError command response.status raw), sending.2)
        | none => (.ok response, sending.2)

end

/-- The request of a lookup. -/
def lookupRequest (t : Transport) (url : Str) : Request where
  method := .get
  url := url
  headers := t.caller
  body := .empty

/-- Fetches a path that is not an API v4 command: one attempt, at the configured address. -/
def fetch (t : Transport) (path : Str) (what : String) (network : Nat → Hop) :
    Except ClientError String × List Request :=
  match t.unusable t.base with
  | some error => (.error error, [])
  | none =>
    let sending := t.follow what t.lookupRequest .empty t.unusable network (MAX_REDIRECTS + 1) 0
      (t.base ++ path)
    match sending.1 with
    | .error e => (.error e, sending.2)
    | .ok response =>
      match response.text with
      | .error e => (.error (.transport what e), sending.2)
      | .ok body =>
        if response.isSuccess then (.ok body, sending.2)
        else (.error (.http what response.status (truncate body 400)), sending.2)

end Transport

end Ytsaurus.Client
