import Ytsaurus.Client.Url
import Ytsaurus.Yson.Basic

/-!
# `Client/Error.lean` — what a call of the client can fail with (`error.rs`)

An error keeps what its text is made of; only texts that the code itself looks into are kept as
texts. JSON is parsed by a library (`JsonText`), and of the HTTP library's errors only what the
code distinguishes is kept (`UreqError`).
-/

set_option autoImplicit false

namespace Ytsaurus.Client

open Yson (YsonError)

/-! ## Error documents -/

/-- `serde_json::Value`. -/
inductive Json where
  | null
  | bool (flag : Bool)
  | int (number : Int)
  | float
  | string (text : String)
  | array (items : List Json)
  | object (fields : List (String × Json))

/-- `serde_json::from_str::<Value>`, or nothing where the text is no JSON. -/
class JsonText where
  parse : String → Option Json

namespace Json

def get (name : String) : Json → Option Json
  | .object fields => (fields.find? fun field => field.1 == name).map Prod.snd
  | _ => none

def asI64 : Json → Option Int
  | .int number =>
    if -9223372036854775808 ≤ number ∧ number < 9223372036854775808 then some number else none
  | _ => none

def asStr : Json → Option String
  | .string text => some text
  | _ => none

mutual

/-- Walks `inner_errors` to the deepest message. -/
def innermostMessage : Json → Option String
  | .object fields => innermostOfFields fields
  | _ => none

/-- The member `inner_errors`, if there is one. -/
def innermostOfFields : List (String × Json) → Option String
  | [] => none
  | (name, value) :: fields =>
    if name = "inner_errors" then innermostOfFirst value else innermostOfFields fields

/-- Only the first of the errors is looked at. -/
def innermostOfFirst : Json → Option String
  | .array (first :: _) => (innermostMessage first).or ((first.get "message").bind asStr)
  | _ => none

end

mutual

/-- This error's own code, then every error nested under it. -/
def containsCode (wanted : List Int) : Json → Bool
  | .object fields =>
    (((get "code" (.object fields)).bind asI64).any fun code => decide (code ∈ wanted)) ||
      fieldsContainCode wanted fields
  | _ => false

def fieldsContainCode (wanted : List Int) : List (String × Json) → Bool
  | [] => false
  | (name, value) :: fields =>
    if name = "inner_errors" then innerContainsCode wanted value
    else fieldsContainCode wanted fields

def innerContainsCode (wanted : List Int) : Json → Bool
  | .array items => itemsContainCode wanted items
  | _ => false

def itemsContainCode (wanted : List Int) : List Json → Bool
  | [] => false
  | item :: items => containsCode wanted item || itemsContainCode wanted items

end

end Json

/-! ## Errors -/

/-- Why a row of a dynamic table could not be written or read. -/
inductive RowProblem where
  /-- `Value::Any is not one YSON value`, in either format. -/
  | notOneYsonValue (binaryError textError : YsonError)
  | malformedRow (e : YsonError)
  /-- `the row stream ended mid-value`. -/
  | endedMidValue
  deriving DecidableEq, Repr

/-- `ureq::Error`, as far as the client distinguishes it. -/
inductive UreqError where
  /-- An I/O error, with whether its kind is `InvalidData`, and its message. -/
  | io (invalidData : Bool) (message : Str)
  | bodyExceedsLimit (limit : Nat)
  /-- `Timeout::Global`, and what it is reported as between two hops. -/
  | timeout
  | other (message : Str)
  deriving DecidableEq, Repr

/-- Why a redirect was refused. -/
inductive RedirectRefusal where
  | credentials
  | body
  | payload
  | tooMany
  deriving DecidableEq, Repr

/-- `ClientError`. The constructors up to `undecodable` are all `ClientError::Decode`, by what
could not be decoded or encoded. -/
inductive ClientError where
  /-- A row of a typed table, by its index. -/
  | decode (command path : String) (row : Nat) (e : YsonError)
  /-- A row of a dynamic table. -/
  | decodeRow (command : String) (problem : RowProblem)
  /-- `could not encode parameters`; without an error when the output was not UTF-8. -/
  | parameters (command : String) (e : Option YsonError)
  | undecodable (command reason : String)
  | transport (command : String) (source : UreqError)
  | cluster (command : String) (code : Int) (message raw : String)
  | http (command : String) (status : Nat) (body : String)
  | redirected (command : String) (status : Nat) (location : Str) (refusal : RedirectRefusal)
      (heavy : Bool)
  | responseTooLarge (command : String) (limit : Nat)
  | config (why : String)
  | panicked
  | outOfFuel
  deriving DecidableEq, Repr

/-- The longest prefix of whole characters within `limit` bytes. -/
def takeBytes (limit : Nat) : List Char → List Char
  | [] => []
  | c :: text => if c.utf8Size ≤ limit then c :: takeBytes (limit - c.utf8Size) text else []

def truncate (s : String) (limit : Nat) : String :=
  if s.utf8ByteSize ≤ limit then s
  else String.ofList (takeBytes limit s.toList) ++ "… (" ++ toString s.utf8ByteSize ++
    " bytes total)"

/-- Keeps the last `limit` bytes, saying what was dropped. -/
def tail (s : String) (limit : Nat) : String :=
  if s.utf8ByteSize ≤ limit then s
  else
    let shown := String.ofList (takeBytes limit s.toList.reverse).reverse
    "… (" ++ toString s.utf8ByteSize ++ " bytes total, last " ++ toString shown.utf8ByteSize ++
      " shown)\n" ++ shown

/-- The cluster's own error, out of its error header. -/
def ClientError.fromYtError [JsonText] (command : String) (status : Nat) (raw : String) :
    ClientError :=
  match JsonText.parse raw with
  | none => .http command status (truncate raw 400)
  | some value =>
    let code := ((value.get "code").bind Json.asI64).getD (-1)
    let message := ((value.get "message").bind Json.asStr).getD "(no message)"
    match value.innermostMessage with
    | some inner =>
      if inner ≠ message then .cluster command code (message ++ ": " ++ inner) raw
      else .cluster command code message raw
    | none => .cluster command code message raw

end Ytsaurus.Client
