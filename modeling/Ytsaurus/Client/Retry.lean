import Ytsaurus.Client.Error

/-!
# `Client/Retry.lean` — repeating a request (`retry.rs`)

A read is repeated as it is, a light mutation under one `mutation_id`, and a heavy command not
at all. `run` is the loop; what it calls is a step of whatever state the attempts act on.
-/

set_option autoImplicit false

namespace Ytsaurus.Client

/-- How a command may be repeated. -/
inductive Repeatable where
  | freely
  | withMutationId
  | never
  | heavy
  deriving DecidableEq, Repr

/-- `Duration`, in nanoseconds. -/
abbrev Duration := Nat

/-- The first number of nanoseconds that a `Duration` does not hold. -/
def durationLimit : Nat := 18446744073709551616 * 1000000000

def Duration.checkedMul (duration : Duration) (factor : Nat) : Option Duration :=
  if duration * factor < durationLimit then some (duration * factor) else none

/-- How often, and how patiently, a failed request is repeated. -/
structure RetryPolicy where
  attempts : Nat
  initialBackoff : Duration
  maxBackoff : Duration
  report : Bool
  /-- Every constructor clamps the attempts to at least one. -/
  positive : 1 ≤ attempts

namespace RetryPolicy

def new (attempts : Nat) (initialBackoff maxBackoff : Duration) : RetryPolicy where
  attempts := max attempts 1
  initialBackoff := initialBackoff
  maxBackoff := maxBackoff
  report := true
  positive := Nat.le_max_right _ _

/-- Send once, report whatever comes back. -/
def none : RetryPolicy := new 1 0 0

/-- `1_u32.checked_shl(attempt - 1).unwrap_or(u32::MAX)`. -/
def factor (attempt : Nat) : Nat :=
  if attempt - 1 < 32 then 1 <<< (attempt - 1) else 4294967295

/-- How long to wait after the `attempt`-th failure, counting from one. -/
def backoff (policy : RetryPolicy) (attempt : Nat) : Duration :=
  let doubled := (Duration.checkedMul policy.initialBackoff (factor attempt)).getD policy.maxBackoff
  min doubled policy.maxBackoff

end RetryPolicy

/-- A GUID the cluster deduplicates a repeated mutation by. -/
structure MutationId where
  id : String
  retry : Bool
  deriving DecidableEq, Repr

/-- `{:x}`. -/
def lowerHex (n : Nat) : String := String.ofList (Nat.toDigits 16 n)

/-- Four 32-bit numbers, out of two words drawn. -/
def generate (first second : UInt64) : String :=
  lowerHex (first >>> 32).toNat ++ "-" ++ lowerHex first.toUInt32.toNat ++ "-" ++
    lowerHex (second >>> 32).toNat ++ "-" ++ lowerHex second.toUInt32.toNat

/-- A fresh ID, for an original request. -/
def MutationId.new (first second : UInt64) : MutationId := ⟨generate first second, false⟩

/-- The same ID, marked as a replay of a request already sent. -/
def MutationId.asRetry (id : MutationId) : MutationId := ⟨id.id, true⟩

/-! ## Which failures are worth repeating -/

/-- YTsaurus error codes worth a second attempt. -/
def RETRIABLE_CODES : List Int := [3, 100, 105, 108, 904, 2100]

/-- HTTP statuses worth a second attempt. -/
def RETRIABLE_STATUSES : List Nat := [429, 500, 502, 503, 504]

def CERTIFICATE_VERDICT : Str := "invalid peer certificate: ".toList

/-- The certificate verdicts a second attempt cannot change. -/
def SETTLED_REJECTIONS : List String :=
  ["UnknownIssuer", "NotValidForName", "certificate not valid for name "]

/-- The cluster's words when a control proxy refuses a heavy command. -/
def CONTROL_REFUSAL : String := "may not serve heavy requests"

/-- Which settled verdict the TLS layer returned, if it returned one. -/
def settledCertificateVerdict : UreqError → Option String
  | .io true message =>
    (Text.splitOnce CERTIFICATE_VERDICT message).bind fun parts =>
      SETTLED_REJECTIONS.find? fun settled => Text.startsWith settled.toList parts.2
  | _ => none

def rejectedTheCertificate (error : UreqError) : Bool := (settledCertificateVerdict error).isSome

section

variable [JsonText]

/-- Looks for one of `wanted` anywhere in an error document. -/
def rawContainsCode (raw : String) (wanted : List Int) : Bool :=
  match JsonText.parse raw with
  | none => false
  | some value => value.containsCode wanted

/-- Whether waiting and sending the same request again could plausibly succeed. -/
def isRetriable : ClientError → Bool
  | .transport _ source => !rejectedTheCertificate source
  | .http _ status _ => decide (status ∈ RETRIABLE_STATUSES)
  | .cluster _ code _ raw => decide (code ∈ RETRIABLE_CODES) || rawContainsCode raw RETRIABLE_CODES
  | _ => false

/-- Whether the proxy refused this because of the role it has. -/
def refusedForBeingTheWrongProxy : ClientError → Bool
  | .cluster _ _ message _ => Text.contains CONTROL_REFUSAL.toList message.toList
  | _ => false

/-- Whether putting the question to the cluster again could get a different answer. -/
def worthAskingAgain (error : ClientError) : Bool :=
  isRetriable error || refusedForBeingTheWrongProxy error ||
    match error with
    | .redirected .. => true
    | _ => false

/-- Whether a heavy command's failure is plausibly about the host it went to. -/
def attributableToTheHost (error : ClientError) : Bool :=
  (match error with
    | .transport _ source => rejectedTheCertificate source
    | _ => false) || worthAskingAgain error

/-! ## The loop -/

/-- How many attempts a command is allowed. -/
def RetryPolicy.allowed (policy : RetryPolicy) : Repeatable → Nat
  | .never | .heavy => 1
  | _ => policy.attempts

/-- What a run of attempts came to: the result, what each attempt came to, the sleeps between
them, and the state behind it. -/
structure Ran (α σ : Type) where
  result : Except ClientError α
  outcomes : List (Except ClientError α)
  sleeps : List Duration
  state : σ

/-- The loop of `run`, from the `attempt`-th attempt on. -/
def runLoop {α σ : Type} (policy : RetryPolicy) (allowed : Nat)
    (action : Bool → σ → Except ClientError α × σ) : Nat → Nat → σ → Ran α σ
  | 0, _, state => ⟨.error .outOfFuel, [], [], state⟩
  | fuel + 1, attempt, state =>
    match action (decide (1 < attempt)) state with
    | (.ok value, state) => ⟨.ok value, [.ok value], [], state⟩
    | (.error error, state) =>
      if allowed ≤ attempt ∨ isRetriable error = false then
        ⟨.error error, [.error error], [], state⟩
      else
        let wait := policy.backoff attempt
        let rest := runLoop policy allowed action fuel (attempt + 1) state
        ⟨rest.result, .error error :: rest.outcomes, wait :: rest.sleeps, rest.state⟩

/-- Runs `action` until it succeeds, gives up, or fails for a reason a retry cannot fix. The
action is told whether this is a retry. -/
def run {α σ : Type} (policy : RetryPolicy) (repeatable : Repeatable)
    (action : Bool → σ → Except ClientError α × σ) (state : σ) : Ran α σ :=
  runLoop policy (policy.allowed repeatable) action (policy.allowed repeatable) 1 state

end

end Ytsaurus.Client
