import Ytsaurus.Client.Http
import Ytsaurus.Lib.Hex

/-!
# `Client/Trace.lean` — the trace a request belongs to (`trace.rs`)

A `TraceContext` is what a `traceparent` header says: a trace, the caller's span in it, and a byte
of flags. `parse` reads one that was passed on, `new` starts a trace out of three words drawn, and
`header` is what every request of a client carries.
-/

set_option autoImplicit false

namespace Ytsaurus.Client

/-- Bit 0 of the flags: this trace is being recorded. -/
def SAMPLED : UInt8 := 0x01

/-- So many digits in hexadecimal, in lower case. -/
def IsId (digits : Nat) (id : Str) : Prop :=
  id.length = digits ∧ ∀ c ∈ id, (IpAddr.hexDigit c).isSome ∧ c.toLower = c

/-- The trace a request belongs to. -/
structure TraceContext where
  traceId : Str
  spanId : Str
  flags : UInt8
  tracestate : Option Str
  /-- `parse` checks and `new` formats them so. -/
  trace_ok : IsId 32 traceId
  span_ok : IsId 16 spanId

/-- Why a header is no `traceparent`. -/
inductive Malformed where
  | flagsMissing
  | groups
  | version
  | reserved
  | traceId
  | zeroTrace
  | spanId
  | zeroSpan
  | flags
  deriving DecidableEq, Repr

/-- What the error says. -/
def Malformed.reason : Malformed → String
  | .flagsMissing => "the flags are missing"
  | .groups => "expected version-traceid-spanid-flags, in four hyphenated groups"
  | .version => "the version is not two hex digits"
  | .reserved => "ff is not a valid version"
  | .traceId => "the trace id is not 32 hex digits"
  | .zeroTrace => "the trace id is all zeros"
  | .spanId => "the span id is not 16 hex digits"
  | .zeroSpan => "the span id is all zeros"
  | .flags => "the flags are not two hex digits"

namespace TraceContext

def isHex (text : Str) (digits : Nat) : Bool :=
  text.length == digits && text.all fun c => (IpAddr.hexDigit c).isSome

def isZero (text : Str) : Bool := text.all fun c => c == '0'

theorem isId_lower {text : Str} {digits : Nat} (h : isHex text digits) :
    IsId digits (Text.toAsciiLowercase text) := by
  unfold isHex at h
  rw [Bool.and_eq_true, beq_iff_eq, List.all_eq_true] at h
  refine ⟨(List.length_map ..).trans h.1, ?_⟩
  intro c hc
  obtain ⟨b, hb, rfl⟩ := List.mem_map.mp hc
  exact Hex.toLower_digit (h.2 b hb)

theorem isId_padded {width : Nat} (hwidth : 0 < width) {n : Nat} (h : n < 16 ^ width) :
    IsId width (Hex.padded width n) :=
  ⟨Hex.padded_length hwidth h, fun c hc => ⟨Hex.padded_digits width n c hc, Hex.padded_lower hc⟩⟩

theorem isId_append {m n : Nat} {front back : Str} (hfront : IsId m front) (hback : IsId n back) :
    IsId (m + n) (front ++ back) := by
  refine ⟨by rw [List.length_append, hfront.1, hback.1], ?_⟩
  intro c hc
  rcases List.mem_append.mp hc with hc | hc
  · exact hfront.2 c hc
  · exact hback.2 c hc

theorem isId_word (word : UInt64) : IsId 16 (Hex.padded 16 word.toNat) :=
  isId_padded (by decide) word.toNat_lt

/-- Starts a trace, sampled, out of three words drawn. -/
def new (first second third : UInt64) : TraceContext where
  traceId := Hex.padded 16 first.toNat ++ Hex.padded 16 second.toNat
  spanId := Hex.padded 16 third.toNat
  flags := SAMPLED
  tracestate := none
  trace_ok := isId_append (isId_word first) (isId_word second)
  span_ok := isId_word third

/-- The four groups that a header has. -/
structure Groups where
  version : Str
  traceId : Str
  spanId : Str
  flags : Str
  deriving DecidableEq, Repr

/-- The groups, out of the pieces between the hyphens. -/
def groups : List Str → Except Malformed Groups
  | [a, b, c] =>
    -- the version-less form is told by its trace id
    if isHex a 32 then .ok ⟨"00".toList, a, b, c⟩
    else if isHex a 2 && isHex b 32 then .error .flagsMissing
    else .error .groups
  | [version, traceId, spanId, flags] => .ok ⟨version, traceId, spanId, flags⟩
  | version :: traceId :: spanId :: flags :: _ =>
    -- a later version may have more of them
    if version ≠ "00".toList then .ok ⟨version, traceId, spanId, flags⟩ else .error .groups
  | _ => .error .groups

/-- Continues the trace that a `traceparent` header names. -/
def parse (header : Str) : Except Malformed TraceContext :=
  match groups (Text.split '-' (Text.trim header)) with
  | .error e => .error e
  | .ok g =>
    if isHex g.version 2 = false then .error .version
    else if Text.toAsciiLowercase g.version = "ff".toList then .error .reserved
    else if htrace : isHex g.traceId 32 = false then .error .traceId
    else if isZero g.traceId then .error .zeroTrace
    else if hspan : isHex g.spanId 16 = false then .error .spanId
    else if isZero g.spanId then .error .zeroSpan
    else if isHex g.flags 2 = false then .error .flags
    else
      .ok {
        traceId := Text.toAsciiLowercase g.traceId
        spanId := Text.toAsciiLowercase g.spanId
        flags := UInt8.ofNat ((Hex.fromStrRadix 256 g.flags).getD 0)
        tracestate := none
        trace_ok := isId_lower (Bool.eq_true_of_not_eq_false htrace)
        span_ok := isId_lower (Bool.eq_true_of_not_eq_false hspan) }

/-- Carries a `tracestate` header alongside. -/
def withTracestate (context : TraceContext) (state : Str) : TraceContext :=
  { context with tracestate := some state }

/-- One of the four groups of eight digits, without leading zeros. -/
def guidGroup (traceId : Str) (group : Nat) : Str :=
  let trimmed := ((traceId.drop (group * 8)).take 8).dropWhile (· == '0')
  if trimmed.isEmpty then ['0'] else trimmed

/-- The trace, as the cluster spells it. -/
def ytTraceId (context : TraceContext) : Str :=
  List.intercalate ['-'] ((List.range 4).map (guidGroup context.traceId))

def isSampled (context : TraceContext) : Bool := context.flags &&& SAMPLED != 0

/-- The `traceparent` header value, as it goes on the wire. -/
def header (context : TraceContext) : Str :=
  "00-".toList ++ context.traceId ++ '-' :: (context.spanId ++ '-' ::
    Hex.padded 2 context.flags.toNat)

end TraceContext

/-- `set_trace`, of a context. -/
def Transport.carry (t : Transport) (context : TraceContext) : Transport :=
  t.setTrace context.header context.tracestate

end Ytsaurus.Client
