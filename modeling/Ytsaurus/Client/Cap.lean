import Ytsaurus.Client.Error
import Ytsaurus.Lib.Drain

/-!
# `Client/Cap.lean` — the cap on a response body (`http.rs`)

`CapReader` stands between the decoder of a body and whoever reads it, and counts what comes out
of the decoder. The reader under it is a parameter: a function from its state and the room there
is to what it puts there. An `io::Error` is the library's error that it wraps.
-/

set_option autoImplicit false

namespace Ytsaurus.Client

/-- `u64::saturating_add`. -/
def saturatingAdd (x y : UInt64) : UInt64 :=
  if x.toNat + y.toNat < 0x10000000000000000 then x + y else 0xFFFFFFFFFFFFFFFF

/-- `left` is what is spent against the cap, `limit` the cap, for the error. -/
structure CapReader (R : Type) where
  reader : R
  limit : UInt64
  left : UInt64

namespace CapReader

variable {R : Type}

def new (reader : R) (limit : UInt64) : CapReader R where
  reader := reader
  limit := limit
  left := limit

/-- `Read::read` into a buffer of this length: the bytes put there. -/
def read (inner : R → UInt64 → Except UreqError (List UInt8) × R) (self : CapReader R)
    (bufLen : UInt64) : Except UreqError (List UInt8) × CapReader R :=
  -- one byte more than may be kept; that byte is never returned
  let room := min (saturatingAdd self.left 1) bufLen
  match inner self.reader room with
  | (.error e, reader) => (.error e, { self with reader := reader })
  | (.ok chunk, reader) =>
    let read := UInt64.ofNat chunk.length
    if read > self.left then
      (.error (.bodyExceedsLimit self.limit.toNat), { self with reader := reader })
    else (.ok chunk, { self with reader := reader, left := self.left - read })

/-- What a consumer with buffers of these lengths has got when it stops: at the end of the body,
at an error, or because it has no more buffers. An empty buffer says nothing about the end. -/
def reads (inner : R → UInt64 → Except UreqError (List UInt8) × R) :
    CapReader R → List UInt64 → List UInt8 × Drain.Outcome UreqError
  | _, [] => ([], .unfinished)
  | self, bufLen :: bufLens =>
    match self.read inner bufLen with
    | (.error e, _) => ([], .failed e)
    | (.ok chunk, self) =>
      if chunk = [] ∧ bufLen ≠ 0 then ([], .finished)
      else
        let rest := reads inner self bufLens
        (chunk ++ rest.1, rest.2)

end CapReader

/-- Which error a buffered response body failed with. -/
def bodyFailure (command : String) (limit : UInt64) (error : UreqError) : ClientError :=
  match error with
  | .bodyExceedsLimit _ => .responseTooLarge command limit.toNat
  | error => .transport command error

/-- What `read_capped` answers once its `read_to_end` is over; which buffers that takes is the
standard library's business. -/
def readToEnd {R : Type} (inner : R → UInt64 → Except UreqError (List UInt8) × R)
    (command : String) (body : R) (limit : UInt64) (bufLens : List UInt64) :
    Option (Except ClientError (List UInt8)) :=
  match (CapReader.new body limit).reads inner bufLens with
  | (bytes, .finished) => some (.ok bytes)
  | (_, .failed e) => some (.error (bodyFailure command limit e))
  | (_, .unfinished) => none

end Ytsaurus.Client
