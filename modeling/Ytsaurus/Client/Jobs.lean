import Ytsaurus.Client.YsonBuild

/-!
# `Client/Jobs.lean` — the jobs of an operation, and an error in one line (`jobs.rs`)

The outer message of an error document is a category; the innermost of `inner_errors` is the
cause. Unlike a batch's reader, this one decodes strings lossily.
-/

set_option autoImplicit false

namespace Ytsaurus.Client.Jobs

open Yson (YsonValue)
open Utf8 (asBytes fromUtf8Lossy)

/-- A string field, decoded lossily rather than refused. -/
def text (value : YsonValue) : Option String :=
  match value.node with
  | .string bytes => some (fromUtf8Lossy bytes)
  | _ => none

mutual

def innermostMessage : YsonValue → Option String
  | ⟨_, .map entries⟩ => innermostOfEntries entries
  | _ => none

/-- The entry `inner_errors`, if there is one. -/
def innermostOfEntries : List (List UInt8 × YsonValue) → Option String
  | [] => none
  | (name, value) :: entries =>
    if name = asBytes "inner_errors" then innermostOfFirst value else innermostOfEntries entries

/-- Only the first of the errors is looked at. -/
def innermostOfFirst : YsonValue → Option String
  | ⟨_, .list (first :: _)⟩ =>
    (innermostMessage first).or ((field first "message").bind text)
  | _ => none

end

/-- Flattens an error document to one line; nothing when it has no `message`. -/
def errorSummary (error : YsonValue) : Option String :=
  ((field error "message").bind text).map fun top =>
    match innermostMessage error with
    | some inner => if inner ≠ top then top ++ ": " ++ inner else top
    | none => top

/-! ## The jobs of an operation -/

/-- One job of an operation, as `list_jobs` reports it. -/
structure JobInfo where
  id : String
  state : String
  address : Option String
  error : Option String
  stderrSize : Option UInt64

/-- A failed job and what it printed. -/
structure JobFailure where
  id : String
  address : Option String
  error : Option String
  stderr : Option String

/-- A byte count, unsigned on the wire and accepted signed. -/
def count (value : YsonValue) : Option UInt64 :=
  match value.node with
  | .int64 v => if 0 ≤ v.toInt then some (UInt64.ofNat v.toInt.toNat) else none
  | .uint64 v => some v
  | _ => none

/-- Reads one job from `list_jobs`, or from `get_job`, which calls the id `job_id`. -/
def parseJob (job : YsonValue) : Option JobInfo :=
  (((field job "id").or (field job "job_id")).bind text).map fun id =>
    { id := id
      state := ((field job "state").bind text).getD ""
      address := (field job "address").bind text
      error := (field job "error").bind errorSummary
      stderrSize := (field job "stderr_size").bind count }

/-- Reads the `jobs` list of a `list_jobs` response, dropping a job with no ID. -/
def parseJobs (jobs : YsonValue) : List JobInfo :=
  match jobs.node with
  | .list items => items.filterMap parseJob
  | _ => []

end Ytsaurus.Client.Jobs
