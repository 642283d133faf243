import Ytsaurus.Client.Commands

/-!
# `Client/Operation.lean` — waiting for an operation, and why it failed (`lib.rs`, `operation.rs`)

`waitForOperation` polls until the operation has ended. When it has failed, the error carries what
the cluster says of the operation and of its first failed jobs, as far as the cluster says it:
each of these questions is put once, by a client without retries, and may fail quietly. The number
of polls is a parameter, and nothing is come to when it is used up.
-/

set_option autoImplicit false
set_option linter.dupNamespace false

namespace Ytsaurus.Client

open Dialogue
open Yson (YsonValue YsonNode FloatText)
open Utf8 (fromUtf8Lossy)
open Jobs (JobInfo JobFailure errorSummary parseJobs)

/-- How many failed jobs are reported in detail. -/
def REPORTED_JOBS : Nat := 3

/-- How much of a failed job's stderr is quoted. -/
def STDERR_EXCERPT : Nat := 4096

/-- The state and the suspension, out of one answer. -/
structure OperationStatus where
  state : String
  suspended : Bool

/-- How waiting ends. -/
inductive WaitError where
  | call (e : CallError)
  | operationFailed (id state : String) (error : Option String) (jobs : List JobFailure)

/-- What waiting came to: the lines that were printed, without the id and the time, and the
outcome, unless the polls were used up. -/
structure Waited where
  progress : List String
  outcome : Option (Except WaitError Unit)

namespace Operation

/-! ## Reading `get_operation` (`operation.rs`) -/

/-- A boolean field; nothing when it is absent or no boolean. -/
def flag (value : Option YsonValue) : Option Bool :=
  value.bind fun value =>
    match value.node with
    | .boolean b => some b
    | _ => none

/-- The `state` of an answer. -/
def stateOf (document : YsonValue) : Except CallError String :=
  match (field document "state").map YsonValue.node with
  | some (.string bytes) => .ok (fromUtf8Lossy bytes)
  | other => .error (.answer (.stateNotAString other))

/-- Whether an answer says the operation is paused; absent is `false`. -/
def suspendedOf (document : YsonValue) : Except CallError Bool :=
  match field document "suspended" with
  | none => .ok false
  | some value =>
    match flag (some value) with
    | some suspended => .ok suspended
    | none => .error (.answer (.suspendedNotABoolean value.node))

end Operation

namespace Client

/-! ## Orders -/

open YsonBuild

def getOperationOrder (c : Client) (parameters : YsonValue) : Order where
  transport := c.transport
  method := .get
  command := "get_operation"
  parameters := parameters
  payload := .none
  repeatable := .freely

def listJobsOrder (c : Client) (parameters : YsonValue) : Order where
  transport := c.transport
  method := .get
  command := "list_jobs"
  parameters := parameters
  payload := .none
  repeatable := .freely

def getJobStderrOrder (c : Client) (operationId jobId : String) : Order where
  transport := c.transport
  method := .get
  command := "get_job_stderr"
  parameters := map [("operation_id", string operationId), ("job_id", string jobId)]
  payload := .none
  repeatable := .heavy

/-! ## One question -/

/-- Sends an order, unless its parameters could not be made. -/
def requestWith (order : YsonValue → Order) (parameters : Except ClientError YsonValue) :
    Commands (List UInt8) :=
  match parameters with
  | .error e => .done (.error (.client e))
  | .ok parameters => request (order parameters)

def getOperationBody (c : Client) (parameters : YsonValue) (attributes : List String) :
    Commands (List UInt8) :=
  -- omitted rather than sent empty: `attributes=[]` asks for nothing
  requestWith c.getOperationOrder
    (if attributes.isEmpty then .ok parameters
      else insert parameters "attributes" (list (attributes.map string)))

variable [FloatText]

def getOperation (c : Client) (id : String) (attributes : List String) : Commands YsonValue :=
  (c.getOperationBody (map [("operation_id", string id)]) attributes).andThen fun body =>
    .done (stripEnvelope body "get_operation")

/-- The state and the suspension, out of the answer to one request. -/
def readStatus (document : YsonValue) : Except CallError OperationStatus :=
  (Operation.stateOf document).bind fun state =>
    (Operation.suspendedOf document).map fun suspended => ⟨state, suspended⟩

def operationStatus (c : Client) (id : String) : Commands OperationStatus :=
  (c.getOperation id ["state", "suspended"]).andThen fun document => .done (readStatus document)

/-- Lists an operation's jobs. -/
def listJobs (c : Client) (operationId : String) (state : Option String) (limit : Nat) :
    Commands (List JobInfo) :=
  let parameters :=
    map [("operation_id", string operationId), ("limit", int (Int64.ofNat limit))]
  (requestWith c.listJobsOrder
    (match state with
      | some state => insert parameters "state" (string state)
      | none => .ok parameters)).andThen fun body =>
    .done ((stripEnvelope body "list_jobs").bind fun envelope =>
      (fieldOf envelope "jobs").map parseJobs)

/-- What a job wrote to stderr, as raw bytes. -/
def getJobStderr (c : Client) (operationId jobId : String) : Commands (List UInt8) :=
  request (c.getJobStderrOrder operationId jobId)

/-! ## Why it failed -/

/-- The summary that an answer with a `result` holds. -/
def summaryOf (body : List UInt8) : Option String :=
  (stripEnvelope body "get_operation").toOption.bind fun document =>
    (field document "result").bind fun result => (field result "error").bind errorSummary

/-- The cluster's word for the failure: the flattened message, or else the answer as it came. -/
def operationError (c : Client) (id : String) : Script Order Answer (Option String) :=
  (c.getOperationBody (map [("operation_id", string id)]) ["result"]).map fun body =>
    body.toOption.map fun body => (summaryOf body).getD (truncate (fromUtf8Lossy body) 600)

omit [FloatText] in
/-- The tail of a job's stderr, bounded and decoded lossily. -/
def stderrExcerpt (c : Client) (operationId : String) (job : JobInfo) :
    Script Order Answer (Option String) :=
  (c.getJobStderr operationId job.id).map fun raw =>
    raw.toOption.bind fun raw =>
      if raw.isEmpty then none else some (tail (fromUtf8Lossy raw) STDERR_EXCERPT)

omit [FloatText] in
/-- A report for each of these jobs. -/
def reportJobs (c : Client) (operationId : String) :
    List JobInfo → Script Order Answer (List JobFailure)
  | [] => .done []
  | job :: jobs =>
    (c.stderrExcerpt operationId job).bind fun stderr =>
      (c.reportJobs operationId jobs).map fun reports =>
        ⟨job.id, job.address, job.error, stderr⟩ :: reports

/-- Why the jobs of an operation failed, as far as can be found out. -/
def failedJobs (c : Client) (operationId : String) : Script Order Answer (List JobFailure) :=
  if c.jobDiagnostics then
    (c.listJobs operationId (some "failed") REPORTED_JOBS).bind fun listed =>
      c.reportJobs operationId ((listed.toOption.getD []).take REPORTED_JOBS)
  else .done []

/-! ## Waiting -/

/-- What the progress line says. -/
def reportedAs (status : OperationStatus) : String :=
  if status.suspended then status.state ++ ", suspended" else status.state

/-- What is printed, unless it was printed last. -/
def progressLine (lastReported : String) (status : OperationStatus) : List String :=
  if reportedAs status ≠ lastReported then [reportedAs status] else []

/-- One turn of the loop: ends it, or waits for the next poll. -/
def turn (c : Client) (id : String) (status : OperationStatus)
    (next : Script Order Answer Waited) : Script Order Answer Waited :=
  if status.state = "completed" then .done ⟨[], some (.ok ())⟩
  else if status.state = "failed" ∨ status.state = "aborted" then
    -- each question once: the failure is known already
    (c.withoutRetries.operationError id).bind fun error =>
      (c.withoutRetries.failedJobs id).map fun jobs =>
        ⟨[], some (.error (.operationFailed id status.state error jobs))⟩
  else next

/-- The loop of `wait_for_operation`, from the last line it printed. -/
def waitFrom (c : Client) (id : String) : Nat → String → Script Order Answer Waited
  | 0, _ => .done ⟨[], none⟩
  | polls + 1, lastReported =>
    (c.operationStatus id).bind fun status =>
      match status with
      | .error e => .done ⟨[], some (.error (.call e))⟩
      | .ok status =>
        (c.turn id status (c.waitFrom id polls (reportedAs status))).map fun waited =>
          { waited with progress := progressLine lastReported status ++ waited.progress }

/-- Polls until the operation reaches a terminal state, `polls` times at most. -/
def waitForOperation (c : Client) (id : String) (polls : Nat) : Script Order Answer Waited :=
  c.waitFrom id polls ""

end Client

end Ytsaurus.Client
