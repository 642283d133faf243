import Mathlib.Data.List.Destutter
import Ytsaurus.Client.Operation
import Ytsaurus.Proof.Client.Commands
import Ytsaurus.Proof.Scalars

/-!
# `Proof/Client/Operation.lean` — the outcome of an operation, and what is said about a failure

A wait is a run of polls that found the operation running, and what ended it (`Waits`). The
outcome is that of the first poll that found it ended, whatever the questions about a failure are
answered with; there are five of those at most, and over the network each of them is one attempt.

The questions are there to say more about a failure that is known already. They are asked of a
client without retries, and whatever comes of them is put into the report as far as it can be read:
a question that fails leaves a gap there. `Ending.failed` has the answers as parameters and the
state of the operation as the poll said it, and that is the whole of what is claimed.

A wait has no end of its own. The number of polls is a bound of the model, and `Waits.givenUp` the
case in which it was reached with the operation still running; a wait that ended in any other way
did so by itself. The source sleeps between two polls, for which the model has no time.
-/

set_option autoImplicit false
set_option linter.dupNamespace false

namespace Ytsaurus.Client

open Dialogue
open Yson (YsonValue FloatText)
open Utf8 (fromUtf8Lossy)
open Jobs (JobInfo JobFailure parseJobs)
open YsonBuild (map string list int)

/-- A request whose answer is read at once. -/
theorem talk_request_read {R : Type} {order : Order} {said : List (Exchange Order Answer)}
    {read : List UInt8 → Except CallError R} {r : Except CallError R}
    (h : Talk ((request order).andThen fun body => .done (read body)) said r) :
    ∃ answer, said = [(order, answer)] ∧ r = (answer.mapError .client).bind read := by
  rcases talk_andThen_iff.mp h with ⟨e, hrequest, rfl⟩ | ⟨_, body, _, rfl, hrequest, hread⟩
  · obtain ⟨answer, rfl, hresult⟩ := talk_request_iff.mp hrequest
    exact ⟨answer, rfl, by rw [← hresult]; rfl⟩
  · obtain ⟨answer, rfl, hresult⟩ := talk_request_iff.mp hrequest
    obtain ⟨rfl, rfl⟩ := talk_done_iff.mp hread
    exact ⟨answer, rfl, by rw [← hresult]; rfl⟩

/-! ## The questions -/

section

variable (c : Client) (id : String)

/-- The question a poll puts. -/
def Client.statusOrder : Order :=
  c.getOperationOrder (map [("operation_id", string id),
    ("attributes", list [string "state", string "suspended"])])

def Client.resultOrder : Order :=
  c.getOperationOrder (map [("operation_id", string id), ("attributes", list [string "result"])])

def Client.failedJobsOrder : Order :=
  c.listJobsOrder (map [("operation_id", string id), ("limit", int (Int64.ofNat REPORTED_JOBS)),
    ("state", string "failed")])

variable [FloatText]

theorem operationStatus_eq : c.operationStatus id =
    ((request (c.statusOrder id)).andThen fun body =>
      .done (Client.stripEnvelope body "get_operation")).andThen fun document =>
        .done (Client.readStatus document) := rfl

theorem operationError_eq : c.operationError id =
    (request (c.resultOrder id)).map fun body => body.toOption.map fun body =>
      (Client.summaryOf body).getD (truncate (fromUtf8Lossy body) 600) := rfl

theorem listFailed_eq : c.listJobs id (some "failed") REPORTED_JOBS =
    (request (c.failedJobsOrder id)).andThen fun body =>
      .done ((Client.stripEnvelope body "list_jobs").bind fun envelope =>
        (Client.fieldOf envelope "jobs").map parseJobs) := rfl

end

/-! ## What an answer says -/

section

variable [FloatText]

/-- What a poll was answered with. -/
def statusOf (answer : Answer) : Except CallError OperationStatus :=
  ((answer.mapError .client).bind fun body => Client.stripEnvelope body "get_operation").bind
    Client.readStatus

/-- What is told of the failure. -/
def errorOf (answer : Answer) : Option String :=
  answer.toOption.map fun body =>
    (Client.summaryOf body).getD (truncate (fromUtf8Lossy body) 600)

/-- The failed jobs that are asked about. -/
def shownJobs (answer : Answer) : List JobInfo :=
  (((answer.mapError .client).bind fun body =>
    (Client.stripEnvelope body "list_jobs").bind fun envelope =>
      (Client.fieldOf envelope "jobs").map parseJobs).toOption.getD []).take REPORTED_JOBS

omit [FloatText] in
/-- What is reported of a job. -/
def reportOf (job : JobInfo) (answer : Answer) : JobFailure where
  id := job.id
  address := job.address
  error := job.error
  stderr := answer.toOption.bind fun raw =>
    if raw.isEmpty then none else some (tail (fromUtf8Lossy raw) STDERR_EXCERPT)

/-- The operation has ended. -/
def OperationStatus.Ended (status : OperationStatus) : Prop :=
  status.state = "completed" ∨ status.state = "failed" ∨ status.state = "aborted"

variable {c : Client} {id : String} {said : List (Exchange Order Answer)}

theorem status_of_talk {r : Except CallError OperationStatus}
    (h : Talk (c.operationStatus id) said r) :
    ∃ answer, said = [(c.statusOrder id, answer)] ∧ r = statusOf answer := by
  rw [operationStatus_eq] at h
  rcases talk_andThen_iff.mp h with ⟨e, hfront, rfl⟩ | ⟨_, document, _, rfl, hfront, hread⟩
  · obtain ⟨answer, rfl, hdocument⟩ := talk_request_read hfront
    refine ⟨answer, rfl, ?_⟩
    unfold statusOf
    rw [← hdocument]
    rfl
  · obtain ⟨answer, rfl, hdocument⟩ := talk_request_read hfront
    obtain ⟨rfl, rfl⟩ := talk_done_iff.mp hread
    refine ⟨answer, rfl, ?_⟩
    unfold statusOf
    rw [← hdocument]
    rfl

theorem error_of_talk {error : Option String} (h : Talk (c.operationError id) said error) :
    ∃ answer, said = [(c.resultOrder id, answer)] ∧ error = errorOf answer := by
  rw [operationError_eq] at h
  obtain ⟨body, hrequest, rfl⟩ := talk_map_iff.mp h
  obtain ⟨answer, rfl, rfl⟩ := talk_request_iff.mp hrequest
  cases answer with
  | error e => exact ⟨.error e, rfl, rfl⟩
  | ok body => exact ⟨.ok body, rfl, rfl⟩

omit [FloatText] in
/-- One question for each job, and one report. -/
theorem reports_of_talk {jobs : List JobInfo} {reports : List JobFailure}
    (h : Talk (c.reportJobs id jobs) said reports) :
    ∃ answers : List Answer, answers.length = jobs.length ∧
      said = List.zipWith (fun job answer => (c.getJobStderrOrder id job.id, answer)) jobs
        answers ∧
      reports = List.zipWith reportOf jobs answers := by
  induction jobs generalizing said reports with
  | nil =>
    obtain ⟨rfl, rfl⟩ := talk_done_iff.mp h
    exact ⟨[], rfl, rfl, rfl⟩
  | cons job jobs ih =>
    obtain ⟨_, stderr, rest, rfl, hstderr, hrest⟩ := talk_bind_iff.mp h
    obtain ⟨raw, hraw, rfl⟩ := talk_map_iff.mp hstderr
    obtain ⟨answer, rfl, rfl⟩ := talk_request_iff.mp hraw
    obtain ⟨reports, hreports, rfl⟩ := talk_map_iff.mp hrest
    obtain ⟨answers, hlength, rfl, rfl⟩ := ih hreports
    refine ⟨answer :: answers, congrArg (· + 1) hlength, rfl, ?_⟩
    cases answer with
    | error e => rfl
    | ok raw => rfl

/-- What was asked about the jobs, and what was told of them. -/
inductive JobsAsked (c : Client) (id : String) :
    List (Exchange Order Answer) → List JobFailure → Prop
  | off (h : c.jobDiagnostics = false) : JobsAsked c id [] []
  | asked (h : c.jobDiagnostics = true) (listed : Answer) (answers : List Answer)
      (hlength : answers.length = (shownJobs listed).length) :
      JobsAsked c id
        ((c.failedJobsOrder id, listed) ::
          List.zipWith (fun job answer => (c.getJobStderrOrder id job.id, answer))
            (shownJobs listed) answers)
        (List.zipWith reportOf (shownJobs listed) answers)

theorem jobs_of_talk {jobs : List JobFailure} (h : Talk (c.failedJobs id) said jobs) :
    JobsAsked c id said jobs := by
  unfold Client.failedJobs at h
  split at h
  · rename_i hon
    rw [listFailed_eq] at h
    obtain ⟨_, listed, rest, rfl, hlisted, hrest⟩ := talk_bind_iff.mp h
    obtain ⟨answer, rfl, rfl⟩ := talk_request_read hlisted
    obtain ⟨answers, hlength, rfl, rfl⟩ := reports_of_talk hrest
    exact .asked hon answer answers hlength
  · rename_i hoff
    obtain ⟨rfl, rfl⟩ := talk_done_iff.mp h
    exact .off (Bool.eq_false_iff.mpr hoff)

/-! ## Waiting -/

/-- What can be said in a wait, from the line that was printed last. -/
inductive Waits (c : Client) (id : String) :
    Nat → String → List (Exchange Order Answer) → Waited → Prop
  | givenUp (last : String) : Waits c id 0 last [] ⟨[], none⟩
  | unread {polls : Nat} (last : String) {answer : Answer} {e : CallError}
      (hstatus : statusOf answer = .error e) :
      Waits c id (polls + 1) last [(c.statusOrder id, answer)] ⟨[], some (.error (.call e))⟩
  | completed {polls : Nat} (last : String) {answer : Answer} {status : OperationStatus}
      (hstatus : statusOf answer = .ok status) (hstate : status.state = "completed") :
      Waits c id (polls + 1) last [(c.statusOrder id, answer)]
        ⟨Client.progressLine last status, some (.ok ())⟩
  | failed {polls : Nat} (last : String) {answer : Answer} {status : OperationStatus}
      {work : List (Exchange Order Answer)} {jobs : List JobFailure}
      (hstatus : statusOf answer = .ok status)
      (hstate : status.state = "failed" ∨ status.state = "aborted") (result : Answer)
      (hjobs : JobsAsked c.withoutRetries id work jobs) :
      Waits c id (polls + 1) last
        ((c.statusOrder id, answer) :: (c.withoutRetries.resultOrder id, result) :: work)
        ⟨Client.progressLine last status,
          some (.error (.operationFailed id status.state (errorOf result) jobs))⟩
  | running {polls : Nat} (last : String) {answer : Answer} {status : OperationStatus}
      {said : List (Exchange Order Answer)} {waited : Waited}
      (hstatus : statusOf answer = .ok status) (hstate : ¬ status.Ended)
      (hrest : Waits c id polls (Client.reportedAs status) said waited) :
      Waits c id (polls + 1) last ((c.statusOrder id, answer) :: said)
        ⟨Client.progressLine last status ++ waited.progress, waited.outcome⟩

/-- **Whatever the cluster answers, a wait goes one of these ways.** -/
theorem waits_of_talk {polls : Nat} {last : String} {waited : Waited}
    (h : Talk (c.waitFrom id polls last) said waited) : Waits c id polls last said waited := by
  induction polls generalizing said last waited with
  | zero =>
    obtain ⟨rfl, rfl⟩ := talk_done_iff.mp h
    exact .givenUp last
  | succ polls ih =>
    obtain ⟨_, status, rest, rfl, hstatus, hrest⟩ := talk_bind_iff.mp h
    obtain ⟨answer, rfl, rfl⟩ := status_of_talk hstatus
    cases hread : statusOf answer with
    | error e =>
      rw [hread] at hrest
      obtain ⟨rfl, rfl⟩ := talk_done_iff.mp hrest
      exact .unread last hread
    | ok status =>
      rw [hread] at hrest
      obtain ⟨turned, hturn, rfl⟩ := talk_map_iff.mp hrest
      unfold Client.turn at hturn
      split at hturn
      · rename_i hcompleted
        obtain ⟨rfl, rfl⟩ := talk_done_iff.mp hturn
        simp only [List.append_nil]
        exact .completed last hread hcompleted
      · rename_i hcompleted
        split at hturn
        · rename_i hfailed
          obtain ⟨_, error, work, rfl, herror, hwork⟩ := talk_bind_iff.mp hturn
          obtain ⟨result, rfl, rfl⟩ := error_of_talk herror
          obtain ⟨jobs, hjobs, rfl⟩ := talk_map_iff.mp hwork
          simp only [List.append_nil]
          exact .failed last hread hfailed result (jobs_of_talk hjobs)
        · rename_i hfailed
          exact .running last hread (not_or.mpr ⟨hcompleted, hfailed⟩) (ih hturn)

/-- What ended a wait: the last poll, with the status it read, and the questions behind it. -/
inductive Ending (c : Client) (id : String) :
    List (Exchange Order Answer) → List OperationStatus → Option (Except WaitError Unit) → Prop
  | givenUp : Ending c id [] [] none
  | unread {answer : Answer} {e : CallError} (hstatus : statusOf answer = .error e) :
      Ending c id [(c.statusOrder id, answer)] [] (some (.error (.call e)))
  | completed {answer : Answer} {status : OperationStatus} (hstatus : statusOf answer = .ok status)
      (hstate : status.state = "completed") :
      Ending c id [(c.statusOrder id, answer)] [status] (some (.ok ()))
  | failed {answer : Answer} {status : OperationStatus} {work : List (Exchange Order Answer)}
      {jobs : List JobFailure} (hstatus : statusOf answer = .ok status)
      (hstate : status.state = "failed" ∨ status.state = "aborted") (result : Answer)
      (hjobs : JobsAsked c.withoutRetries id work jobs) :
      Ending c id
        ((c.statusOrder id, answer) :: (c.withoutRetries.resultOrder id, result) :: work) [status]
        (some (.error (.operationFailed id status.state (errorOf result) jobs)))

/-- A wait that ended where the operation did: the polls that found it running, what ended the
wait, and the lines that were printed, one for each change. -/
def EndsFirst (c : Client) (id : String) (polls : Nat) (last : String)
    (said : List (Exchange Order Answer)) (waited : Waited) : Prop :=
  ∃ (running : List (Answer × OperationStatus)) (rest : List (Exchange Order Answer))
    (final : List OperationStatus),
    said = running.map (fun poll => (c.statusOrder id, poll.1)) ++ rest ∧
      (∀ poll ∈ running, statusOf poll.1 = .ok poll.2 ∧ ¬ poll.2.Ended) ∧
      Ending c id rest final waited.outcome ∧
      (waited.outcome = none → running.length = polls) ∧
      last :: waited.progress =
        List.destutter' (· ≠ ·) last
          ((running.map Prod.snd ++ final).map Client.reportedAs)

omit [FloatText] in
/-- A line is printed when it is another than the last. -/
theorem progress_cons (last : String) (status : OperationStatus) (texts progress : List String)
    (h : Client.reportedAs status :: progress =
      List.destutter' (· ≠ ·) (Client.reportedAs status) texts) :
    last :: (Client.progressLine last status ++ progress) =
      List.destutter' (· ≠ ·) last (Client.reportedAs status :: texts) := by
  unfold Client.progressLine
  by_cases hsame : Client.reportedAs status = last
  · rw [List.destutter'_cons_neg _ (by simpa using hsame.symm), if_neg (by simpa using hsame),
      List.nil_append, ← hsame, h]
  · rw [List.destutter'_cons_pos _ (Ne.symm hsame), if_pos hsame, ← h]
    rfl

theorem endsFirst_of_waits {polls : Nat} {last : String} {waited : Waited}
    (h : Waits c id polls last said waited) : EndsFirst c id polls last said waited := by
  induction h with
  | givenUp last =>
    exact ⟨[], [], [], rfl, by simp, .givenUp, fun _ => rfl, rfl⟩
  | unread last hstatus =>
    exact ⟨[], _, [], rfl, by simp, .unread hstatus, nofun, rfl⟩
  | @completed polls last answer status hstatus hstate =>
    refine ⟨[], _, [status], rfl, by simp, .completed hstatus hstate, nofun, ?_⟩
    have hprogress := progress_cons last status [] [] rfl
    rwa [List.append_nil] at hprogress
  | @failed polls last answer status work jobs hstatus hstate result hjobs =>
    refine ⟨[], _, [status], rfl, by simp, .failed hstatus hstate result hjobs, nofun, ?_⟩
    have hprogress := progress_cons last status [] [] rfl
    rwa [List.append_nil] at hprogress
  | @running polls last answer status said waited hstatus hstate hrest ih =>
    obtain ⟨running, rest, final, rfl, hrunning, hending, hgivenUp, hprogress⟩ := ih
    refine ⟨(answer, status) :: running, rest, final, rfl, ?_, hending, ?_, ?_⟩
    · intro poll hpoll
      rcases List.mem_cons.mp hpoll with rfl | hpoll
      · exact ⟨hstatus, hstate⟩
      · exact hrunning poll hpoll
    · intro hnone
      exact congrArg (· + 1) (hgivenUp hnone)
    · exact progress_cons last status _ _ hprogress

/-- **A wait ends with the first poll that finds the operation ended**, and its outcome is what
that poll said, whatever the questions about a failure are answered with. A poll that cannot be
read ends it too, and nothing else does. -/
theorem wait_ends_first {polls : Nat} {waited : Waited}
    (h : Talk (c.waitForOperation id polls) said waited) :
    EndsFirst c id polls "" said waited :=
  endsFirst_of_waits (waits_of_talk h)

end

/-! ### Two polls -/

def waiter : Client := ⟨.new ['a'] none true none false 0, true, "//cache"⟩

/-- `{state=running}`, and then `{state=completed}`. -/
def runningThenCompleted (polled : Nat) (_ : Order) : Answer × Nat :=
  (.ok (if polled = 0 then "\x7bstate=running\x7d".toUTF8.toList else "\x7bstate=completed\x7d".toUTF8.toList),
    polled + 1)

theorem wait_ends_first_second :
    @EndsFirst Yson.plainFloatText waiter "1-2-3-4" 5 ""
      ((@Client.waitForOperation Yson.plainFloatText waiter "1-2-3-4" 5).play runningThenCompleted
        0).1
      ((@Client.waitForOperation Yson.plainFloatText waiter "1-2-3-4" 5).play runningThenCompleted
        0).2.1 :=
  @wait_ends_first Yson.plainFloatText _ _ _ _ _ (talk_play runningThenCompleted _ 0)

/-! ## The questions about a failure -/

section

variable [FloatText] {c : Client} {id : String}

omit [FloatText] in
theorem forall_zipWith {α β γ : Type} {f : α → β → γ} {P : γ → Prop} (h : ∀ a b, P (f a b))
    (xs : List α) (ys : List β) : ∀ x ∈ List.zipWith f xs ys, P x := by
  induction xs generalizing ys with
  | nil => simp
  | cons a xs ih =>
    cases ys with
    | nil => simp
    | cons b ys => simpa [h a b] using ih ys

theorem shownJobs_length (listed : Answer) : (shownJobs listed).length ≤ REPORTED_JOBS := by
  unfold shownJobs
  rw [List.length_take]
  exact Nat.min_le_left _ _

/-- **At most three jobs are reported, and at most four questions are put about them.** -/
theorem jobsAsked_bounded {work : List (Exchange Order Answer)} {jobs : List JobFailure}
    (h : JobsAsked c id work jobs) :
    work.length ≤ 4 ∧ jobs.length ≤ 3 ∧ ∀ x ∈ work, x.1.transport = c.transport := by
  cases h with
  | off h => simp
  | asked h listed answers hlength =>
    have hshown : (shownJobs listed).length ≤ 3 := shownJobs_length listed
    rw [List.length_cons, List.length_zipWith, List.length_zipWith, hlength, Nat.min_self]
    refine ⟨Nat.succ_le_succ hshown, hshown, ?_⟩
    intro x hx
    rcases List.mem_cons.mp hx with rfl | hx
    · rfl
    · exact @forall_zipWith _ _ _ _ (fun x : Exchange Order Answer => x.1.transport = c.transport)
        (fun _ _ => rfl) _ _ x hx

end

/-! ## Over the network -/

section

variable [FloatText] [JsonText] (world : Nat → World)

/-- A call that was made for an order. -/
def Made (x : Order × Called) : Prop :=
  ∃ (around : Around) (network : Nat → Nat → Hop) (heavy : HeavyProxy),
    x.2 = x.1.transport.callWith around network x.1.method x.1.command x.1.parameters x.1.payload
      x.1.repeatable none heavy

/-- **What was said is what was called**, in order. -/
theorem play_called {R : Type} (p : Script Order Answer R) (s : Performed) :
    ∃ made, (p.play (perform world) s).2.2.called = s.called ++ made ∧
      (p.play (perform world) s).1 = made.map (fun x => (x.1, x.2.result)) ∧
      ∀ x ∈ made, Made x := by
  induction p generalizing s with
  | done r => exact ⟨[], (List.append_nil _).symm, rfl, by simp⟩
  | ask order next ih =>
    obtain ⟨made, hcalled, hsaid, hmade⟩ := ih (perform world s order).1 (perform world s order).2
    refine ⟨(order, order.transport.callWith (world s.called.length).around
      (world s.called.length).network order.method order.command order.parameters order.payload
      order.repeatable none (s.heavy order.transport.heavy)) :: made, ?_, ?_, ?_⟩
    · refine hcalled.trans ?_
      unfold perform
      simp
    · show (order, _) :: _ = _
      rw [hsaid]
      rfl
    · intro x hx
      rcases List.mem_cons.mp hx with rfl | hx
      · exact ⟨_, _, _, rfl⟩
      · exact hmade x hx

theorem attemptOn_one (t : Transport) (network : Nat → Nat → Hop) (base : Str) (method : Method)
    (command : String) (parameters : YsonValue) (payload : Payload)
    (mutationId : Option MutationId) (isRetry : Bool) :
    (t.attemptOn network base method command parameters payload mutationId isRetry
      []).2.length ≤ 1 := by
  unfold Transport.attemptOn
  split
  · exact Nat.zero_le _
  · exact Nat.le_refl _

omit [FloatText] in
/-- Without retries there is one attempt, and no pause. -/
theorem run_once {α σ : Type} (repeatable : Repeatable)
    (action : Bool → σ → Except ClientError α × σ) (state : σ) :
    (run .none repeatable action state).sleeps = [] ∧
      (run .none repeatable action state).state = (action false state).2 := by
  have hallowed : RetryPolicy.none.allowed repeatable = 1 := by cases repeatable <;> rfl
  unfold run
  rw [hallowed]
  unfold runLoop
  cases haction : action (decide (1 < 1)) state with
  | mk result after =>
    have hfalse : action false state = (result, after) := haction
    rw [hfalse]
    cases result with
    | ok value => exact ⟨rfl, rfl⟩
    | error e =>
      dsimp only
      rw [if_pos (.inl (Nat.le_refl 1))]
      exact ⟨rfl, rfl⟩

/-- A call without retries. -/
theorem made_once {x : Order × Called} (h : Made x)
    (hretries : x.1.transport.retries = .none) : x.2.sleeps = [] ∧ x.2.sent.length ≤ 1 := by
  obtain ⟨around, network, heavy, hcalled⟩ := h
  rw [hcalled]
  unfold Transport.callWith
  dsimp only
  split
  · exact ⟨rfl, Nat.zero_le _⟩
  · split
    · exact ⟨rfl, Nat.zero_le _⟩
    · dsimp only
      rw [hretries]
      obtain ⟨hsleeps, hstate⟩ := run_once x.1.repeatable
        (x.1.transport.attemptOn network _ x.1.method x.1.command _ x.1.payload _) []
      exact ⟨hsleeps, hstate ▸ attemptOn_one _ _ _ _ _ _ _ _ _⟩

/-- **A failure that is known is not held up.** Over the network a wait is polls, and behind the
one that found the operation failed, five calls at most; each of these is one attempt, and nothing
pauses between them. -/
theorem failure_not_delayed (s : Performed) (c : Client) (id : String) (polls : Nat) :
    ∃ polled asked,
      ((c.waitForOperation id polls).play (perform world) s).2.2.called =
        s.called ++ polled ++ asked ∧
      (∀ x ∈ polled, x.1 = c.statusOrder id) ∧ asked.length ≤ 5 ∧
      (∀ x ∈ asked, x.2.sleeps = [] ∧ x.2.sent.length ≤ 1) ∧
      (asked ≠ [] → ∃ x status, polled.getLast? = some x ∧ statusOf x.2.result = .ok status ∧
        (status.state = "failed" ∨ status.state = "aborted")) := by
  obtain ⟨made, hcalled, hsaid, hmade⟩ := play_called world (c.waitForOperation id polls) s
  obtain ⟨running, rest, final, hsplit, -, hending, -⟩ := endsFirst_of_waits
    (waits_of_talk (talk_play (perform world) (c.waitForOperation id polls) s))
  rw [hsaid] at hsplit
  obtain ⟨front, back, rfl, hfront, hback⟩ := List.map_eq_append_iff.mp hsplit
  have hpolled : ∀ x ∈ front, x.1 = c.statusOrder id := by
    intro x hx
    have hmem : (x.1, x.2.result) ∈ running.map fun poll => (c.statusOrder id, poll.1) := by
      rw [← hfront]
      exact List.mem_map_of_mem hx
    obtain ⟨poll, -, hpoll⟩ := List.mem_map.mp hmem
    exact (congrArg Prod.fst hpoll).symm
  -- a wait that ends with a poll asks nothing
  have hquiet {answer : Answer} (h : rest = [(c.statusOrder id, answer)]) :
      ∀ x ∈ front ++ back, x.1 = c.statusOrder id := by
    intro x hx
    rcases List.mem_append.mp hx with hx | hx
    · exact hpolled x hx
    · have hmem : (x.1, x.2.result) ∈ rest := by
        rw [← hback]
        exact List.mem_map_of_mem hx
      rw [h, List.mem_singleton] at hmem
      exact congrArg Prod.fst hmem
  have hnone (h : ∀ x ∈ front ++ back, x.1 = c.statusOrder id) :
      ∃ polled asked, s.called ++ (front ++ back) = s.called ++ polled ++ asked ∧
        (∀ x ∈ polled, x.1 = c.statusOrder id) ∧ asked.length ≤ 5 ∧
        (∀ x ∈ asked, x.2.sleeps = [] ∧ x.2.sent.length ≤ 1) ∧
        (asked ≠ [] → ∃ x status, polled.getLast? = some x ∧ statusOf x.2.result = .ok status ∧
          (status.state = "failed" ∨ status.state = "aborted")) :=
    ⟨front ++ back, [], by simp, h, by simp, by simp, by simp⟩
  rw [hcalled]
  generalize ((c.waitForOperation id polls).play (perform world) s).2.1.outcome = outcome at hending
  cases hending with
  | givenUp =>
    apply hnone
    rw [List.map_eq_nil_iff.mp hback]
    simpa using fun a b hab => hpolled (a, b) hab
  | unread hstatus => exact hnone (hquiet rfl)
  | completed hstatus hstate => exact hnone (hquiet rfl)
  | @failed answer status work jobs hstatus hstate result hjobs =>
    obtain ⟨hwork, -, htransport⟩ := jobsAsked_bounded hjobs
    obtain ⟨last, asked, rfl, hlast, hasked⟩ := List.map_eq_cons_iff.mp hback
    have hlength : asked.length = work.length + 1 := by
      rw [← List.length_map, hasked]
      rfl
    refine ⟨front ++ [last], asked, by simp, ?_, ?_, ?_, ?_⟩
    · intro x hx
      rcases List.mem_append.mp hx with hx | hx
      · exact hpolled x hx
      · rw [List.mem_singleton.mp hx]
        exact congrArg Prod.fst hlast
    · rw [hlength]
      exact Nat.succ_le_succ hwork
    · intro x hx
      apply made_once (hmade x (by simp [hx]))
      have hmem : (x.1, x.2.result) ∈ (c.withoutRetries.resultOrder id, result) :: work := by
        rw [← hasked]
        exact List.mem_map_of_mem hx
      have horder : x.1.transport = c.withoutRetries.transport := by
        rcases List.mem_cons.mp hmem with heq | hmem
        · exact congrArg (fun y => y.1.transport) heq
        · exact htransport _ hmem
      rw [horder]
      rfl
    · intro _
      refine ⟨last, status, by simp, ?_, hstate⟩
      have hanswer : last.2.result = answer := congrArg Prod.snd hlast
      rw [hanswer]
      exact hstatus

end

end Ytsaurus.Client
