import Ytsaurus.Client.Call
import Ytsaurus.Lib.Chunks

/-!
# `Client/Batch.lean` — several commands in one round trip (`batch.rs`, `lib.rs`)

A batch is a list of parts. `executeBatchWith` cuts it into pieces, sends one `execute_batch` for
each, and reads one answer for each part out of each response. What a request of a batch came to
is kept beside the result, as a `Piece`.
-/

set_option autoImplicit false

namespace Ytsaurus.Client

open Yson (YsonValue YsonNode YsonError FloatText)
open Utf8 (asBytes fromUtf8 fromUtf8Lossy)

/-- The `concurrency` the cluster assumes when none is sent. -/
def DEFAULT_CONCURRENCY : Int64 := 50

/-- Parts per HTTP request per unit of concurrency when the caller does not say. -/
def PARTS_PER_CONCURRENCY : Nat := 5

/-- Commands the cluster refuses as a batch part. -/
def NOT_A_BATCH_PART : List String :=
  ["alter_query", "get_job_fail_context", "get_job_input", "get_job_stderr", "get_job_trace",
    "lookup_rows", "pull_consumer", "pull_queue", "pull_queue_consumer", "pull_rows",
    "read_blob_table", "read_file", "read_journal", "read_query_result", "read_shuffle_data",
    "read_table", "read_table_partition", "run_job_shell_command", "select_rows", "write_file",
    "write_file_fragment"]

/-- How one part may be repeated. -/
inductive PartKind where
  | read
  | masterMutation
  | raw
  deriving DecidableEq, Repr

/-- What a part's success is keyed by. -/
inductive Output where
  | keyed (key : String)
  | unchecked
  deriving DecidableEq, Repr

/-- One command inside a batch. -/
structure BatchPart where
  command : String
  parameters : YsonValue
  input : Option YsonValue
  kind : PartKind
  output : Output

/-- Commands sent in one round trip. `maxPartSizeGiven` is the field `max_part_size`, what the
caller said; `maxPartSize` is what holds. -/
structure BatchRequest where
  parts : List BatchPart
  concurrency : Option Int64
  maxPartSizeGiven : Option Nat
  /-- The parameters of a part are a dict: the adders build one, or refuse anything else. -/
  dicts : ∀ part ∈ parts, isDict part.parameters
  /-- The setter clamps the size to at least one. -/
  positive : ∀ size, maxPartSizeGiven = some size → 1 ≤ size

/-- `usize::MAX`. -/
def usizeMax : Nat := 18446744073709551615

namespace BatchRequest

def new : BatchRequest := ⟨[], none, none, nofun, nofun⟩

def withConcurrency (batch : BatchRequest) (concurrency : UInt32) : BatchRequest :=
  { batch with concurrency := some (Int64.ofNat (max concurrency.toNat 1)) }

def withMaxPartSize (batch : BatchRequest) (parts : Nat) : BatchRequest :=
  { batch with
    maxPartSizeGiven := some (max parts 1)
    positive := by
      intro size hsize
      cases hsize
      exact Nat.le_max_right _ _ }

def push (batch : BatchRequest) (part : BatchPart) (h : isDict part.parameters) : BatchRequest :=
  { batch with
    parts := batch.parts ++ [part]
    dicts := by
      intro other hother
      rcases List.mem_append.mp hother with hother | hother
      · exact batch.dicts other hother
      · rw [List.mem_singleton.mp hother]
        exact h }

open YsonBuild in
def create (batch : BatchRequest) (nodeType path : String) : BatchRequest :=
  batch.push ⟨"create", map [("path", string path), ("type", string nodeType),
    ("recursive", boolean true), ("ignore_existing", boolean true)], none, .masterMutation,
    .keyed "node_id"⟩ rfl

open YsonBuild in
/-- `schema` is the verdict of `TableSchema::validate`, with the document of a schema that
passes. -/
def createTable (batch : BatchRequest) (path : String) (schema : Except String YsonValue) :
    Except ClientError BatchRequest :=
  match schema with
  | .error reason => .error (.config (path ++ ": " ++ reason))
  | .ok schema =>
    .ok (batch.push ⟨"create", map [("path", string path), ("type", string "table"),
      ("recursive", boolean true), ("attributes", map [("schema", schema)])], none,
      .masterMutation, .keyed "node_id"⟩ rfl)

open YsonBuild in
/-- `exists`, `get` and `list` are the same part under another name. -/
def reading (batch : BatchRequest) (command path : String) : BatchRequest :=
  batch.push ⟨command, map [("path", string path)], none, .read, .keyed "value"⟩ rfl

def «exists» (batch : BatchRequest) (path : String) : BatchRequest := batch.reading "exists" path

def get (batch : BatchRequest) (path : String) : BatchRequest := batch.reading "get" path

def list (batch : BatchRequest) (path : String) : BatchRequest := batch.reading "list" path

open YsonBuild in
/-- `remove` and `remove_tree` differ in both flags at once. -/
def removing (batch : BatchRequest) (path : String) (tree : Bool) : BatchRequest :=
  batch.push ⟨"remove", map [("path", string path), ("recursive", boolean tree),
    ("force", boolean tree)], none, .masterMutation, .unchecked⟩ rfl

def remove (batch : BatchRequest) (path : String) : BatchRequest := batch.removing path false

def removeTree (batch : BatchRequest) (path : String) : BatchRequest := batch.removing path true

open YsonBuild in
def setAttribute (batch : BatchRequest) (path name : String) (value : YsonValue) : BatchRequest :=
  batch.push ⟨"set", map [("path", string (path ++ "/@" ++ name))], some value, .masterMutation,
    .unchecked⟩ rfl

/-- `check_command_name`. -/
def checkCommandName (command : String) : Bool :=
  !command.isEmpty && command.toList.all fun c => c.isAlphanum || c == '_'

/-- Why a command this crate does not model is no part. -/
inductive RawRefusal where
  | badName (command : String)
  | notADict (command : String) (node : YsonNode)
  | notAPart (command : String)
  | movesBulkData (command : String)
  | declaredHeavy (command : String)

/-- `raw_with`. Each refusal is a `ClientError::Config`. -/
def rawWith (batch : BatchRequest) (command : String) (params : YsonValue)
    (input : Option YsonValue) (repeatable : Repeatable) : Except RawRefusal BatchRequest :=
  if checkCommandName command = false then .error (.badName command)
  else if h : isDict params then
    if NOT_A_BATCH_PART.contains command then .error (.notAPart command)
    else if isHeavy command then .error (.movesBulkData command)
    else if repeatable = .heavy then .error (.declaredHeavy command)
    else
      let kind := match repeatable with
        | .freely => PartKind.read
        | .withMutationId => .masterMutation
        | _ => .raw
      .ok (batch.push ⟨command, params, input, kind, .unchecked⟩ h)
  else .error (.notADict command params.node)

def raw (batch : BatchRequest) (command : String) (params : YsonValue)
    (input : Option YsonValue) : Except RawRefusal BatchRequest :=
  batch.rawWith command params input .never

/-- How many parts one HTTP request may carry. -/
def maxPartSize (batch : BatchRequest) : Nat :=
  batch.maxPartSizeGiven.getD
    (let concurrency := (batch.concurrency.getD DEFAULT_CONCURRENCY).toInt
    max (min ((if 0 ≤ concurrency then concurrency.toNat else usizeMax) * PARTS_PER_CONCURRENCY)
      usizeMax) 1)

/-- How the whole batch may be repeated: as its most cautious part. -/
def repeatable (batch : BatchRequest) : Repeatable :=
  if batch.parts.any fun part => part.kind == .raw then .never
  else if batch.parts.any fun part => part.kind == .masterMutation then .withMutationId
  else .freely

end BatchRequest

/-! ## Errors -/

/-- Why a batch could not be encoded, or its response read. Each is a `ClientError::Decode` of
`execute_batch`. -/
inductive BatchProblem where
  /-- `could not encode the batch`; without an error when the output was not UTF-8. -/
  | unencodable (e : Option YsonError)
  | malformed (e : YsonError) (body : String)
  | noResults (keys : List String)
  | notADict (node : YsonNode)
  | notAList (node : YsonNode)
  | miscounted (parts results : Nat)
  | partNotADict (command : String) (node : YsonNode)
  | keyMissing (command key output : String)
  | emptyResult (command : String)
  | unknownKeys (command : String) (keys : List String)

/-- What a batch fails with. -/
inductive BatchError where
  | client (e : ClientError)
  | refused (problem : BatchProblem)
  /-- `ClientError::BatchInterrupted`. -/
  | interrupted (answered : List (Except ClientError YsonValue)) (parts : Nat)
      (cause : BatchError)

/-! ## Requests -/

section

variable [FloatText]

/-- `to_string(value, YsonFormat::Text)`. -/
def toText (value : YsonValue) : Except (Option YsonError) String :=
  match value.toVec .text with
  | .error e => .error (some e)
  | .ok bytes =>
    match fromUtf8 bytes with
    | some text => .ok text
    | none => .error none

/-- The parameters of one part, with the transaction of the client in them. -/
def partParameters (transaction : Option String) (part : BatchPart) :
    Except ClientError YsonValue :=
  match transaction with
  | none => .ok part.parameters
  | some id =>
    if takesNoTransaction part.command || (field part.parameters TRANSACTION_ID).isSome then
      .ok part.parameters
    else YsonBuild.insert part.parameters TRANSACTION_ID (YsonBuild.string id)

/-- One part as `execute_batch` takes it. -/
def partRequest (transaction : Option String) (part : BatchPart) : Except ClientError YsonValue :=
  match partParameters transaction part with
  | .error e => .error e
  | .ok parameters =>
    let request := YsonBuild.map [("command", YsonBuild.string part.command),
      ("parameters", parameters)]
    match part.input with
    | none => .ok request
    | some input => YsonBuild.insert request "input" input

/-- The parameters of one `execute_batch`. -/
def chunkParameters (concurrency : Option Int64) (requests : List YsonValue) :
    Except ClientError YsonValue :=
  let rendered := YsonBuild.map [("requests", YsonBuild.list requests)]
  match concurrency with
  | none => .ok rendered
  | some concurrency => YsonBuild.insert rendered "concurrency" (YsonBuild.int concurrency)

/-- Renders one chunk of parts as `execute_batch`'s parameters. -/
def renderChunk (parts : List BatchPart) (concurrency : Option Int64)
    (transaction : Option String) : Except BatchError (List UInt8) :=
  match (parts.mapM (partRequest transaction)).bind (chunkParameters concurrency) with
  | .error e => .error (.client e)
  | .ok rendered =>
    match toText rendered with
    | .error e => .error (.refused (.unencodable e))
    | .ok text => .ok (asBytes text)

/-! ## Responses -/

/-- `YsonValue::as_str`. -/
def asStr (value : YsonValue) : Option String :=
  match value.node with
  | .string bytes => fromUtf8 bytes
  | _ => none

/-- `YsonValue::as_i64`. -/
def asI64 (value : YsonValue) : Option Int64 :=
  match value.node with
  | .int64 v => some v
  | _ => none

mutual

/-- Walks `inner_errors` to the deepest message. -/
def innermostMessage : YsonValue → Option String
  | ⟨_, .map entries⟩ => innermostOfEntries entries
  | _ => none

/-- The entry `inner_errors`, if there is one. -/
def innermostOfEntries : List (List UInt8 × YsonValue) → Option String
  | [] => none
  | (name, value) :: entries =>
    if name = asBytes "inner_errors" then innermostOfFirst value else innermostOfEntries entries

/-- Only the first of the errors is looked at. -/
def innermostOfFirst : YsonValue → Option String
  | ⟨_, .list (first :: _)⟩ =>
    (innermostMessage first).or ((field first "message").bind asStr)
  | _ => none

end

/-- Builds a part's failure from its error document. -/
def partError (command : String) (document : YsonValue) : ClientError :=
  let code := (((field document "code").bind asI64).map Int64.toInt).getD (-1)
  let outer := ((field document "message").bind asStr).getD "(no message)"
  let message := match innermostMessage document with
    | some inner => if inner ≠ outer then outer ++ ": " ++ inner else outer
    | none => outer
  .cluster command code message ((toText document).toOption.getD "")

/-- `m.keys().map(|k| String::from_utf8_lossy(k))`. -/
def keysOf (entries : List (List UInt8 × YsonValue)) : List String :=
  entries.map fun entry => fromUtf8Lossy entry.1

/-- One item of `results`. -/
def partResult (item : YsonValue) (part : BatchPart) :
    Except BatchError (Except ClientError YsonValue) :=
  match item.node with
  | .map entries =>
    match field item "error", field item "output", entries.length with
    | some error, none, 1 => .ok (.error (partError part.command error))
    | none, some output, 1 =>
      match part.output with
      | .keyed key =>
        if (field output key).isNone then
          .error (.refused (.keyMissing part.command key ((toText output).toOption.getD "?")))
        else .ok (.ok output)
      | .unchecked => .ok (.ok output)
    | none, none, 0 =>
      if part.output = .unchecked then .ok (.ok YsonBuild.emptyMap)
      else .error (.refused (.emptyResult part.command))
    | _, _, _ => .error (.refused (.unknownKeys part.command (keysOf entries)))
  | node => .error (.refused (.partNotADict part.command node))

/-- The items of `results` in a response. -/
def resultItems (body : List UInt8) : Except BatchError (List YsonValue) :=
  match YsonValue.fromSlice body .text with
  | .error e => .error (.refused (.malformed e (truncate (fromUtf8Lossy body) 200)))
  | .ok envelope =>
    match envelope.node with
    | .map entries =>
      match field envelope "results" with
      | none => .error (.refused (.noResults (keysOf entries)))
      | some results =>
        match results.node with
        | .list items => .ok items
        | node => .error (.refused (.notAList node))
    | node => .error (.refused (.notADict node))

/-- Reads one chunk's `{results=[…]}` into an answer for each part. -/
def parseResults (body : List UInt8) (parts : List BatchPart) :
    Except BatchError (List (Except ClientError YsonValue)) :=
  match resultItems body with
  | .error e => .error e
  | .ok items =>
    if items.length ≠ parts.length then
      .error (.refused (.miscounted parts.length items.length))
    else (items.zip parts).mapM fun pair => partResult pair.1 pair.2

end

/-! ## The batch -/

/-- What is around one request of a batch: what is around the command it is, what the network
does, and the state the clones share. -/
structure Ambient where
  around : Around
  network : Nat → Nat → Hop
  heavy : HeavyProxy

/-- A request of a batch that was sent: its parts, its body, and what it came to. -/
structure Piece where
  parts : List BatchPart
  body : List UInt8
  called : Called

namespace Transport

variable [FloatText] [JsonText]

/-- One request of a batch, and the piece that was sent, if one was. -/
def answerChunk (t : Transport) (ambient : Ambient) (batch : BatchRequest)
    (mutationId : Option MutationId) (chunk : List BatchPart) :
    Except BatchError (List (Except ClientError YsonValue)) × Option Piece :=
  match renderChunk chunk batch.concurrency t.transaction with
  | .error e => (.error e, none)
  | .ok body =>
    let called := t.callWith ambient.around ambient.network .post "execute_batch"
      YsonBuild.emptyMap (.bytes body) batch.repeatable mutationId ambient.heavy
    match called.result with
    | .error e => (.error (.client e), some ⟨chunk, body, called⟩)
    | .ok answer => (parseResults answer chunk, some ⟨chunk, body, called⟩)

/-- The requests one after another; `results` are the answers so far, and `n` counts the requests
behind them. -/
def answerChunks (t : Transport) (ambient : Nat → Ambient) (batch : BatchRequest)
    (mutationId : Option MutationId) :
    Nat → List (List BatchPart) → List (Except ClientError YsonValue) →
    Except BatchError (List (Except ClientError YsonValue)) × List Piece
  | _, [], results => (.ok results, [])
  | n, chunk :: chunks, results =>
    let answered := t.answerChunk (ambient n) batch mutationId chunk
    match answered.1 with
    | .ok answers =>
      let rest := t.answerChunks ambient batch mutationId (n + 1) chunks (results ++ answers)
      (rest.1, answered.2.toList ++ rest.2)
    | .error cause =>
      -- nothing was applied yet, or the answers of the earlier requests are reported
      if results.isEmpty then (.error cause, answered.2.toList)
      else (.error (.interrupted results batch.parts.length cause), answered.2.toList)

/-- Executes a batch, with a mutation id the caller may supply. -/
def executeBatchWith (t : Transport) (ambient : Nat → Ambient) (batch : BatchRequest)
    (mutationId : Option MutationId) :
    Except BatchError (List (Except ClientError YsonValue)) × List Piece :=
  if batch.parts.isEmpty then
    (.error (.client (.config ("an empty batch is not a request worth sending: the cluster " ++
      "would answer with no results, and reporting that as success " ++
      "would call a no-op work done"))), [])
  else if mutationId.isSome && decide (batch.maxPartSize < batch.parts.length) then
    (.error (.client (.config ("a batch of " ++ toString batch.parts.length ++
      " parts is sent as several requests at " ++ toString batch.maxPartSize ++ " parts each, " ++
      "and one mutation id cannot cover them: the cluster derives each part's id by " ++
      "incrementing the batch's, so a second request under the same id would be answered with " ++
      "the first request's results. Raise with_max_part_size past " ++
      toString batch.parts.length ++ ", or send it without an id."))), [])
  else
    t.answerChunks ambient batch mutationId 0 (Chunks.chunks batch.maxPartSize batch.parts) []

end Transport

end Ytsaurus.Client
