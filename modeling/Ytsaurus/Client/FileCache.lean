import Ytsaurus.Client.Commands
import Ytsaurus.Lib.Hex

/-!
# `Client/FileCache.lean` — a worker in the cluster's file cache (`lib.rs`)

`uploadWorkerCached` looks the worker up by its MD5, stages it in the cache directory when it is
not there, hands the staging node over to the cache, and removes it. A cache that refuses this
caller is answered by an upload outside it. The text of the MD5 is a parameter (the `md5` crate),
and so are the words that the two nonces are made of.
-/

set_option autoImplicit false
set_option linter.dupNamespace false

namespace Ytsaurus.Client

open Dialogue
open Yson (YsonValue YsonNode FloatText)
open Utf8 (fromUtf8Lossy)

/-- Where a worker goes when the file cache refuses it. -/
def UNCACHED_UPLOAD_DIR : String := "//tmp"

/-- `Access denied`. -/
def ACCESS_DENIED : Int := 901

/-- `format!("{:x}", digest)`: two digits for each byte. -/
def digestText (digest : List UInt8) : String :=
  String.ofList (digest.flatMap fun b => Hex.padded 2 b.toNat)

/-- A worker binary on the cluster. -/
structure CachedFile where
  path : String
  name : String
  uploaded : Bool
  cached : Bool

/-- What an upload through the file cache came to. -/
inductive Cached where
  | at (path : String)
  | refused (denial : CallError)

section

variable [JsonText]

/-- Whether an error is the cluster refusing `command` on ACL grounds. -/
def denied (error : CallError) (command : String) : Bool :=
  match error with
  | .client (.cluster failed code _ raw) =>
    failed == command && (decide (code = ACCESS_DENIED) || rawContainsCode raw [ACCESS_DENIED])
  | _ => false

/-- A refused `create` in the cache directory; any other failure as an error. -/
def refusedOrReported (error : CallError) : Except CallError Cached :=
  if denied error "create" then .ok (.refused error) else .error error

end

namespace Client

/-! ## Orders -/

open YsonBuild

def getFileFromCacheOrder (c : Client) (md5 : String) : Order where
  transport := c.transport
  method := .get
  command := "get_file_from_cache"
  parameters := map [("md5", string md5), ("cache_path", string c.fileCache)]
  payload := .none
  repeatable := .freely

def putFileToCacheOrder (c : Client) (path md5 : String) : Order where
  transport := c.transport
  method := .post
  command := "put_file_to_cache"
  parameters := map [("path", string path), ("md5", string md5),
    ("cache_path", string c.fileCache)]
  payload := .none
  repeatable := .withMutationId

section

variable [FloatText]

/-- Reads the path out of a file-cache response: a bare string, or a dict with one under
`path`. A miss is an empty string. -/
def cachedPath (body : List UInt8) (command : String) : Except CallError (Option String) :=
  (stripEnvelope body command).bind fun value =>
    (match value.node with
      | .map _ => fieldOf value "path"
      | _ => .ok value).bind fun value =>
      match value.node with
      | .string bytes => if bytes.isEmpty then .ok none else .ok (some (fromUtf8Lossy bytes))
      | .entity => .ok none
      | node => .error (.answer (.pathNotAString command node))

/-- Looks up a file in the cluster's file cache by its MD5. -/
def fileFromCache (c : Client) (md5 : String) : Commands (Option String) :=
  (request (c.getFileFromCacheOrder md5)).andThen fun body =>
    .done (cachedPath body "get_file_from_cache")

/-- Hands a file already written to Cypress to the file cache. -/
def putFileToCache (c : Client) (path md5 : String) : Commands String :=
  (request (c.putFileToCacheOrder path md5)).andThen fun body =>
    .done ((cachedPath body "put_file_to_cache").bind fun path =>
      match path with
      | some path => .ok path
      | none => .error (.answer .noCachedPath))

/-- Writes a file a node is allowed to run. -/
def uploadExecutable (c : Client) (remote : String) (bytes : List UInt8) : Commands Unit :=
  (c.create "file" remote).andThen fun _ =>
    (c.writeFile remote bytes).andThen fun _ =>
      c.setAttribute remote "executable" (boolean true)

/-! ## The upload -/

/-- `{file_cache}/staged_{digest}_{nonce}`. -/
def stagingPath (c : Client) (digest : String) (nonce : MutationId) : String :=
  c.fileCache ++ "/staged_" ++ digest ++ "_" ++ nonce.id

/-- `{UNCACHED_UPLOAD_DIR}/ytsaurus_rs_worker_{digest}_{nonce}`. -/
def uncachedPath (digest : String) (nonce : MutationId) : String :=
  UNCACHED_UPLOAD_DIR ++ "/ytsaurus_rs_worker_" ++ digest ++ "_" ++ nonce.id

/-- Writes the staging node and hands it over. -/
def handOver (c : Client) (bytes : List UInt8) (digest staging : String) : Commands String :=
  ((c.writeFileComputingMd5 staging bytes).andThen fun _ =>
    c.setAttribute staging "executable" (boolean true)).andThen fun _ =>
      c.putFileToCache staging digest

variable [JsonText]

/-- What the upload came to, once the staging node was removed. A failed removal is reported
only when nothing else failed, and ignored when the handover was refused. -/
def settled (cached : Except CallError String) (removed : Except CallError Unit) :
    Except CallError Cached :=
  match cached with
  | .ok path =>
    match removed with
    | .ok () => .ok (.at path)
    | .error e => .error e
  | .error failed =>
    if denied failed "put_file_to_cache" then .ok (.refused failed) else .error failed

/-- Everything in `uploadWorkerCached` that touches the cache. -/
def uploadIntoCache (c : Client) (bytes : List UInt8) (digest : String) (nonce : MutationId) :
    Commands Cached :=
  (c.create "map_node" c.fileCache).bind fun made =>
    match made with
    | .error denial => .done (refusedOrReported denial)
    | .ok () =>
      let staging := c.stagingPath digest nonce
      (c.create "file" staging).bind fun created =>
        match created with
        | .error denial => .done (refusedOrReported denial)
        | .ok () =>
          (c.handOver bytes digest staging).bind fun cached =>
            -- removed either way
            (c.removeTree staging).bind fun removed => .done (settled cached removed)

omit [JsonText] in
/-- Uploads the worker outside the cache. -/
def uploadUncached (c : Client) (digest : String) (nonce : MutationId) (bytes : List UInt8) :
    Commands String :=
  (c.uploadExecutable (uncachedPath digest nonce) bytes).andThen fun _ =>
    .done (.ok (uncachedPath digest nonce))

/-- What is left to do once the cache has answered. -/
def afterCache (c : Client) (digest name : String) (nonce : MutationId) (bytes : List UInt8) :
    Cached → Commands CachedFile
  | .at path =>
    -- set on the cached path too, in case the attribute did not survive the handover
    (c.setAttribute path "executable" (boolean true)).andThen fun _ =>
      .done (.ok ⟨path, name, true, true⟩)
  | .refused _ =>
    (c.uploadUncached digest nonce bytes).andThen fun path =>
      .done (.ok ⟨path, name, true, false⟩)

/-- Uploads a worker, or finds it already on the cluster. `name` is the file's own, and `staged`
and `uncached` are the ids drawn for the two nodes it may write. -/
def uploadWorkerCached (c : Client) (md5 : List UInt8 → List UInt8) (name : String)
    (bytes : List UInt8) (staged uncached : MutationId) : Commands CachedFile :=
  let digest := digestText (md5 bytes)
  (c.fileFromCache digest).andThen fun hit =>
    match hit with
    | some path => .done (.ok ⟨path, name, false, true⟩)
    | none =>
      (c.uploadIntoCache bytes digest staged).andThen fun cached =>
        c.afterCache digest name uncached bytes cached

end

end Client

end Ytsaurus.Client
