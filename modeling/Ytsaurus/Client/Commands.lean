import Ytsaurus.Client.Batch
import Ytsaurus.Client.Fleet
import Ytsaurus.Client.Jobs
import Ytsaurus.Lib.Dialogue

/-!
# `Client/Commands.lean` — what the methods of a client ask of the cluster (`lib.rs`)

A method of the client is a script: the commands it sends, one after another, each of them one
call of a transport, and what it makes of the answers. Nothing is said here of how the cluster
answers. `perform` is the answerer that the transport is: it carries an order out over the
network, with all its attempts, and keeps what that came to.
-/

set_option autoImplicit false
set_option linter.dupNamespace false

namespace Ytsaurus.Client

open Dialogue
open Yson (YsonValue YsonNode YsonError FloatText)
open Utf8 (fromUtf8Lossy)

/-- One `transport.call`. -/
structure Order where
  transport : Transport
  method : Method
  command : String
  parameters : YsonValue
  payload : Payload
  repeatable : Repeatable

/-- What a call comes to. -/
abbrev Answer := Except ClientError (List UInt8)

/-- What cannot be read out of an answer, or written into a command. Each is a
`ClientError::Decode`. -/
inductive AnswerProblem where
  | malformed (command : String) (e : YsonError) (body : String)
  | noKey (key : String) (keys : List String)
  | notADict (key : String) (node : YsonNode)
  /-- `could not encode the attribute`. -/
  | unencodable (e : YsonError)
  /-- `the cluster returned no path for the cached file`. -/
  | noCachedPath
  | pathNotAString (command : String) (node : YsonNode)
  /-- The list of names the cluster gave is not all of them. -/
  | incomplete (path : String)
  | notAList (path : String) (node : YsonNode)
  | nameNotAString (path : String) (node : YsonNode)
  | stateNotAString (node : Option YsonNode)
  | suspendedNotABoolean (node : YsonNode)
  | idNotAString (node : YsonNode)
  | timeoutNotPositive (id : String) (node : YsonNode)

/-- What a method of the client fails with. -/
inductive CallError where
  | client (e : ClientError)
  | answer (problem : AnswerProblem)

/-- A method of the client. -/
abbrev Commands (R : Type) := Script Order Answer (Except CallError R)

/-- A connection to one cluster. -/
structure Client where
  transport : Transport
  jobDiagnostics : Bool
  fileCache : String

/-- Sends an order, and returns the body of the answer. -/
def request (order : Order) : Commands (List UInt8) :=
  .ask order fun answer => .done (answer.mapError .client)

/-- Sends an order of which only the success counts. -/
def tell (order : Order) : Commands Unit :=
  .ask order fun answer => .done ((answer.mapError .client).map fun _ => ())

namespace Client

/-- A copy of this client that sends each request once. -/
def withoutRetries (c : Client) : Client := { c with transport := c.transport.setRetries .none }

/-- A copy of this client that works inside a transaction. -/
def withTransaction (c : Client) (id : String) : Client :=
  { c with transport := c.transport.setTransaction (some id) }

/-! ## Orders -/

open YsonBuild

/-- `<format=binary>yson`. -/
def binaryYsonFormat : YsonValue :=
  ⟨some [(Utf8.asBytes "format", string "binary")], (string "yson").node⟩

def createOrder (c : Client) (nodeType path : String) : Order where
  transport := c.transport
  method := .post
  command := "create"
  parameters := map [("path", string path), ("type", string nodeType),
    ("recursive", boolean true), ("ignore_existing", boolean true)]
  payload := .none
  repeatable := .withMutationId

def removeOrder (c : Client) (path : String) (recursive force : Bool) : Order where
  transport := c.transport
  method := .post
  command := "remove"
  parameters := map [("path", string path), ("recursive", boolean recursive),
    ("force", boolean force)]
  payload := .none
  repeatable := .withMutationId

/-- A `get` or a `list`. -/
def readOrder (c : Client) (command path : String) : Order where
  transport := c.transport
  method := .get
  command := command
  parameters := map [("path", string path)]
  payload := .none
  repeatable := .freely

def setOrder (c : Client) (path name : String) (encoded : List UInt8) : Order where
  transport := c.transport
  method := .put
  command := "set"
  parameters := map [("path", string (path ++ "/@" ++ name)), ("input_format", binaryYsonFormat)]
  payload := .bytes encoded
  repeatable := .withMutationId

def writeFileOrder (c : Client) (path : String) (contents : List UInt8) (computeMd5 : Bool) :
    Order where
  transport := c.transport
  method := .put
  command := "write_file"
  parameters :=
    if computeMd5 then map [("path", string path), ("compute_md5", boolean true)]
    else map [("path", string path)]
  payload := .bytes contents
  repeatable := .heavy

/-! ## Reading an answer -/

/-- Reads the document that a structured answer is. -/
def stripEnvelope [FloatText] (body : List UInt8) (command : String) :
    Except CallError YsonValue :=
  (YsonValue.fromSlice body .text).mapError fun e =>
    .answer (.malformed command e (truncate (fromUtf8Lossy body) 200))

/-- What the dict holds under a key. -/
def fieldOf (value : YsonValue) (key : String) : Except CallError YsonValue :=
  match value.node with
  | .map entries =>
    match field value key with
    | some found => .ok found
    | none => .error (.answer (.noKey key (keysOf entries)))
  | node => .error (.answer (.notADict key node))

def valueField [FloatText] (body : List UInt8) (key : String) : Except CallError YsonValue :=
  (stripEnvelope body key).bind fun envelope => fieldOf envelope key

/-! ## Cypress -/

def create (c : Client) (nodeType path : String) : Commands Unit :=
  tell (c.createOrder nodeType path)

def removeWith (c : Client) (path : String) (recursive force : Bool) : Commands Unit :=
  tell (c.removeOrder path recursive force)

/-- Removes a node and everything under it; succeeds if it is already absent. -/
def removeTree (c : Client) (path : String) : Commands Unit := c.removeWith path true true

def get [FloatText] (c : Client) (path : String) : Commands YsonValue :=
  (request (c.readOrder "get" path)).andThen fun body => .done (valueField body "value")

def setAttribute [FloatText] (c : Client) (path name : String) (value : YsonValue) :
    Commands Unit :=
  match value.toVec .binary with
  | .error e => .done (.error (.answer (.unencodable e)))
  | .ok encoded => tell (c.setOrder path name encoded)

def writeFileInner (c : Client) (path : String) (contents : List UInt8) (computeMd5 : Bool) :
    Commands Unit :=
  tell (c.writeFileOrder path contents computeMd5)

def writeFile (c : Client) (path : String) (contents : List UInt8) : Commands Unit :=
  c.writeFileInner path contents false

/-- `write_file_computing_md5`. -/
def writeFileComputingMd5 (c : Client) (path : String) (contents : List UInt8) : Commands Unit :=
  c.writeFileInner path contents true

end Client

/-! ## Over the network -/

/-- What is around one command, and what the network does with its attempts. -/
structure World where
  around : Around
  network : Nat → Nat → Hop

/-- The cells of the process, and the commands carried out so far. -/
structure Performed where
  heavy : Nat → HeavyProxy
  called : List (Order × Called)

/-- Carries one order out. -/
def perform [FloatText] [JsonText] (world : Nat → World) (s : Performed) (order : Order) :
    Answer × Performed :=
  let here := world s.called.length
  let called := order.transport.callWith here.around here.network order.method order.command
    order.parameters order.payload order.repeatable none (s.heavy order.transport.heavy)
  (called.result,
    { heavy := fun cell => if cell = order.transport.heavy then called.heavy else s.heavy cell
      called := s.called ++ [(order, called)] })

end Ytsaurus.Client
