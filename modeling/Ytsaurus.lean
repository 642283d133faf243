import Ytsaurus.Lib.StateExcept
import Ytsaurus.Lib.SortedMap
import Ytsaurus.Proof.Tokens
import Ytsaurus.Proof.Reencode
import Ytsaurus.Proof.Agree
import Ytsaurus.Lib.Drain
import Ytsaurus.Lib.Framing
import Ytsaurus.Proof.Delimit
import Ytsaurus.Proof.Permits
import Ytsaurus.Proof.Cancellation
import Ytsaurus.Proof.Waiters
import Ytsaurus.Proof.Skiff.Mixture
import Ytsaurus.Proof.Skiff.RoundTrip
import Ytsaurus.Proof.Bus.Stream
import Ytsaurus.Proof.Rpc.Rowset
import Ytsaurus.Proof.Client.Truncated
import Ytsaurus.Proof.Job.Chunks
import Ytsaurus.Proof.Job.Groups
import Ytsaurus.Proof.Job.Controls
import Ytsaurus.Proof.Pending
import Ytsaurus.Proof.Bus.Corruption
import Ytsaurus.Proof.Skiff.Format
import Ytsaurus.Proof.Stream
import Ytsaurus.Proof.Client.Dynamic
import Ytsaurus.Proof.Client.Http
import Ytsaurus.Client.Call
import Ytsaurus.Proof.Client.Retry
import Ytsaurus.Proof.Client.Routing
import Ytsaurus.Proof.Client.Call
import Ytsaurus.Proof.Client.Fleet
import Ytsaurus.Client.Batch
import Ytsaurus.Proof.Client.Batch
import Ytsaurus.Proof.Client.Path
import Ytsaurus.Proof.Client.KeepAlive
import Ytsaurus.Client.Stream
import Ytsaurus.Job.Skiff
import Ytsaurus.Proof.Job.Skiff
import Ytsaurus.Proof.Skiff.Refused
import Ytsaurus.Proof.Rpc.Hostile
import Ytsaurus.Proof.Client.Stream
import Ytsaurus.Job.Writer
import Ytsaurus.Proof.Job.Switches
import Ytsaurus.Proof.Client.Authority
import Ytsaurus.Proof.Truncation
import Ytsaurus.Proof.Transparent
import Ytsaurus.Proof.Bus.Division
import Ytsaurus.Proof.Varint
import Ytsaurus.Proof.Rpc.Guid
import Ytsaurus.Proof.Client.Cap
import Ytsaurus.Proof.Client.ErrorReaders
import Ytsaurus.Proof.Rpc.Blocking
import Ytsaurus.Proof.Helpers.Derive
import Ytsaurus.Proof.Formats
import Ytsaurus.Proof.Progress
import Ytsaurus.Proof.Client.SharedCache
import Ytsaurus.Proof.Client.Operation
import Ytsaurus.Proof.Client.TransactionHandle
import Ytsaurus.Proof.Client.HandleThread
import Ytsaurus.Proof.Client.Trace
