import Ytsaurus.Client.Retry
import Ytsaurus.Lib.Text

/-!
# `Client/Transaction.lean` — keeping a transaction alive (`transaction.rs`)

A thread pings the transaction: it waits on a condvar, sends a ping, and waits again, until it is
asked to stop or the cluster says that the transaction is gone. A `Turn` is what the world does
in one turn of that loop; `run` is what the loop sends.
-/

set_option autoImplicit false

namespace Ytsaurus.Client

def secs (seconds : Nat) : Duration := seconds * 1000000000

/-- The transport's two minutes. -/
def defaultTimeout : Duration := secs 120

/-- How often to ping: a third of the timeout, and never more often than once a second. -/
def pingInterval (timeout : Duration) : Duration := max (timeout / 3) (secs 1)

/-- How long the keep-alive waits before its first ping. -/
def firstPingIn (interval spent : Duration) : Duration := interval - spent

/-- One ping request's budget: half the interval, between one second and two minutes. -/
def pingRequestTimeout (interval : Duration) : Duration :=
  min (max (interval / 2) (secs 1)) defaultTimeout

/-- Whether the cluster says the transaction no longer exists. -/
def transactionIsGone : ClientError → Bool
  | .cluster _ code _ raw =>
    decide (code = 11000) || Text.contains "No such transaction".toList raw.toList ||
      Text.contains "has expired or was aborted".toList raw.toList
  | _ => false

namespace KeepAlive

/-- What happens in one turn of the loop. -/
structure Turn where
  /-- A stop is seen before the wait or after it. -/
  stopped : Bool
  /-- The condvar is woken before its timeout, that long after the wait began. -/
  woken : Option Duration
  /-- How long the ping takes, and how it ends. -/
  took : Duration
  answer : Except ClientError Unit

/-- A ping that was sent. -/
structure Ping where
  sent : Nat
  answer : Except ClientError Unit

/-- A `wait_timeout` ends at its timeout, or when the condvar is woken before that. -/
def waited (wait : Duration) (woken : Option Duration) : Duration :=
  match woken with
  | some after => min after wait
  | none => wait

/-- The body of the thread: the pings it sends, and whether it gave up. -/
def run (interval : Duration) (now : Nat) (wait : Duration) : List Turn → List Ping × Bool
  | [] => ([], false)
  | turn :: turns =>
    if turn.stopped then ([], false)
    else
      let sent := now + waited wait turn.woken
      let rest := run interval (sent + turn.took) interval turns
      match turn.answer with
      | .ok () => (⟨sent, .ok ()⟩ :: rest.1, rest.2)
      | .error error =>
        if transactionIsGone error then ([⟨sent, .error error⟩], true)
        else (⟨sent, .error error⟩ :: rest.1, rest.2)

/-- The pings of the transaction with this timeout, from `now` on; `spent` is the time since its
clock may have started. -/
def pings (timeout spent : Duration) (now : Nat) (turns : List Turn) : List Ping :=
  (run (pingInterval timeout) now (firstPingIn (pingInterval timeout) spent) turns).1

end KeepAlive

end Ytsaurus.Client
