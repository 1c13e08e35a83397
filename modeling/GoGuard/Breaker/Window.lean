import Mathlib.Data.List.Basic
import Mathlib.Logic.Function.Iterate

/-!
# The rolling window of a breaker

`RollingWindow` of package `engine`: a ring of buckets with running totals, turned by
the clock of whoever records or reads.  Times are unix nanoseconds; the counters are
unbounded where the source has `int64`.
-/

namespace GoGuard
namespace Breaker

/-- `bucket`. -/
structure Bucket where
  success : Int
  failure : Int
  totalLatency : Int
  retryCount : Int
deriving DecidableEq

/-- `bucket{}`. -/
def Bucket.zero : Bucket :=
  ⟨0, 0, 0, 0⟩

/-- `RollingWindow`. -/
structure RollingWindow where
  buckets : List Bucket
  lastUpdate : Int
  totalSuccess : Int
  totalFailure : Int
  totalLatency : Int
  totalRetries : Int
  bucketDuration : Int
  head : Nat
deriving DecidableEq

/-- `NewRollingWindow`. -/
def newRollingWindow (window bucketDuration now : Int) : RollingWindow where
  buckets :=
    List.replicate (if window.tdiv bucketDuration = 0 then 1
      else (window.tdiv bucketDuration).toNat) Bucket.zero
  lastUpdate := now
  totalSuccess := 0
  totalFailure := 0
  totalLatency := 0
  totalRetries := 0
  bucketDuration := bucketDuration
  head := 0

namespace RollingWindow

/-- The bucket that is written to. -/
def current (w : RollingWindow) : Bucket :=
  w.buckets.getD w.head .zero

/-- One round of the loop of `rotate`: the oldest bucket becomes the newest. -/
def clearNext (w : RollingWindow) : RollingWindow :=
  let next := (w.head + 1) % w.buckets.length
  let b := w.buckets.getD next .zero
  { w with
    head := next
    totalSuccess := w.totalSuccess - b.success
    totalFailure := w.totalFailure - b.failure
    totalLatency := w.totalLatency - b.totalLatency
    totalRetries := w.totalRetries - b.retryCount
    buckets := w.buckets.set next .zero }

/-- How many buckets have passed. -/
def passed (w : RollingWindow) (now : Int) : Int :=
  (now - w.lastUpdate).tdiv w.bucketDuration

/-- `rotate`: the clock moves on by whole buckets. -/
def rotate (w : RollingWindow) (now : Int) : RollingWindow :=
  if now - w.lastUpdate < w.bucketDuration then w
  else
    { clearNext^[min (w.passed now).toNat w.buckets.length] w with
      lastUpdate := w.lastUpdate + w.passed now * w.bucketDuration }

/-- `Reset`. -/
def reset (w : RollingWindow) (now : Int) : RollingWindow :=
  { w with
    buckets := w.buckets.map fun _ => .zero
    totalSuccess := 0
    totalFailure := 0
    totalLatency := 0
    totalRetries := 0
    head := 0
    lastUpdate := now }

/-- A change of the bucket that is written to. -/
def record (w : RollingWindow) (f : Bucket → Bucket) : RollingWindow :=
  { w with buckets := w.buckets.set w.head (f w.current) }

/-- `Success`. -/
def success (w : RollingWindow) (now latencyUs : Int) : RollingWindow :=
  let w := w.rotate now
  let w := { w.record fun b => { b with success := b.success + 1 } with
    totalSuccess := w.totalSuccess + 1 }
  if latencyUs > 0 then
    { w.record fun b => { b with totalLatency := b.totalLatency + latencyUs } with
      totalLatency := w.totalLatency + latencyUs }
  else w

/-- `Failure`. -/
def failure (w : RollingWindow) (now : Int) : RollingWindow :=
  let w := w.rotate now
  { w.record fun b => { b with failure := b.failure + 1 } with
    totalFailure := w.totalFailure + 1 }

/-- `Counts`: the window behind the reading, and the totals. -/
def counts (w : RollingWindow) (now : Int) : RollingWindow × Int × Int :=
  let w := if now - w.lastUpdate > w.bucketDuration then w.rotate now else w
  (w, w.totalSuccess, w.totalFailure)

/-- `FailureRateBps`: the window behind the reading, and the rate in basis points. -/
def failureRateBps (w : RollingWindow) (now : Int) : RollingWindow × Int :=
  let w := w.rotate now
  (w, if w.totalSuccess + w.totalFailure ≤ 0 then 0
    else (w.totalFailure * 10000).tdiv (w.totalSuccess + w.totalFailure))

end RollingWindow

end Breaker
end GoGuard
