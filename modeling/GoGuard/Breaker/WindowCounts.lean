import GoGuard.Breaker.Circuit
import Mathlib.Algebra.Order.Monoid.Prod
import Mathlib.Algebra.Order.BigOperators.Group.List
import Mathlib.Data.List.Rotate
import Mathlib.Tactic

/-!
# What the rolling window counts

The ring of buckets against a count over the history.  Read from the newest bucket to the
oldest, the first `i` buckets together hold the events of the last `i` bucket times
(`Keeps`): a rotation puts an empty bucket in front and drops the last one, an event goes
into the first.  So the totals are the events of the last `N` bucket times, and a failure
trips a closed circuit exactly at the threshold.  Readers that do not turn the window see
what was there at the last operation.
-/

namespace GoGuard
namespace Breaker

open List

section Readers

/-- Successes, failures, latency and retries. -/
abbrev Counters := Int × Int × Int × Int

def Bucket.counters (b : Bucket) : Counters :=
  (b.success, b.failure, b.totalLatency, b.retryCount)

namespace RollingWindow

def totals (w : RollingWindow) : Counters :=
  (w.totalSuccess, w.totalFailure, w.totalLatency, w.totalRetries)

/-- `RecordRetry`. -/
def recordRetry (w : RollingWindow) (now : Int) : RollingWindow :=
  let w := w.rotate now
  { w.record fun b => { b with retryCount := b.retryCount + 1 } with
    totalRetries := w.totalRetries + 1 }

/-- `RetryRateBps`. -/
def retryRateBps (w : RollingWindow) : Int :=
  if w.totalSuccess + w.totalFailure + w.totalRetries ≤ 0 then 0
  else (w.totalRetries * 10000).tdiv (w.totalSuccess + w.totalFailure + w.totalRetries)

/-- `AvgLatencyUs`. -/
def avgLatencyUs (w : RollingWindow) : Int :=
  if w.totalSuccess ≤ 0 then 0 else w.totalLatency.tdiv w.totalSuccess

end RollingWindow

/-- `CanRetry`. -/
def Circuit.canRetry (retryBudgetBps : Int) (b : Circuit) : Bool :=
  retryBudgetBps ≤ 0 || b.metrics.retryRateBps < retryBudgetBps

/-- What is done to a window. -/
inductive WindowOp where
  | success (latencyUs : Int)
  | failure
  | recordRetry
  | reset
deriving DecidableEq

def RollingWindow.apply (w : RollingWindow) : Int × WindowOp → RollingWindow
  | (now, .success latencyUs) => w.success now latencyUs
  | (now, .failure) => w.failure now
  | (now, .recordRetry) => w.recordRetry now
  | (now, .reset) => w.reset now

/-- What an operation adds to the counters. -/
def WindowOp.counters : WindowOp → Counters
  | .success latencyUs => (1, 0, max latencyUs 0, 0)
  | .failure => (0, 1, 0, 0)
  | .recordRetry => (0, 0, 0, 1)
  | .reset => 0

/-- An operation in the history since the last Reset. -/
def note (g : Int × List (Int × WindowOp)) (x : Int × WindowOp) : Int × List (Int × WindowOp) :=
  if x.2 = .reset then (x.1, []) else (g.1, g.2 ++ [x])

/-- The time of the creation or of the last Reset, and the events since. -/
def sinceReset (t₀ : Int) (ops : List (Int × WindowOp)) : Int × List (Int × WindowOp) :=
  ops.foldl note (t₀, [])

def lastTime (t₀ : Int) (ops : List (Int × WindowOp)) : Int :=
  ops.foldl (fun _ x => x.1) t₀

/-- The events whose bucket time, counted from `start`, is greater than `k`. -/
def since (d start k : Int) (events : List (Int × WindowOp)) : Counters :=
  ((events.filter fun e => k < (e.1 - start) / d).map fun e => e.2.counters).sum

/-- The events of the last `n` bucket times at `t`. -/
def recent (d : Int) (n : Nat) (start t : Int) (events : List (Int × WindowOp)) : Counters :=
  since d start ((t - start) / d - n) events

end Readers

section Ring

variable {w w' : RollingWindow}

/-- The buckets from the newest to the oldest. -/
def RollingWindow.cells (w : RollingWindow) : List Bucket :=
  (w.buckets.rotate (w.head + 1)).reverse

theorem cells_split {A B : List Bucket} {x : Bucket} (hb : w.buckets = A ++ x :: B)
    (hA : A.length = w.head) : w.cells = x :: (B ++ A).reverse := by
  have hlen : w.head + 1 = (A ++ [x]).length := by rw [length_append, hA, length_singleton]
  have hb' : w.buckets = (A ++ [x]) ++ B := by rw [hb, append_assoc, singleton_append]
  rw [RollingWindow.cells, hb', hlen, rotate_append_length_eq]
  simp

theorem cells_set (h : w.head < w.buckets.length) (y : Bucket) (hhead : w'.head = w.head)
    (hset : w'.buckets = w.buckets.set w.head y) :
    ∃ rest, w.cells = w.current :: rest ∧ w'.cells = y :: rest := by
  obtain ⟨A, B, hb, hA, hy⟩ := @exists_of_set _ _ y _ h
  have hcur : w.current = w.buckets[w.head] := by simp [RollingWindow.current, h]
  exact ⟨_, hcur ▸ cells_split hb hA, cells_split (hset.trans hy) (hA.trans hhead.symm)⟩

/-- One round of a rotation: an empty bucket in front, and the last one is gone. -/
theorem cells_clearNext (h : w.head < w.buckets.length) :
    ∃ rest b, w.cells = rest ++ [b] ∧ w.clearNext.cells = .zero :: rest ∧
      w.clearNext.totals = w.totals - b.counters ∧
        w.clearNext.head < w.clearNext.buckets.length := by
  have hnext : w.clearNext.head < w.buckets.length := Nat.mod_lt _ (Nat.zero_lt_of_lt h)
  obtain ⟨A, B, hb, hA, hset⟩ := @exists_of_set _ _ .zero _ hnext
  generalize hlast : w.buckets[w.clearNext.head] = b at hb
  refine ⟨(B ++ A).reverse, b, ?_, cells_split hset hA, ?_, ?_⟩
  · rw [RollingWindow.cells, ← rotate_mod]
    change (w.buckets.rotate w.clearNext.head).reverse = _
    rw [← hA, hb, rotate_append_length_eq]
    simp
  · have hdropped : w.buckets.getD w.clearNext.head .zero = b := by simp [hnext, hlast]
    rw [← hdropped]
    rfl
  · exact hnext.trans_eq (length_set ..).symm

theorem length_cells (w : RollingWindow) : w.cells.length = w.buckets.length := by
  rw [RollingWindow.cells, length_reverse, length_rotate]

end Ring

section Keeping

variable {w w' : RollingWindow} {d start k a now : Int} {n : Nat} {events : List (Int × WindowOp)}

/-- The window of `n` buckets holds the events since `start`, at bucket time `k`. -/
structure Keeps (d : Int) (n : Nat) (start k : Int) (events : List (Int × WindowOp))
    (w : RollingWindow) : Prop where
  size : w.buckets.length = n
  duration : w.bucketDuration = d
  head : w.head < n
  past : ∀ e ∈ events, (e.1 - start) / d ≤ k
  sums : ∀ i ≤ n, ((w.cells.take i).map Bucket.counters).sum = since d start (k - i) events
  totals : w.totals = (w.cells.map Bucket.counters).sum

theorem since_eq_zero (hpast : ∀ e ∈ events, (e.1 - start) / d ≤ k) (hle : k ≤ a) :
    since d start a events = 0 := by
  have hnone : (events.filter fun e => a < (e.1 - start) / d) = [] := by
    refine filter_eq_nil_iff.mpr fun e he => ?_
    have hk := hpast e he
    simp only [decide_eq_true_eq]
    omega
  rw [since, hnone]
  rfl

theorem Keeps.clearNext (h : Keeps d n start k events w) :
    Keeps d n start (k + 1) events w.clearNext := by
  obtain ⟨rest, b, hcells, hnew, htotals, hlt⟩ := cells_clearNext (h.size ▸ h.head)
  have hsize : w.clearNext.buckets.length = n := (length_set ..).trans h.size
  have hrest : rest.length + 1 = n := by rw [← hsize, ← length_cells, hnew, length_cons]
  refine ⟨hsize, h.duration, hsize ▸ hlt, fun e he => (h.past e he).trans (by omega), ?_, ?_⟩
  · intro i hi
    cases i with
    | zero =>
      rw [since_eq_zero h.past (by omega)]
      rfl
    | succ i =>
      have hsum := h.sums i (by omega)
      have hshift : k + 1 - ((i + 1 : Nat) : Int) = k - i := by omega
      rw [hcells, take_append_of_le_length (by omega)] at hsum
      rw [hnew, take_succ_cons, map_cons, sum_cons, hsum, hshift]
      exact zero_add _
  · rw [htotals, h.totals, hcells, hnew, map_append, sum_append, map_singleton, sum_singleton,
      add_sub_cancel_right, map_cons, sum_cons]
    exact (zero_add _).symm

theorem Keeps.iterate (h : Keeps d n start k events w) (m : Nat) :
    Keeps d n start (k + m) events (RollingWindow.clearNext^[m] w) := by
  induction m generalizing w k with
  | zero => simpa using h
  | succ m ih =>
    rw [Nat.cast_succ, add_comm (m : Int) 1, ← add_assoc]
    exact ih h.clearNext

/-- The window is turned to a later time. -/
theorem Keeps.rotate (hd : 0 < d) (h : Keeps d n start k events w)
    (hlast : w.lastUpdate = start + k * d) (hnow : w.lastUpdate ≤ now) :
    Keeps d n start ((now - start) / d) events (w.rotate now) ∧
      (w.rotate now).lastUpdate = start + (now - start) / d * d := by
  have hpassed : w.passed now = (now - w.lastUpdate) / d := by
    rw [RollingWindow.passed, h.duration, Int.tdiv_eq_ediv_of_nonneg (by omega)]
  have hk : (now - start) / d = k + w.passed now := by
    rw [hpassed, hlast, ← sub_sub, Int.sub_mul_ediv_right _ _ hd.ne']
    omega
  have hpos : 0 ≤ w.passed now := hpassed ▸ Int.ediv_nonneg (by omega) hd.le
  unfold RollingWindow.rotate
  split
  · next hsmall =>
    have hzero : w.passed now = 0 := by
      rw [hpassed]
      exact Int.ediv_eq_zero_of_lt (by omega) (h.duration ▸ hsmall)
    rw [hk, hzero, add_zero]
    exact ⟨h, hlast⟩
  · obtain ⟨hsize, hduration, hhead, hpast, hsums, htotals⟩ :=
      h.iterate (min (w.passed now).toNat w.buckets.length)
    refine ⟨⟨hsize, hduration, hhead, fun e he => (h.past e he).trans (by omega), ?_, htotals⟩, ?_⟩
    · intro i hi
      refine (hsums i hi).trans ?_
      rcases le_total (w.passed now).toNat w.buckets.length with hfew | hmany
      · rw [min_eq_left hfew, Int.toNat_of_nonneg hpos, hk]
      · -- after a gap as long as the window nothing is left of it
        have hn := h.size
        rw [since_eq_zero h.past (by omega), since_eq_zero h.past (by omega)]
    · change w.lastUpdate + w.passed now * w.bucketDuration = _
      rw [hk, hlast, h.duration]
      ring

theorem Keeps.put {y : Bucket} {op : WindowOp}
    (h : Keeps d n start ((now - start) / d) events w) (hhead : w'.head = w.head)
    (hset : w'.buckets = w.buckets.set w.head y)
    (hy : y.counters = w.current.counters + op.counters)
    (htotals : w'.totals = w.totals + op.counters)
    (hduration : w'.bucketDuration = w.bucketDuration) :
    Keeps d n start ((now - start) / d) (events ++ [(now, op)]) w' := by
  obtain ⟨rest, hcells, hnew⟩ := cells_set (h.size ▸ h.head) y hhead hset
  have hpast : ∀ e ∈ events ++ [(now, op)], (e.1 - start) / d ≤ (now - start) / d := by
    intro e he
    rcases mem_append.mp he with he | he
    · exact h.past e he
    · rw [mem_singleton.mp he]
  refine ⟨?_, hduration.trans h.duration, hhead ▸ h.head, hpast, ?_, ?_⟩
  · rw [hset, length_set]
    exact h.size
  · intro i hi
    cases i with
    | zero =>
      rw [since_eq_zero hpast (by omega)]
      rfl
    | succ i =>
      have hsum := h.sums (i + 1) hi
      rw [hcells, take_succ_cons, map_cons, sum_cons] at hsum
      rw [hnew, take_succ_cons, map_cons, sum_cons, hy, add_right_comm, hsum, since, since,
        filter_append, filter_cons_of_pos (by simp)]
      simp
  · rw [htotals, h.totals, hcells, hnew, map_cons, map_cons, sum_cons, sum_cons, hy,
      add_right_comm]

theorem keeps_empty (hn : 0 < n) (hhead : w.head = 0) (hbuckets : w.buckets = replicate n .zero)
    (htotals : w.totals = 0) (hduration : w.bucketDuration = d) : Keeps d n start 0 [] w := by
  have hcells : w.cells = replicate n .zero := by
    rw [RollingWindow.cells, hbuckets, rotate_replicate, reverse_replicate]
  refine ⟨by rw [hbuckets, length_replicate], hduration, hhead ▸ hn, fun _ he => (nomatch he),
    fun i _ => ?_, ?_⟩
  · rw [hcells, take_replicate, map_replicate, sum_replicate]
    exact smul_zero _
  · rw [htotals, hcells, map_replicate, sum_replicate]
    exact (smul_zero _).symm

end Keeping

section History

variable {w : RollingWindow} {d start t now : Int} {n : Nat} {events : List (Int × WindowOp)}

/-- The window as it is after an operation at time `t`. -/
structure At (d : Int) (n : Nat) (start t : Int) (events : List (Int × WindowOp))
    (w : RollingWindow) : Prop where
  keeps : Keeps d n start ((t - start) / d) events w
  last : w.lastUpdate = start + (t - start) / d * d

theorem At.lastUpdate_le (hd : 0 < d) (h : At d n start t events w) :
    w.lastUpdate ≤ t ∧ t < w.lastUpdate + d := by
  have hmod := Int.emod_add_mul_ediv (t - start) d
  have hlow := Int.emod_nonneg (t - start) hd.ne'
  have hhigh := Int.emod_lt_of_pos (t - start) hd
  rw [h.last, mul_comm]
  omega

theorem At.rotate (hd : 0 < d) (h : At d n start t events w) (hnow : t ≤ now) :
    At d n start now events (w.rotate now) :=
  have hrotate := h.keeps.rotate hd h.last ((h.lastUpdate_le hd).1.trans hnow)
  ⟨hrotate.1, hrotate.2⟩

theorem At.totals (h : At d n start t events w) :
    w.totals = (w.buckets.map Bucket.counters).sum ∧ w.totals = recent d n start t events := by
  have hall := h.keeps.sums n (le_refl n)
  rw [take_of_length_le (by rw [length_cells, h.keeps.size]), ← h.keeps.totals] at hall
  refine ⟨h.keeps.totals.trans ?_, hall⟩
  exact (((reverse_perm _).trans (rotate_perm _ _)).map _).sum_eq

theorem At.apply {op : WindowOp} (hd : 0 < d) (h : At d n start t events w) (hnow : t ≤ now)
    (hop : op ≠ .reset) : At d n start now (events ++ [(now, op)]) (w.apply (now, op)) := by
  obtain ⟨hr, hlast⟩ := h.rotate hd hnow
  have hin : (w.rotate now).head < (w.rotate now).buckets.length := hr.size ▸ hr.head
  cases op with
  | reset => exact absurd rfl hop
  | failure =>
    refine ⟨hr.put rfl rfl ?_ ?_ rfl, hlast⟩ <;>
      simp [Bucket.counters, WindowOp.counters, RollingWindow.totals, RollingWindow.record,
        RollingWindow.apply, RollingWindow.failure]
  | recordRetry =>
    refine ⟨hr.put rfl rfl ?_ ?_ rfl, hlast⟩ <;>
      simp [Bucket.counters, WindowOp.counters, RollingWindow.totals, RollingWindow.record,
        RollingWindow.apply, RollingWindow.recordRetry]
  | success latencyUs =>
    simp only [RollingWindow.apply, RollingWindow.success]
    split
    · next hpos =>
      refine ⟨hr.put (y := { (w.rotate now).current with
        success := (w.rotate now).current.success + 1
        totalLatency := (w.rotate now).current.totalLatency + latencyUs }) rfl ?_ ?_ ?_ rfl,
        hlast⟩ <;>
      simp [Bucket.counters, WindowOp.counters, RollingWindow.totals, RollingWindow.record,
        RollingWindow.current, hin, max_eq_left hpos.le]
    · next hneg =>
      refine ⟨hr.put rfl rfl ?_ ?_ rfl, hlast⟩ <;>
        simp [Bucket.counters, WindowOp.counters, RollingWindow.totals, RollingWindow.record,
          max_eq_right (not_lt.mp hneg)]

theorem At.after {g : Int × List (Int × WindowOp)} {ops : List (Int × WindowOp)} (hd : 0 < d)
    (hn : 0 < n) (h : At d n g.1 t g.2 w) (hsorted : (t :: ops.map Prod.fst).Pairwise (· ≤ ·)) :
    At d n (ops.foldl note g).1 (lastTime t ops) (ops.foldl note g).2
      (ops.foldl RollingWindow.apply w) := by
  induction ops generalizing w g t with
  | nil => exact h
  | cons x ops ih =>
    obtain ⟨now, op⟩ := x
    obtain ⟨hle, hrest⟩ := pairwise_cons.mp hsorted
    refine ih ?_ hrest
    by_cases hop : op = .reset
    · subst hop
      have hbuckets : (w.reset now).buckets = replicate n .zero := by
        rw [← h.keeps.size]
        exact map_const' ..
      have hreset : Keeps d n now 0 [] (w.reset now) :=
        keeps_empty hn rfl hbuckets rfl h.keeps.duration
      exact ⟨by simpa [note, RollingWindow.apply] using hreset,
        by simp [note, RollingWindow.apply, RollingWindow.reset]⟩
    · have hnote : note g (now, op) = (g.1, g.2 ++ [(now, op)]) := if_neg hop
      rw [hnote]
      exact h.apply hd (hle now mem_cons_self) hop

theorem at_new {window t₀ : Int} {ops : List (Int × WindowOp)} (hd : 0 < d)
    (hn : 0 < (newRollingWindow window d t₀).buckets.length)
    (hsorted : (t₀ :: ops.map Prod.fst).Pairwise (· ≤ ·)) :
    At d (newRollingWindow window d t₀).buckets.length (sinceReset t₀ ops).1 (lastTime t₀ ops)
      (sinceReset t₀ ops).2 (ops.foldl RollingWindow.apply (newRollingWindow window d t₀)) := by
  have hempty : Keeps d (newRollingWindow window d t₀).buckets.length t₀ 0 []
      (newRollingWindow window d t₀) :=
    keeps_empty hn rfl (by simp [newRollingWindow]) rfl rfl
  refine At.after (g := (t₀, [])) hd hn ⟨by simpa using hempty, ?_⟩ hsorted
  simp [newRollingWindow]

end History

section Results

variable {d start now : Int} {n : Nat} {events : List (Int × WindowOp)}

/-- There are enough outcomes, and enough of them are failures. -/
def Config.Trips (cfg : Config) (c : Counters) : Prop :=
  (0 < cfg.minSamples → cfg.minSamples ≤ c.1 + c.2.1) ∧
    cfg.failureThreshold ≤ 10000 * c.2.1 / (c.1 + c.2.1)

theorem failure_counted (d start now : Int) (events : List (Int × WindowOp)) (hn : 0 < n) :
    0 ≤ (recent d n start now (events ++ [(now, .failure)])).1 ∧
      0 < (recent d n start now (events ++ [(now, .failure)])).2.1 := by
  have hnonneg : 0 ≤ recent d n start now events := by
    refine sum_nonneg fun v hv => ?_
    obtain ⟨e, -, rfl⟩ := mem_map.mp hv
    cases e.2 <;> simp [WindowOp.counters, Prod.le_def]
  have hadd : recent d n start now (events ++ [(now, .failure)]) =
      recent d n start now events + (0, 1, 0, 0) := by
    rw [recent, recent, since, since, filter_append, filter_cons_of_pos (by simpa using hn)]
    simp [WindowOp.counters]
  rw [hadd]
  simp only [Prod.le_def, Prod.fst_zero, Prod.snd_zero, Prod.fst_add, Prod.snd_add] at hnonneg ⊢
  omega

/-- The failure of a closed circuit. -/
theorem recordFailure_open {cfg : Config} {b : Circuit} (hd : 0 < d) (hn : 0 < n)
    (h : At d n start now (events ++ [(now, .failure)]) (b.metrics.failure now))
    (hclosed : b.state = .stateClosed) :
    (b.recordFailure cfg now).state = .stateOpen ↔
      cfg.Trips (recent d n start now (events ++ [(now, .failure)])) := by
  have hfresh := (h.lastUpdate_le hd).2
  rw [← h.keeps.duration] at hfresh
  have hsome := failure_counted d start now events hn
  rw [← h.totals.2] at hsome ⊢
  -- the window was just turned, so neither reading turns it again
  have hcounts : (b.metrics.failure now).counts now =
      (b.metrics.failure now, (b.metrics.failure now).totals.1,
        (b.metrics.failure now).totals.2.1) := by
    rw [RollingWindow.counts, if_neg (by omega)]
    rfl
  have hrate : (b.metrics.failure now).failureRateBps now =
      (b.metrics.failure now, 10000 * (b.metrics.failure now).totals.2.1 /
        ((b.metrics.failure now).totals.1 + (b.metrics.failure now).totals.2.1)) := by
    rw [RollingWindow.failureRateBps, RollingWindow.rotate, if_pos (by omega), mul_comm,
      ← Int.tdiv_eq_ediv_of_nonneg (by omega)]
    exact congrArg _ (if_neg (by simp only [RollingWindow.totals] at hsome; omega))
  simp only [Circuit.recordFailure, Circuit.transition, hclosed, hcounts, hrate, Config.Trips,
    reduceCtorEq, if_false, if_true]
  split
  · simp only [reduceCtorEq, false_iff]
    omega
  · split
    · next hhigh => exact iff_of_true rfl ⟨by omega, hhigh⟩
    · next hlow => exact iff_of_false (by rintro ⟨⟩) fun h => hlow h.2

end Results

end Breaker
end GoGuard
