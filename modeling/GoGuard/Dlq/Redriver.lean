import GoGuard.Dlq.Wal
import GoGuard.Lib.Parties

/-!
# The redriver over a store

`Redriver` of `dlq` with the `WALStore` it works on.  The dispatch loop leases records and
hands each to a worker; a worker calls the handler and settles its result in the store.
Every access to `active`, `inflight`, the channel and the store is a step of its own, and
the steps of the loop, the workers, the store's own goroutines, other clients of the store
and crashes are interleaved in any order.

The handler, the limiter and the clock are outside the model: a step says what they
returned.  A redriver that is stopped may be started again or be replaced by a new one
while handlers that ignore their context are still at work; `inst` and `run` say which
redriver and which `Run` a worker belongs to.

Kept beside the model: the tokens given out, the LSN of the entry that granted a lease and
the attempts before it, the handler calls made, the calls of a worker that took an attempt
back (`undone`, with the LSN of their entry, while it is in the log) and those of them that
returned nil (`refunds`).  No step but the choice of fresh tokens reads them.
-/

namespace GoGuard
namespace Dlq

open Lib Machine

section Settling

/-- What the redriver reads of `RedriveConfig`. -/
structure RedriveConfig where
  workers : Int
  leaseTTL : Int
  pollInterval : Int
  maxAttempts : Int64
  backoff : Int64 → Int

/-- `NewRedriver`: the defaults. -/
def newRedriver (cfg : RedriveConfig) : RedriveConfig :=
  { cfg with
    workers := if cfg.workers ≤ 0 then 4 else cfg.workers
    leaseTTL := if cfg.leaseTTL ≤ 0 then 60000000000 else cfg.leaseTTL
    pollInterval := if cfg.pollInterval ≤ 0 then 500000000 else cfg.pollInterval
    maxAttempts := if cfg.maxAttempts ≤ 0 then 10 else cfg.maxAttempts }

/-- `capacity`. -/
def RedriveConfig.capacity (cfg : RedriveConfig) : Int :=
  cfg.workers * 2

/-- `Lease`, as far as the redriver reads it, with the attempts before it was granted and
the LSN of its entry. -/
structure Lease where
  id : Bytes
  token : Bytes
  attempts : Int64
  blockedOn : Bytes
  before : Int64
  lsn : Nat
deriving DecidableEq

/-- What `settle` tells apart about the error of a handler: none, a `BlockedError`, an
`OpenError` of a breaker, a permanent one, or another. -/
inductive Outcome where
  | ok
  | blocked (dependency : Bytes) (refund : Bool)
  | opened (name : Bytes)
  | permanent
  | failed
deriving DecidableEq

/-- The store call that settles an attempt, and the dependency that is held when it
succeeds. -/
structure Settlement where
  call : Call
  hold : Option Bytes
deriving DecidableEq

/-- `park`. -/
def parkLease (l : Lease) (reason : Bytes) : Settlement :=
  ⟨.park l.id l.token reason, none⟩

def releaseLease (l : Lease) : Settlement :=
  ⟨.release l.id l.token, none⟩

/-- The reason a record is parked for after its last attempt. -/
def gaveUp (l : Lease) (text : Bytes) : Bytes :=
  str s!"gave up after {l.attempts} attempts: " ++ text

/-- `block`. -/
def block (cfg : RedriveConfig) (l : Lease) (dep : Bytes) (refund : Bool) (text : Bytes) :
    Settlement :=
  if refund = false ∧ l.attempts ≥ cfg.maxAttempts then parkLease l (gaveUp l text)
  else
    ⟨.nack l.id l.token
      { delay :=
          if refund then cfg.pollInterval * 2
          else max (cfg.pollInterval * 2) (cfg.backoff l.attempts)
        err := text
        blockedOn := dep
        refund := refund }, some dep⟩

/-- `settle`.  `ended` says that the context of the run has ended; `text` is the error as
the redactor left it. -/
def settle (cfg : RedriveConfig) (ended : Bool) (l : Lease) (out : Outcome) (text : Bytes) :
    Settlement :=
  match out with
  | .ok => ⟨.ack l.id l.token, none⟩
  | .blocked dep refund => block cfg l (if dep = [] then l.blockedOn else dep) refund text
  | .opened name => block cfg l (if name = [] then l.blockedOn else name) true text
  | .permanent => parkLease l (str "permanent failure: " ++ text)
  | .failed =>
    if ended then releaseLease l
    else if l.attempts ≥ cfg.maxAttempts then parkLease l (gaveUp l text)
    else
      ⟨.nack l.id l.token
        { delay := cfg.backoff l.attempts
          err := text
          blockedOn := []
          refund := false }, none⟩

/-- A record that was leased too often is not given to the handler. -/
def leasedTooOften (cfg : RedriveConfig) (l : Lease) : Bytes :=
  str s!"leased {l.attempts} times without finishing (limit {cfg.maxAttempts}): the handler may be crashing on it"

end Settling

section Model

/-- Where a record that was handed to the workers stands.  Up to `settled` its identifier
is in `active`, up to `cleared` it is counted in `inflight`. -/
inductive JobPhase where
  | queued
  | started
  | running
  | settling (x : Settlement)
  | waiting (x : Settlement) (lsn : Nat)
  | settled
  | cleared
  | gone
deriving DecidableEq

/-- A lease in the hands of a worker, or on its way there. -/
structure Job where
  lease : Lease
  inst : Nat
  run : Nat
  phase : JobPhase
deriving DecidableEq

/-- Where the dispatch loop stands: between two cycles, in a phase of a `Lease` for up to
`n` records, or at a lease of the batch it got. -/
inductive Dispatch where
  | idle
  | selected (n : Nat)
  | committing (n : Nat)
  | waiting (leases : List Lease) (lsn : Nat)
  | handing (leases : List Lease)
  | counting (l : Lease) (rest : List Lease)
  | sending (l : Lease) (rest : List Lease)
  | releasing (l : Lease) (rest : List Lease)
deriving DecidableEq

/-- `Redriver`. -/
structure Redriver where
  stopped : Bool
  active : List Bytes
  inflight : Int
  dispatch : Dispatch
  jobs : List Job
  blockedUntil : GoMap Bytes Time
  inst : Nat
  run : Nat
  used : List Bytes
  called : List (Bytes × Nat)
  undone : List (Bytes × Nat × Nat)
  refunds : List (Bytes × Nat)

/-- No redriver runs yet. -/
def Redriver.initial : Redriver where
  stopped := true
  active := []
  inflight := 0
  dispatch := .idle
  jobs := []
  blockedUntil := .empty
  inst := 0
  run := 0
  used := []
  called := []
  undone := []
  refunds := []

namespace Redriver

/-- `Run` is called, on this redriver or on a new one. -/
def start (r : Redriver) (fresh : Bool) : Redriver :=
  { r with
    stopped := false
    run := r.run + 1
    inst := if fresh then r.inst + 1 else r.inst
    active := if fresh then [] else r.active
    inflight := if fresh then 0 else r.inflight
    blockedUntil := if fresh then .empty else r.blockedUntil }

/-- The process ends, and the log keeps its first entries. -/
def crashed (r : Redriver) (kept : Nat) : Redriver :=
  { Redriver.initial with
    inst := r.inst + 1
    run := r.run + 1
    used := r.used
    called := r.called
    undone := r.undone.filter (·.2.2 ≤ kept)
    refunds := r.refunds }

/-- The context of the run of a job has ended. -/
def ended (r : Redriver) (j : Job) : Bool :=
  r.stopped || j.run ≠ r.run

/-- The dependencies that reported themselves blocked a moment ago. -/
def onHold (r : Redriver) (now : Time) : GoMap Bytes Time :=
  r.blockedUntil.keys.foldl
    (fun m name => if (m.get name).any (· > now) then m else m.del name) r.blockedUntil

/-- `unavailable`: the dependencies not to lease now.  `refusing` are the names whose
breaker refuses. -/
def unavailable (r : Redriver) (now : Time) (refusing : List Bytes) : List Bytes :=
  refusing ++ (r.onHold now).keys.filter (· ∉ refusing)

/-- `holdDependency`. -/
def holdDependency (cfg : RedriveConfig) (r : Redriver) (now : Time) : Option Bytes → Redriver
  | none => r
  | some dep => { r with blockedUntil := r.blockedUntil.set dep (now + cfg.pollInterval * 2) }

/-- The job `i` is at `phase` now. -/
def put (r : Redriver) (i : Nat) (j : Job) (phase : JobPhase) : Redriver :=
  { r with jobs := r.jobs.set i { j with phase := phase } }

/-- The leases in the channel of the run. -/
def queue (r : Redriver) : Nat :=
  r.jobs.countP fun j => j.run = r.run && j.phase = .queued

/-- A worker has the job. -/
def JobPhase.handled : JobPhase → Bool
  | .queued | .gone => false
  | _ => true

/-- The workers of a run that have a job. -/
def busy (r : Redriver) (run : Nat) : Nat :=
  r.jobs.countP fun j => j.run = run && JobPhase.handled j.phase

/-- What `process` does first. -/
def process (cfg : RedriveConfig) (r : Redriver) (j : Job) : JobPhase :=
  if r.ended j then .settling (releaseLease j.lease)
  else if j.lease.attempts > cfg.maxAttempts then
    .settling (parkLease j.lease (leasedTooOften cfg j.lease))
  else .running

/-- The handler is called. -/
def begin (cfg : RedriveConfig) (r : Redriver) (i : Nat) (j : Job) : Redriver :=
  if r.process cfg j = .running then
    { r.put i j .running with called := (j.lease.id, j.lease.lsn) :: r.called }
  else r.put i j (r.process cfg j)

/-- The call takes the attempt of its lease back. -/
def refunded : Call → Bool
  | .release _ _ => true
  | .nack _ _ o => o.refund
  | _ => false

/-- The entry of a job's store call is logged. -/
def await (r : Redriver) (i : Nat) (j : Job) (x : Settlement) (lsn : Nat) : Redriver :=
  { r.put i j (.waiting x lsn) with
    undone :=
      if refunded x.call then (j.lease.id, j.lease.lsn, lsn) :: r.undone else r.undone }

/-- The store call of a job returned nil. -/
def confirm (cfg : RedriveConfig) (r : Redriver) (i : Nat) (j : Job) (x : Settlement)
    (now : Time) : Redriver :=
  { (r.put i j .settled).holdDependency cfg now x.hold with
    refunds :=
      if refunded x.call then (j.lease.id, j.lease.lsn) :: r.refunds else r.refunds }

/-- `active.Delete`. -/
def clear (r : Redriver) (i : Nat) (j : Job) : Redriver :=
  { r.put i j .cleared with
    active := if j.inst = r.inst then r.active.filter (· ≠ j.lease.id) else r.active }

/-- `inflight.Add(-1)`. -/
def lower (r : Redriver) (i : Nat) (j : Job) : Redriver :=
  { r.put i j .gone with
    inflight := if j.inst = r.inst then r.inflight - 1 else r.inflight }

/-- One round of the loop over the leases of a batch, up to the look at `active`. -/
def hand (r : Redriver) : List Lease → Redriver
  | [] => { r with dispatch := .idle }
  | l :: rest =>
    if l.id ∈ r.active then { r with dispatch := .releasing l rest }
    else { r with active := l.id :: r.active, dispatch := .counting l rest }

/-- A lease is sent to the workers. -/
def send (r : Redriver) (l : Lease) (rest : List Lease) : Redriver :=
  { r with
    jobs := r.jobs ++ [⟨l, r.inst, r.run, .queued⟩]
    dispatch := .handing rest }

end Redriver

/-- The leases of a grant. -/
def leasesOf (m m' : Machine) (lsn : Nat) (picked : List (Ptr × Bytes)) : List Lease :=
  picked.filterMap fun x =>
    match m.items.get x.1.id, m'.items.get x.1.id with
    | some old, some it =>
      some ⟨it.record.id, x.2, it.record.attempts, it.record.blockedOn, old.record.attempts, lsn⟩
    | _, _ => none

/-- The tokens are new: `newToken` draws them at random. -/
def freshTokens (used tokens : List Bytes) : Bool :=
  tokens.Nodup && tokens.all fun t => t ≠ [] && t ∉ used

/-- A store and the redriver that works on it. -/
structure Redrive where
  wal : Wal
  r : Redriver

inductive RedriveAct where
  | start (fresh : Bool)
  | stop
  /-- the first phase of `Lease`, when the limiter has granted some -/
  | select (granted : Nat) (ord : List Bytes) (now : Time) (refusing : List Bytes)
  | commit (now : Time) (reads : List ReadResult)
  | giveUp
  | parkBad
  | grant (tokens : List Bytes)
  | done
  | abort
  /-- the wait for the disk ends -/
  | leased
  | unconfirmed
  | hand
  | count
  | send
  | release (now : Time)
  /-- the store fails the call -/
  | unreleased
  | receive (i : Nat)
  | begin (i : Nat)
  | checkpoint (i : Nat) (cp : Option Bytes) (now : Time)
  | returned (i : Nat) (out : Outcome) (text : Bytes)
  | settle (i : Nat) (now : Time)
  /-- the store fails the call -/
  | unsettled (i : Nat)
  | confirmed (i : Nat) (now : Time)
  | failed (i : Nat)
  | clear (i : Nat)
  | lower (i : Nat)
  /-- a call of another client of the store -/
  | client (c : Call) (now : Time)
  /-- a step of the store's own goroutines -/
  | background (a : WalAct)
  | crash (c : Crash)
deriving DecidableEq

/-- The process ends. -/
def RedriveAct.isCrash : RedriveAct → Bool
  | .crash _ => true
  | _ => false

/-- The calls of consumers and operators. -/
def Call.byClient : Call → Bool
  | .append _ | .requeueWith _ _ | .discard _ => true
  | _ => false

/-- The steps of the store's own goroutines. -/
def WalAct.isBackground : WalAct → Bool
  | .capture | .copy | .abandon | .swap | .syncStart | .syncDone | .finish _ => true
  | .core _ | .reopen _ => false

namespace Redrive

/-- A step of the store, and what the redriver makes of it. -/
def onStore (o : WalOptions) (s : Redrive) (a : WalAct) (f : Wal → Redriver) : Option Redrive :=
  (s.wal.step o a).map fun w => ⟨w, f w⟩

/-- A step of the redriver alone. -/
def locally (s : Redrive) (r : Redriver) : Option Redrive :=
  some { s with r := r }

/-- The entry of a step was logged. -/
def logged (s : Redrive) (w : Wal) : Bool :=
  s.wal.nextLSN ≠ w.nextLSN

/-- The redriver behind `grant`. -/
def granted (s : Redrive) (tokens : List Bytes) (w : Wal) : Redriver :=
  if s.logged w then
    { s.r with
      dispatch := .waiting
        (leasesOf s.wal.core.m w.core.m w.log.length
          (((s.wal.core.commit.map Commit.good).getD []).zip tokens)) w.log.length
      used := tokens ++ s.r.used }
  else { s.r with dispatch := .idle }

/-- The redriver behind the store call of a job. -/
def posted (s : Redrive) (i : Nat) (j : Job) (x : Settlement) (w : Wal) : Redriver :=
  if s.logged w then s.r.await i j x w.log.length else s.r.put i j .settled

/-- A step of the dispatch loop. -/
def dispatchStep (o : WalOptions) (cfg : RedriveConfig) (s : Redrive) :
    Dispatch → RedriveAct → Option Redrive
  | .idle, .select granted ord now refusing =>
    if s.r.stopped = false ∧ 0 < granted ∧ (granted : Int) ≤ cfg.capacity - s.r.inflight then
      s.onStore o (.core (.pick ord now
          ⟨[], s.r.unavailable now refusing, granted, cfg.leaseTTL⟩)) fun _ =>
        { s.r with dispatch := .selected granted, blockedUntil := s.r.onHold now }
    else none
  | .selected n, .commit now reads =>
    s.onStore o (.core (.commit 0 now reads)) fun _ => { s.r with dispatch := .committing n }
  | .selected _, .giveUp =>
    s.onStore o (.core (.giveUp 0)) fun _ => { s.r with dispatch := .idle }
  | .committing n, .parkBad =>
    s.onStore o (.core .parkBad) fun w =>
      { s.r with dispatch := if w.core.commit.isSome then .committing n else .idle }
  | .committing _, .grant tokens =>
    if freshTokens s.r.used tokens then
      s.onStore o (.core (.grant tokens)) (s.granted tokens)
    else none
  | .committing _, .done => s.onStore o (.core .done) fun _ => { s.r with dispatch := .idle }
  | .committing _, .abort => s.onStore o (.core .abort) fun _ => { s.r with dispatch := .idle }
  | .waiting leases lsn, .leased =>
    s.onStore o (.finish lsn) fun _ => { s.r with dispatch := .handing leases }
  | .waiting _ _, .unconfirmed => s.locally { s.r with dispatch := .idle }
  | .handing leases, .hand => s.locally (s.r.hand leases)
  | .counting l rest, .count =>
    s.locally { s.r with inflight := s.r.inflight + 1, dispatch := .sending l rest }
  | .sending l rest, .send =>
    if (s.r.queue : Int) < cfg.capacity then s.locally (s.r.send l rest) else none
  | .releasing l rest, .release now =>
    s.onStore o (.core (.call (.release l.id l.token) now)) fun _ =>
      { s.r with dispatch := .handing rest }
  | .releasing _ rest, .unreleased => s.locally { s.r with dispatch := .handing rest }
  | _, _ => none

/-- A step of the worker that has the job `i`. -/
def jobStep (o : WalOptions) (cfg : RedriveConfig) (s : Redrive) (i : Nat) (j : Job) :
    JobPhase → RedriveAct → Option Redrive
  | .queued, .receive _ =>
    if (s.r.busy j.run : Int) < cfg.workers then s.locally (s.r.put i j .started) else none
  | .started, .begin _ => s.locally (s.r.begin cfg i j)
  | .running, .checkpoint _ cp now =>
    s.onStore o (.core (.call (.checkpoint j.lease.id j.lease.token cp) now)) fun _ => s.r
  | .running, .returned _ out text =>
    s.locally (s.r.put i j (.settling (Dlq.settle cfg (s.r.ended j) j.lease out text)))
  | .settling x, .settle _ now =>
    s.onStore o (.core (.call x.call now)) (s.posted i j x)
  | .settling _, .unsettled _ => s.locally (s.r.put i j .settled)
  | .waiting x lsn, .confirmed _ now =>
    s.onStore o (.finish lsn) fun _ => s.r.confirm cfg i j x now
  | .waiting _ _, .failed _ => s.locally (s.r.put i j .settled)
  | .settled, .clear _ => s.locally (s.r.clear i j)
  | .cleared, .lower _ => s.locally (s.r.lower i j)
  | _, _ => none

/-- The job of a worker's step. -/
def jobOf : RedriveAct → Option Nat
  | .receive i | .begin i | .checkpoint i _ _ | .returned i _ _ | .settle i _ | .unsettled i
  | .confirmed i _ | .failed i | .clear i | .lower i => some i
  | _ => none

def step (o : WalOptions) (cfg : RedriveConfig) (s : Redrive) (a : RedriveAct) : Option Redrive :=
  match a with
  | .start fresh =>
    if s.r.stopped = true ∧ s.r.dispatch = .idle then s.locally (s.r.start fresh) else none
  | .stop => s.locally { s.r with stopped := true }
  | .client c now => if c.byClient then s.onStore o (.core (.call c now)) fun _ => s.r else none
  | .background x => if x.isBackground then s.onStore o x fun _ => s.r else none
  | .crash c => s.onStore o (.reopen c) fun w => s.r.crashed w.log.length
  | a =>
    match jobOf a with
    | none => s.dispatchStep o cfg s.r.dispatch a
    | some i =>
      match s.r.jobs[i]? with
      | none => none
      | some j => s.jobStep o cfg i j j.phase a

/-- A store that was just opened, and no redriver yet. -/
def new (w : Wal) : Redrive :=
  ⟨w, .initial⟩

end Redrive

end Model

section Turns

/-- What a step can be. -/
inductive Redrive.Turn (o : WalOptions) (cfg : RedriveConfig) (s : Redrive) :
    RedriveAct → Redrive → Prop
  | started
      {fresh : Bool}
      (hstopped : s.r.stopped = true)
      (hidle : s.r.dispatch = .idle) :
      Turn o cfg s (.start fresh) ⟨s.wal, s.r.start fresh⟩
  | stopped :
      Turn o cfg s .stop ⟨s.wal, { s.r with stopped := true }⟩
  | client
      {c : Call} {now : Time} {w : Wal}
      (hclient : c.byClient = true)
      (hw : s.wal.step o (.core (.call c now)) = some w) :
      Turn o cfg s (.client c now) ⟨w, s.r⟩
  | background
      {x : WalAct} {w : Wal}
      (hback : x.isBackground = true)
      (hw : s.wal.step o x = some w) :
      Turn o cfg s (.background x) ⟨w, s.r⟩
  | crashed
      {c : Crash} {w : Wal}
      (hw : s.wal.step o (.reopen c) = some w) :
      Turn o cfg s (.crash c) ⟨w, s.r.crashed w.log.length⟩
  | selected
      {granted : Nat} {ord refusing : List Bytes} {now : Time} {w : Wal}
      (hat : s.r.dispatch = .idle)
      (hroom : (granted : Int) ≤ cfg.capacity - s.r.inflight)
      (hw : s.wal.step o (.core (.pick ord now
        ⟨[], s.r.unavailable now refusing, granted, cfg.leaseTTL⟩)) = some w) :
      Turn o cfg s (.select granted ord now refusing)
        ⟨w, { s.r with dispatch := .selected granted, blockedUntil := s.r.onHold now }⟩
  | committed
      {n : Nat} {now : Time} {reads : List ReadResult} {w : Wal}
      (hat : s.r.dispatch = .selected n)
      (hw : s.wal.step o (.core (.commit 0 now reads)) = some w) :
      Turn o cfg s (.commit now reads) ⟨w, { s.r with dispatch := .committing n }⟩
  | gaveUp
      {n : Nat} {w : Wal}
      (hat : s.r.dispatch = .selected n)
      (hw : s.wal.step o (.core (.giveUp 0)) = some w) :
      Turn o cfg s .giveUp ⟨w, { s.r with dispatch := .idle }⟩
  | parkedBad
      {n : Nat} {w : Wal}
      (hat : s.r.dispatch = .committing n)
      (hw : s.wal.step o (.core .parkBad) = some w) :
      Turn o cfg s .parkBad
        ⟨w, { s.r with dispatch := if w.core.commit.isSome then .committing n else .idle }⟩
  | granted
      {n : Nat} {tokens : List Bytes} {w : Wal}
      (hat : s.r.dispatch = .committing n)
      (hfresh : freshTokens s.r.used tokens = true)
      (hw : s.wal.step o (.core (.grant tokens)) = some w) :
      Turn o cfg s (.grant tokens) ⟨w, s.granted tokens w⟩
  | closed
      {n : Nat} {a : RedriveAct} {x : CoreAct} {w : Wal}
      (hx : x = .done ∨ x = .abort)
      (hat : s.r.dispatch = .committing n)
      (hw : s.wal.step o (.core x) = some w) :
      Turn o cfg s a ⟨w, { s.r with dispatch := .idle }⟩
  | leased
      {leases : List Lease} {lsn : Nat} {w : Wal}
      (hat : s.r.dispatch = .waiting leases lsn)
      (hw : s.wal.step o (.finish lsn) = some w) :
      Turn o cfg s .leased ⟨w, { s.r with dispatch := .handing leases }⟩
  | unconfirmed
      {leases : List Lease} {lsn : Nat}
      (hat : s.r.dispatch = .waiting leases lsn) :
      Turn o cfg s .unconfirmed ⟨s.wal, { s.r with dispatch := .idle }⟩
  | handed
      {leases : List Lease}
      (hat : s.r.dispatch = .handing leases) :
      Turn o cfg s .hand ⟨s.wal, s.r.hand leases⟩
  | counted
      {l : Lease} {rest : List Lease}
      (hat : s.r.dispatch = .counting l rest) :
      Turn o cfg s .count
        ⟨s.wal, { s.r with inflight := s.r.inflight + 1, dispatch := .sending l rest }⟩
  | sent
      {l : Lease} {rest : List Lease}
      (hat : s.r.dispatch = .sending l rest) :
      Turn o cfg s .send ⟨s.wal, s.r.send l rest⟩
  | released
      {l : Lease} {rest : List Lease} {now : Time} {w : Wal}
      (hat : s.r.dispatch = .releasing l rest)
      (hw : s.wal.step o (.core (.call (.release l.id l.token) now)) = some w) :
      Turn o cfg s (.release now) ⟨w, { s.r with dispatch := .handing rest }⟩
  | unreleased
      {l : Lease} {rest : List Lease}
      (hat : s.r.dispatch = .releasing l rest) :
      Turn o cfg s .unreleased ⟨s.wal, { s.r with dispatch := .handing rest }⟩
  | received
      {i : Nat} {j : Job}
      (hj : s.r.jobs[i]? = some j)
      (hat : j.phase = .queued) :
      Turn o cfg s (.receive i) ⟨s.wal, s.r.put i j .started⟩
  | begun
      {i : Nat} {j : Job}
      (hj : s.r.jobs[i]? = some j)
      (hat : j.phase = .started) :
      Turn o cfg s (.begin i) ⟨s.wal, s.r.begin cfg i j⟩
  | checkpointed
      {i : Nat} {j : Job} {cp : Option Bytes} {now : Time} {w : Wal}
      (hj : s.r.jobs[i]? = some j)
      (hat : j.phase = .running)
      (hw : s.wal.step o (.core (.call (.checkpoint j.lease.id j.lease.token cp) now)) =
        some w) :
      Turn o cfg s (.checkpoint i cp now) ⟨w, s.r⟩
  | returned
      {i : Nat} {j : Job} {out : Outcome} {text : Bytes}
      (hj : s.r.jobs[i]? = some j)
      (hat : j.phase = .running) :
      Turn o cfg s (.returned i out text)
        ⟨s.wal, s.r.put i j (.settling (Dlq.settle cfg (s.r.ended j) j.lease out text))⟩
  | settled
      {i : Nat} {j : Job} {x : Settlement} {now : Time} {w : Wal}
      (hj : s.r.jobs[i]? = some j)
      (hat : j.phase = .settling x)
      (hw : s.wal.step o (.core (.call x.call now)) = some w) :
      Turn o cfg s (.settle i now)
        ⟨w, s.posted i j x w⟩
  | unsettled
      {i : Nat} {j : Job} {x : Settlement}
      (hj : s.r.jobs[i]? = some j)
      (hat : j.phase = .settling x) :
      Turn o cfg s (.unsettled i) ⟨s.wal, s.r.put i j .settled⟩
  | confirmed
      {i lsn : Nat} {j : Job} {x : Settlement} {now : Time} {w : Wal}
      (hj : s.r.jobs[i]? = some j)
      (hat : j.phase = .waiting x lsn)
      (hw : s.wal.step o (.finish lsn) = some w) :
      Turn o cfg s (.confirmed i now) ⟨w, s.r.confirm cfg i j x now⟩
  | failed
      {i lsn : Nat} {j : Job} {x : Settlement}
      (hj : s.r.jobs[i]? = some j)
      (hat : j.phase = .waiting x lsn) :
      Turn o cfg s (.failed i) ⟨s.wal, s.r.put i j .settled⟩
  | cleared
      {i : Nat} {j : Job}
      (hj : s.r.jobs[i]? = some j)
      (hat : j.phase = .settled) :
      Turn o cfg s (.clear i) ⟨s.wal, s.r.clear i j⟩
  | lowered
      {i : Nat} {j : Job}
      (hj : s.r.jobs[i]? = some j)
      (hat : j.phase = .cleared) :
      Turn o cfg s (.lower i) ⟨s.wal, s.r.lower i j⟩

variable {o : WalOptions} {cfg : RedriveConfig} {s s' : Redrive} {a : RedriveAct}

theorem onStore_eq_some {x : WalAct} {f : Wal → Redriver} (h : s.onStore o x f = some s') :
    ∃ w, s.wal.step o x = some w ∧ s' = ⟨w, f w⟩ := by
  obtain ⟨w, hw, rfl⟩ := Option.map_eq_some_iff.mp h
  exact ⟨w, hw, rfl⟩

theorem Redrive.turn_of_dispatch (h : s.dispatchStep o cfg s.r.dispatch a = some s') :
    s.Turn o cfg a s' := by
  generalize hat : s.r.dispatch = d at h
  unfold Redrive.dispatchStep at h
  split at h
  · obtain ⟨hguard, h⟩ := of_when h
    obtain ⟨w, hw, rfl⟩ := onStore_eq_some h
    exact .selected hat hguard.2.2 hw
  · obtain ⟨w, hw, rfl⟩ := onStore_eq_some h
    exact .committed hat hw
  · obtain ⟨w, hw, rfl⟩ := onStore_eq_some h
    exact .gaveUp hat hw
  · obtain ⟨w, hw, rfl⟩ := onStore_eq_some h
    exact .parkedBad hat hw
  · obtain ⟨hfresh, h⟩ := of_when h
    obtain ⟨w, hw, rfl⟩ := onStore_eq_some h
    exact .granted hat hfresh hw
  · obtain ⟨w, hw, rfl⟩ := onStore_eq_some h
    exact .closed (Or.inl rfl) hat hw
  · obtain ⟨w, hw, rfl⟩ := onStore_eq_some h
    exact .closed (Or.inr rfl) hat hw
  · obtain ⟨w, hw, rfl⟩ := onStore_eq_some h
    exact .leased hat hw
  · cases h
    exact .unconfirmed hat
  · cases h
    exact .handed hat
  · cases h
    exact .counted hat
  · obtain ⟨-, rfl⟩ := of_guard h
    exact .sent hat
  · obtain ⟨w, hw, rfl⟩ := onStore_eq_some h
    exact .released hat hw
  · cases h
    exact .unreleased hat
  · cases h

theorem Redrive.turn_of_job {i : Nat} {j : Job} (hi : jobOf a = some i) (hj : s.r.jobs[i]? = some j)
    (h : s.jobStep o cfg i j j.phase a = some s') : s.Turn o cfg a s' := by
  generalize hat : j.phase = phase at h
  unfold Redrive.jobStep at h
  split at h
  · cases hi
    obtain ⟨-, rfl⟩ := of_guard h
    exact .received hj hat
  · cases hi
    cases h
    exact .begun hj hat
  · cases hi
    obtain ⟨w, hw, rfl⟩ := onStore_eq_some h
    exact .checkpointed hj hat hw
  · cases hi
    cases h
    exact .returned hj hat
  · cases hi
    obtain ⟨w, hw, rfl⟩ := onStore_eq_some h
    exact .settled hj hat hw
  · cases hi
    cases h
    exact .unsettled hj hat
  · cases hi
    obtain ⟨w, hw, rfl⟩ := onStore_eq_some h
    exact .confirmed hj hat hw
  · cases hi
    cases h
    exact .failed hj hat
  · cases hi
    cases h
    exact .cleared hj hat
  · cases hi
    cases h
    exact .lowered hj hat
  · cases h

theorem Redrive.turn_of_step (h : s.step o cfg a = some s') : s.Turn o cfg a s' := by
  unfold Redrive.step at h
  split at h
  · obtain ⟨hguard, rfl⟩ := of_guard h
    exact .started hguard.1 hguard.2
  · cases h
    exact .stopped
  · obtain ⟨hclient, h⟩ := of_when h
    obtain ⟨w, hw, rfl⟩ := onStore_eq_some h
    exact .client hclient hw
  · obtain ⟨hback, h⟩ := of_when h
    obtain ⟨w, hw, rfl⟩ := onStore_eq_some h
    exact .background hback hw
  · obtain ⟨w, hw, rfl⟩ := onStore_eq_some h
    exact .crashed hw
  · split at h
    · exact Redrive.turn_of_dispatch h
    · next i hi =>
      split at h
      · cases h
      · next j hj => exact Redrive.turn_of_job hi hj h

end Turns

end Dlq
end GoGuard
