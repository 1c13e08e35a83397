import GoGuard.Dlq.Record
import GoGuard.Lib.GoMap

/-!
# The state of a Kafka consumer and its operations

The part of `Consumer` that decides what runs, in which order, and which offset
may be committed.  It is owned by the goroutine that polls: per partition the
next offset to accept, the frontier below which every offset is safe, the
offsets finished above it and the lowest offset that failed; the backlog of
accepted messages, the pool's two channels, and per key the messages that wait
for the running one.

Each definition follows the method of the same name.  The answers of the
client (did `Seek`, did `Commit` succeed) are arguments.  A method that can
return a fatal error or run into a panic says so in its `Ret`.

`hist` is not in the source.  It lists, oldest first, what happened to each
message of each assignment and every offset handed to `Client.Commit`.
-/

namespace GoGuard
namespace Kafka

open Lib Dlq

/-- A partition of a topic. -/
structure TopicPartition where
  topic : Bytes
  partition : Int32
deriving DecidableEq

/-- A consumed message.  Kafka numbers the messages of a partition from 0. -/
structure Message where
  tp : TopicPartition
  offset : Nat
  key : Option Bytes
  value : Option Bytes
  headers : List Header
deriving DecidableEq

/-- What became of a message given to the pipeline. -/
inductive Result where
  | failed
  | done
  | deferred
  | parked
deriving DecidableEq, Repr

/-- The message is done, or durable in the store. -/
def Result.safe : Result → Bool
  | .failed => false
  | _ => true

/-- `pipeline.Input`. -/
structure Input where
  id : Bytes
  source : Source
  key : Option Bytes
  value : Option Bytes
  headers : List Header
  orderKey : Bytes
deriving DecidableEq

/-- One message on its way to a worker. -/
structure Task where
  m : Message
  inp : Input
  gen : Nat
deriving DecidableEq

/-- What a worker reports back (`result` in the source). -/
structure TaskResult where
  task : Task
  res : Result
  err : Option Error
deriving DecidableEq

/-- `errors.Is` on an error that may be nil. -/
def errIs (err : Option Error) (s : Sentinel) : Bool :=
  match err with
  | none => false
  | some e => e.Is s

/-- The store will never accept this message. -/
def TaskResult.unstorable (r : TaskResult) : Bool :=
  !r.res.safe && errIs r.err .errInvalidRecord

/-- A key within a partition. -/
structure FailedKey where
  tp : TopicPartition
  key : Bytes
deriving DecidableEq

/-- What the consumer knows about an assigned partition. -/
structure Partition where
  gen : Nat
  next : Int
  frontier : Int
  completed : Finset Int
  inflight : Int
  failedAt : Int
deriving DecidableEq

/-- The partition after the message at `offset` was taken.  The first message of
an assignment is where progress starts. -/
def Partition.reach (p : Partition) (offset : Nat) : Partition :=
  { p with
    frontier := if p.next < 0 then (offset : Int) else p.frontier
    next := (offset : Int) + 1 }

/-- One task less in flight for the partition. -/
def Partition.landed (p : Partition) : Partition :=
  { p with inflight := p.inflight - 1 }

inductive UnstorablePolicy where
  | halt
  | skip
deriving DecidableEq, Repr

/-- The settings the polling goroutine reads, as `NewConsumer` leaves them. -/
structure Config where
  topics : List Bytes
  workers : Nat
  maxInFlight : Nat
  commitBatch : Nat
  ignoreKeyOrder : Bool
  onUnstorable : UnstorablePolicy
  idNamespace : Bytes
  sha256 : Bytes → Bytes
  workers_pos : 1 ≤ workers
  workers_le : workers ≤ maxInFlight
  commitBatch_pos : 1 ≤ commitBatch

/-- Why `Run` stops. -/
inductive Fatal where
  | errUnboundTopic (topic : Bytes)
  | errUnstorable (tp : TopicPartition) (offset : Nat) (err : Option Error)
  | storeFailed (err : Option Error)
  | seek (tp : TopicPartition) (offset : Int)
  | polling
  | errBrokersDown
deriving DecidableEq

/-- How a method ends. -/
inductive Ret where
  | ok
  | fatal (e : Fatal)
  | panic
deriving DecidableEq

/-- What happens to messages and commits, for the history. -/
inductive Event where
  | accepted (tp : TopicPartition) (gen : Nat) (offset : Nat)
  | finished (tp : TopicPartition) (gen : Nat) (offset : Nat) (res : Result)
  | skipped (tp : TopicPartition) (gen : Nat) (offset : Nat)
  | commit (tp : TopicPartition) (gen : Option Nat) (offset : Int) (ok : Bool)
deriving DecidableEq

/-- The consumer's state, with the pool's channels and the tasks its workers
hold. -/
structure Consumer where
  parts : GoMap TopicPartition Partition
  safe : GoMap TopicPartition Int
  committed : GoMap TopicPartition Int
  sinceCommit : Nat
  gen : Nat
  backlog : List Task
  inflight : Int
  stopping : Bool
  work : List Task
  workClosed : Bool
  running : List Task
  results : List TaskResult
  keyQueues : GoMap FailedKey (List Task)
  hist : List Event
deriving DecidableEq

/-- The consumer `NewConsumer` returns. -/
def Consumer.new : Consumer where
  parts := .empty
  safe := .empty
  committed := .empty
  sinceCommit := 0
  gen := 0
  backlog := []
  inflight := 0
  stopping := false
  work := []
  workClosed := false
  running := []
  results := []
  keyQueues := .empty
  hist := []

/-- The topic, partition and offset of a task belong to its message. -/
def Task.tp (t : Task) : TopicPartition := t.m.tp

/-- `keyOf`. -/
def keyOf (t : Task) : FailedKey :=
  ⟨t.m.tp, t.inp.orderKey⟩

namespace Consumer

section Partitions

/-- `c.parts[tp] = p`. -/
def setPart (c : Consumer) (tp : TopicPartition) (p : Partition) : Consumer :=
  { c with parts := c.parts.set tp p }

/-- `newPartition` followed by storing it. -/
def newPartition (c : Consumer) (tp : TopicPartition) : Consumer :=
  { c with
    gen := c.gen + 1
    parts := c.parts.set tp ⟨c.gen + 1, -1, -1, ∅, 0, -1⟩
    committed := c.committed.del tp }

/-- `onAssigned`. -/
def onAssigned (c : Consumer) (tps : List TopicPartition) : Consumer :=
  tps.foldl newPartition c

end Partitions

section Committing

/-- The loop of `markDone`: move the frontier over finished offsets.  Every
round takes one offset out of `completed`, whose size bounds the rounds. -/
def advance : Nat → Partition → Partition
  | 0, p => p
  | n + 1, p =>
    if p.frontier ∈ p.completed then
      advance n { p with
        completed := p.completed.erase p.frontier
        frontier := p.frontier + 1 }
    else p

/-- The partition after `markDone`: the offset is remembered, then the
frontier moves. -/
def advanced (p : Partition) (offset : Nat) : Partition :=
  advance (insert (offset : Int) p.completed).card
    { p with completed := insert (offset : Int) p.completed }

/-- `markDone`: the message is safe, and the commit point follows the frontier. -/
def markDone (c : Consumer) (tp : TopicPartition) (p : Partition) (offset : Nat) : Consumer :=
  { c with
    parts := c.parts.set tp (advanced p offset)
    safe :=
      if (advanced p offset).frontier ≠ p.frontier
        then c.safe.set tp (advanced p offset).frontier else c.safe
    sinceCommit := c.sinceCommit + 1 }

/-- The partition is among those asked for; all of them when `only` is nil. -/
def wanted (only : Option (List TopicPartition)) (tp : TopicPartition) : Bool :=
  match only with
  | none => true
  | some tps => tps.contains tp

/-- The offset is above the last one committed. -/
def uncommitted (last : Option Int) (off : Int) : Bool :=
  match last with
  | none => true
  | some last => off > last

/-- `pending`: the safe offsets not committed yet, of all partitions or of
those in `only`. -/
def pending (c : Consumer) (only : Option (List TopicPartition)) : List (TopicPartition × Int) :=
  c.safe.keys.filterMap fun tp =>
    match c.safe.get tp with
    | none => none
    | some off =>
      if wanted only tp && uncommitted (c.committed.get tp) off then some (tp, off)
      else none

/-- The call of `Client.Commit`, in the history. -/
def logCommits (c : Consumer) (offs : List (TopicPartition × Int)) (ok : Bool) : Consumer :=
  { c with
    hist := c.hist ++ offs.map fun o =>
      .commit o.1 ((c.parts.get o.1).map Partition.gen) o.2 ok }

/-- `commitOffsets`, where `ok` says whether `Client.Commit` succeeds. -/
def commitOffsets (c : Consumer) (offs : List (TopicPartition × Int)) (ok : Bool) :
    Consumer × Bool :=
  if offs = [] then (c, true)
  else if ok then
    ({ c.logCommits offs ok with
        committed := offs.foldl (fun m o => m.set o.1 o.2) c.committed }, true)
  else (c.logCommits offs ok, false)

/-- `commit`. -/
def commit (c : Consumer) (ok : Bool) : Consumer × Bool :=
  if (c.commitOffsets (c.pending none) ok).2 then
    ({ (c.commitOffsets (c.pending none) ok).1 with sinceCommit := 0 }, true)
  else c.commitOffsets (c.pending none) ok

/-- `maybeCommit(false)`, where `due` says that the commit interval has passed. -/
def maybeCommit (cfg : Config) (c : Consumer) (due ok : Bool) : Consumer :=
  if c.sinceCommit = 0 then c
  else if c.sinceCommit ≥ cfg.commitBatch ∨ due then (c.commit ok).1
  else c

end Committing

section Queues

/-- The iteration of `dropQueued` for one key. -/
def dropKey (tp : TopicPartition) (keep : Bool) (c : Consumer) (k : FailedKey) : Consumer :=
  let q := (c.keyQueues.get k).getD []
  { c with
    inflight := c.inflight - q.length
    parts :=
      match c.parts.get tp with
      | none => c.parts
      | some p => c.parts.set tp { p with inflight := p.inflight - q.length }
    keyQueues := if keep then c.keyQueues.set k [] else c.keyQueues.del k }

/-- `dropQueued`: forget the messages waiting behind a failed one (for one key)
or in a partition that was taken away. -/
def dropQueued (c : Consumer) (tp : TopicPartition) (only : Option Bytes) : Consumer :=
  let hit := c.keyQueues.keys.filter fun k =>
    k.tp = tp && (match only with
      | none => true
      | some key => k.key = key)
  hit.foldl (dropKey tp only.isSome) c

/-- `c.work <- t`: sending on a closed channel panics. -/
def pushWork (c : Consumer) (t : Task) : Consumer × Ret :=
  if c.workClosed then (c, .panic)
  else ({ c with work := c.work ++ [t] }, .ok)

/-- `send`: a message waits in line while its key is busy. -/
def send (c : Consumer) (t : Task) : Consumer × Ret :=
  if t.inp.orderKey = [] then c.pushWork t
  else
    match c.keyQueues.get (keyOf t) with
    | some q => ({ c with keyQueues := c.keyQueues.set (keyOf t) (q ++ [t]) }, .ok)
    | none => { c with keyQueues := c.keyQueues.set (keyOf t) [] }.pushWork t

/-- `released`: start the next message waiting behind a finished one. -/
def released (cfg : Config) (c : Consumer) (t : Task) : Consumer × Ret :=
  if t.inp.orderKey = [] ∨ cfg.workers ≤ 1 then (c, .ok)
  else
    match (c.keyQueues.get (keyOf t)).getD [] with
    | [] => ({ c with keyQueues := c.keyQueues.del (keyOf t) }, .ok)
    | next :: q =>
      { c with keyQueues := c.keyQueues.set (keyOf t) q }.pushWork next

end Queues

section Rebalancing

/-- The iteration of `onRevoked` for one partition. -/
def revokeOne (c : Consumer) (tp : TopicPartition) : Consumer :=
  { c with
    parts := c.parts.del tp
    safe := c.safe.del tp
    committed := c.committed.del tp }.dropQueued tp none

/-- Keep only the backlog of other partitions. -/
def dropBacklog (c : Consumer) (tps : List TopicPartition) : Consumer :=
  { c with backlog := c.backlog.filter fun t => !tps.contains t.tp }

/-- `onRevoked`: commit what is safe for the partitions, then forget them. -/
def onRevoked (c : Consumer) (tps : List TopicPartition) (ok : Bool) : Consumer :=
  (tps.foldl revokeOne (c.commitOffsets (c.pending (some tps)) ok).1).dropBacklog tps

end Rebalancing

section Messages

/-- `orderKeyFor`. -/
def orderKeyFor (topic : Bytes) (key : Option Bytes) : Bytes :=
  if key.getD [] = [] then [] else topic ++ 0 :: key.getD []

/-- The pipeline input `accept` builds for a message. -/
def inputOf (cfg : Config) (m : Message) : Input where
  id := kafkaIDIn cfg.sha256 cfg.idNamespace m.tp.topic m.tp.partition m.offset
  source := ⟨str "kafka", m.tp.topic, m.tp.partition, Int64.ofNat m.offset⟩
  key := m.key
  value := m.value
  headers := m.headers
  orderKey := if cfg.ignoreKeyOrder then [] else orderKeyFor m.tp.topic m.key

/-- `accept`: take a message from the client.  It must be the one after the
last accepted; anything else is dropped and the partition re-pointed. -/
def accept (cfg : Config) (c : Consumer) (m : Message) (seekOk : Bool) : Consumer × Ret :=
  if m.tp.topic ∉ cfg.topics then (c, .fatal (.errUnboundTopic m.tp.topic))
  else
    match c.parts.get m.tp with
    | none => (c, .ok)
    | some p =>
      if p.failedAt ≥ 0 then (c, .ok)
      else if p.next ≥ 0 ∧ (m.offset : Int) ≠ p.next then
        if (m.offset : Int) > p.next ∧ seekOk = false then
          (c, .fatal (.seek m.tp p.next))
        else (c, .ok)
      else if (m.offset : Int) ∈ p.completed then
        (c.setPart m.tp (p.reach m.offset), .ok)
      else
        ({ c.setPart m.tp (p.reach m.offset) with
            backlog := c.backlog ++ [⟨m, inputOf cfg m, p.gen⟩]
            hist := c.hist ++ [.accepted m.tp p.gen m.offset] }, .ok)

/-- `rewind`: point a drained partition back at its first unfinished message. -/
def rewind (c : Consumer) (tp : TopicPartition) (p : Partition) (seekOk : Bool) : Consumer × Ret :=
  if seekOk then
    ((c.dropBacklog [tp]).setPart tp { p with next := p.frontier, failedAt := -1 }, .ok)
  else (c.dropBacklog [tp], .fatal (.seek tp p.frontier))

/-- The last lines of `complete`: rewind a partition that has drained after a
failure. -/
def rewindIfDrained (c : Consumer) (tp : TopicPartition) (seekOk : Bool) : Consumer × Ret :=
  match c.parts.get tp with
  | none => (c, .ok)
  | some p =>
    if p.failedAt ≥ 0 ∧ p.inflight = 0 ∧ c.stopping = false then
      c.rewind tp p seekOk
    else (c, .ok)

/-- `noteFailure`: record a message that is neither done nor stored. -/
def noteFailure (c : Consumer) (ctxDone : Bool) (tp : TopicPartition) (r : TaskResult) :
    Consumer × Ret :=
  if errIs r.err .errStoreFailed ∨ errIs r.err .errClosed ∨ errIs r.err .errCorrupt then
    (c, .fatal (.storeFailed r.err))
  else if ctxDone ∨ c.stopping then (c, .ok)
  else
    match c.parts.get tp with
    | none => (c, .ok)
    | some p =>
      if p.failedAt < 0 ∨ (r.task.m.offset : Int) < p.failedAt then
        (c.setPart tp { p with failedAt := r.task.m.offset }, .ok)
      else (c, .ok)

/-- Sequencing of methods: a fatal error or a panic ends the caller too. -/
def andThen (x : Consumer × Ret) (f : Consumer → Consumer × Ret) : Consumer × Ret :=
  match x.2 with
  | .ok => f x.1
  | _ => x

/-- The branch of `complete` for a message that is safe: the commit point may
move, and the next message with its key may start. -/
def finishSafe (cfg : Config) (c : Consumer) (p : Partition) (t : Task) (seekOk : Bool) :
    Consumer × Ret :=
  andThen (released cfg (c.markDone t.tp p t.m.offset) t) fun c =>
    c.rewindIfDrained t.tp seekOk

/-- Drop what waits behind a failed message: later messages with its key must
not overtake it, so they never start. -/
def dropFollowers (c : Consumer) (t : Task) : Consumer :=
  if t.inp.orderKey = [] then c
  else
    { c.dropQueued t.tp (some t.inp.orderKey) with
      keyQueues :=
        (c.dropQueued t.tp (some t.inp.orderKey)).keyQueues.del (keyOf t) }

/-- The branch of `complete` for a message that is neither done nor stored. -/
def finishFailed (c : Consumer) (ctxDone : Bool) (r : TaskResult) (seekOk : Bool) :
    Consumer × Ret :=
  andThen ((c.dropFollowers r.task).noteFailure ctxDone r.task.tp r) fun c =>
    c.rewindIfDrained r.task.tp seekOk

/-- `complete` once the result is known to belong to the current assignment. -/
def completeCurrent (cfg : Config) (c : Consumer) (ctxDone : Bool) (p : Partition) (r : TaskResult)
    (seekOk : Bool) : Consumer × Ret :=
  if r.unstorable then
    match cfg.onUnstorable with
    | .halt => (c, .fatal (.errUnstorable r.task.tp r.task.m.offset r.err))
    | .skip =>
      finishSafe cfg
        { c with hist := c.hist ++ [.skipped r.task.tp p.gen r.task.m.offset] }
        p r.task seekOk
  else if r.res.safe then c.finishSafe cfg p r.task seekOk
  else c.finishFailed ctxDone r seekOk

/-- One task less in flight. -/
def landed (c : Consumer) : Consumer :=
  { c with inflight := c.inflight - 1 }

/-- `complete`: apply one result on the polling goroutine.  A result from an
older assignment only leaves the count. -/
def complete (cfg : Config) (c : Consumer) (ctxDone : Bool) (r : TaskResult) (seekOk : Bool) :
    Consumer × Ret :=
  match c.parts.get r.task.tp with
  | none => (c.landed, .ok)
  | some p =>
    if p.gen ≠ r.task.gen then (c.landed, .ok)
    else
      (c.landed.setPart r.task.tp p.landed).completeCurrent cfg ctxDone p.landed r
        seekOk

end Messages

end Consumer

end Kafka
end GoGuard
