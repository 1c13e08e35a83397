import GoGuard.Kafka.Consumer
import GoGuard.Lib.Transition

/-!
# `Consumer.Run` as a transition system

The polling goroutine and the workers take turns in any order.  The polling
goroutine follows the loop of `Run`: drain the results that are there, commit
if it is time, poll (rebalances happen inside `Poll`), accept the message,
dispatch the backlog.  A worker takes a task from the work channel and later
puts its result on the result channel.  On the way out `Run` closes the work
channel, waits for the workers (at most `ShutdownTimeout`), drains once more
and commits, polling and retrying while the commit fails.

A label carries every answer from outside: what the client delivers and whether
its calls succeed, how a pipeline run ends, when the context is cancelled and
whether a deadline has passed.  Pausing and resuming partitions only changes
what the client delivers, and the client may deliver anything here.
-/

namespace GoGuard
namespace Kafka

open Lib Dlq

/-- Where the polling goroutine is in `Run`.  `stopped` is what `stopWorkers`
returned: every worker has stopped. -/
inductive Phase where
  | top
  | draining
  | tending
  | polling
  | dispatching
  | left (fatal : Option Fatal)
  | stoppingWorkers
  | finalDrain (stopped : Bool)
  | finalCommit (stopped : Bool)
  | finalPoll (stopped : Bool)
  | returned
  | panicked
deriving DecidableEq

/-- The whole system: the consumer with its pool, and `Run`. -/
structure Sys where
  c : Consumer
  ctxDone : Bool
  phase : Phase
deriving DecidableEq

/-- `Run` has just started. -/
def Sys.init : Sys where
  c := Consumer.new
  ctxDone := false
  phase := .top

/-- The moves of the system. -/
inductive Act where
  | cancel
  | enterLoop
  | recv (seekOk : Bool)
  | drained
  | tend (due commitOk brokersDown : Bool)
  | assigned (tps : List TopicPartition)
  | revoked (tps : List TopicPartition) (commitOk : Bool)
  | pollNothing
  | pollFails
  | pollMessage (m : Message) (seekOk : Bool)
  | dispatch (res : Result) (err : Option Error) (seekOk : Bool)
  | dispatched
  | take
  | finish (i : Nat) (res : Result) (err : Option Error)
  | shutdown
  | workersStopped
  | stopTimeout
  | finalCommit (commitOk pastDeadline : Bool)
deriving DecidableEq

/-- Continue the loop at `next`, leave it on a fatal error, or die. -/
def Sys.loopAfter (s : Sys) (x : Consumer × Ret) (next : Phase) : Sys :=
  match x.2 with
  | .ok => { s with c := x.1, phase := next }
  | .fatal e => { s with c := x.1, phase := .left (some e) }
  | .panic => { s with c := x.1, phase := .panicked }

/-- Continue the final drain; its error is dropped and ends the drain. -/
def Sys.finalAfter (s : Sys) (x : Consumer × Ret) (stopped : Bool) : Sys :=
  match x.2 with
  | .ok => { s with c := x.1, phase := .finalDrain stopped }
  | .fatal _ => { s with c := x.1, phase := .finalCommit stopped }
  | .panic => { s with c := x.1, phase := .panicked }

/-- A worker, or the polling goroutine itself, has run a task. -/
def Consumer.logFinished (c : Consumer) (t : Task) (res : Result) : Consumer :=
  { c with hist := c.hist ++ [.finished t.tp t.gen t.m.offset res] }

/-- The task leaves the backlog and counts as in flight. -/
def Consumer.started
    (c : Consumer) (t : Task) (p : Partition) (rest : List Task) : Consumer :=
  { c with
    backlog := rest
    parts := c.parts.set t.tp { p with inflight := p.inflight + 1 }
    inflight := c.inflight + 1 }

/-- One iteration of `dispatchBacklog` on the first message of the backlog. -/
def Consumer.dispatchOne
    (cfg : Config) (c : Consumer) (ctxDone : Bool) (t : Task) (rest : List Task)
    (res : Result) (err : Option Error) (seekOk : Bool) : Consumer × Ret :=
  match c.parts.get t.tp with
  | none => ({ c with backlog := rest }, .ok)
  | some p =>
    if p.gen ≠ t.gen ∨ p.failedAt ≥ 0 then ({ c with backlog := rest }, .ok)
    else if cfg.workers ≤ 1 then
      ((c.started t p rest).logFinished t res).complete cfg ctxDone ⟨t, res, err⟩ seekOk
    else (c.started t p rest).send t

/-- `Poll` is running, so the client may call the rebalance handler. -/
def Phase.inPoll : Phase → Bool
  | .polling => true
  | .finalPoll _ => true
  | _ => false

/-- One move; `none` when it is not enabled. -/
def step (cfg : Config) (s : Sys) : Act → Option Sys
  | .cancel => some { s with ctxDone := true }
  | .enterLoop =>
    if s.phase = .top then
      some { s with phase := if s.ctxDone then .left none else .draining }
    else none
  | .recv seekOk =>
    match s.phase, s.c.results with
    | .draining, r :: rest =>
      some (s.loopAfter
        ({ s.c with results := rest }.complete cfg s.ctxDone r seekOk) .draining)
    | .finalDrain stopped, r :: rest =>
      if stopped = true ∧ s.c.inflight = 0 then none
      else
        some (s.finalAfter
          ({ s.c with results := rest }.complete cfg s.ctxDone r seekOk) stopped)
    | _, _ => none
  | .drained =>
    match s.phase with
    | .draining =>
      if s.c.results = [] then some { s with phase := .tending } else none
    | .finalDrain true =>
      if s.c.inflight = 0 then some { s with phase := .finalCommit true } else none
    | .finalDrain false =>
      if s.c.results = [] then some { s with phase := .finalCommit false } else none
    | _ => none
  | .tend due commitOk brokersDown =>
    if s.phase = .tending then
      some { s with
        c := Consumer.maybeCommit cfg s.c due commitOk
        phase := if brokersDown then .left (some .errBrokersDown) else .polling }
    else none
  | .assigned tps =>
    -- the client takes a partition away before it gives it again
    if s.phase.inPoll = true ∧ ∀ tp ∈ tps, s.c.parts.get tp = none then
      some { s with c := s.c.onAssigned tps }
    else none
  | .revoked tps commitOk =>
    if s.phase.inPoll = true then
      some { s with c := s.c.onRevoked tps commitOk }
    else none
  | .pollNothing =>
    match s.phase with
    | .polling => some { s with phase := .dispatching }
    | .finalPoll stopped => some { s with phase := .finalCommit stopped }
    | _ => none
  | .pollFails =>
    match s.phase with
    | .polling => some { s with phase := .left (some .polling) }
    | .finalPoll _ => some { s with phase := .returned }
    | _ => none
  | .pollMessage m seekOk =>
    match s.phase with
    | .polling => some (s.loopAfter (s.c.accept cfg m seekOk) .dispatching)
    | .finalPoll stopped => some { s with phase := .finalCommit stopped }
    | _ => none
  | .dispatch res err seekOk =>
    match s.phase, s.c.backlog with
    | .dispatching, t :: rest =>
      if s.c.inflight < cfg.maxInFlight then
        some (s.loopAfter
          (s.c.dispatchOne cfg s.ctxDone t rest res err seekOk) .dispatching)
      else none
    | _, _ => none
  | .dispatched =>
    if s.phase = .dispatching ∧
        (s.c.backlog = [] ∨ ¬ s.c.inflight < cfg.maxInFlight) then
      some { s with phase := .top }
    else none
  | .take =>
    match s.c.work with
    | t :: rest =>
      if s.c.running.length < cfg.workers ∧ s.phase ≠ .panicked then
        some { s with
          c := { s.c with work := rest, running := s.c.running ++ [t] } }
      else none
    | [] => none
  | .finish i res err =>
    match s.c.running[i]? with
    | some t =>
      if s.phase ≠ .panicked then
        some { s with
          c := { s.c.logFinished t res with
            results := s.c.results ++ [⟨t, res, err⟩]
            running := s.c.running.eraseIdx i } }
      else none
    | none => none
  | .shutdown =>
    match s.phase with
    | .left _ =>
      some { s with
        c := { s.c with stopping := true, workClosed := true }
        phase := .stoppingWorkers }
    | _ => none
  | .workersStopped =>
    if s.phase = .stoppingWorkers ∧ s.c.work = [] ∧ s.c.running = [] then
      some { s with phase := .finalDrain true }
    else none
  | .stopTimeout =>
    if s.phase = .stoppingWorkers then some { s with phase := .finalDrain false }
    else none
  | .finalCommit commitOk pastDeadline =>
    match s.phase with
    | .finalCommit stopped =>
      some { s with
        c := (s.c.commit commitOk).1
        phase :=
          if (s.c.commit commitOk).2 ∨ pastDeadline then .returned
          else .finalPoll stopped }
    | _ => none

end Kafka
end GoGuard
