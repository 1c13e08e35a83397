import GoGuard.Pipeline.Checkpoint

/-!
# Running a pipeline

`Execute` runs a message from the start and stores it with its progress when a
step cannot finish; `Handler` resumes a stored record.  Both drive one `run`,
whose `advance` calls the steps in order and, in a saga that failed for good,
undoes the completed ones.

Everything that comes from outside is read from a tape of answers: how a call
ends (it may panic), whether the breaker refuses it, what the context says,
whether a retry is allowed, whether a save succeeds.  A save that reports an
error may still have become durable.

`events` is not in the source: the calls of `Run` and `Compensate` with their
results, and the checkpoints that became durable, in order.
-/

namespace GoGuard
namespace Pipe

open Lib Dlq
open Kafka (Input Result)

section Answers

/-- How a call of a step's function ends. -/
inductive FnResult where
  | returned (err : Option Err)
  | panicked
deriving DecidableEq

/-- The error of a call.  A panic becomes one. -/
def FnResult.err : FnResult → Option Err
  | .returned err => err
  | .panicked => some .panicked

/-- `ctx.Err()`, when it is not nil. -/
inductive CtxErr where
  | canceled
  | deadlineExceeded
deriving DecidableEq

/-- How a write to the store ends. -/
inductive Saved where
  | ok
  | failed (err : Err) (durable : Bool)
deriving DecidableEq

/-- One answer of the outside. -/
structure Answer where
  refused : Option Err
  result : FnResult
  state : GoMap Bytes Bytes
  ctx : Option CtxErr
  budget : Bool
  waited : Bool
  saved : Saved
  now : Int
deriving DecidableEq

/-- What happens to a message. -/
inductive Event where
  | ran (i : Nat) (err : Option Err)
  | undid (i : Nat) (err : Option Err)
  | stored (cp : Checkpoint)
deriving DecidableEq

end Answers

/-- A record in the store: the message and its progress. -/
structure Stored where
  inp : Input
  state : State
  blockedOn : Bytes
  lastError : Bytes
  checkpoint : Raw
deriving DecidableEq

/-- `run`, with the record in the store and the answers used so far.  `state` is
the data the steps have set, and `persist` says whether a save goes to the
store. -/
structure Run where
  cp : Checkpoint
  state : GoMap Bytes Bytes
  persist : Bool
  record : Option Stored
  asked : Nat
  events : List Event

namespace Run

variable (tape : Nat → Answer)

/-- The next answer. -/
def ask (r : Run) : Answer :=
  tape r.asked

/-- One answer is used up. -/
def next (r : Run) : Run :=
  { r with asked := r.asked + 1 }

def log (r : Run) (e : Event) : Run :=
  { r with events := r.events ++ [e] }

section Saving

/-- The checkpoint is durable. -/
def commit (r : Run) : Run :=
  { r.log (.stored r.cp) with
    record := r.record.map fun record => { record with checkpoint := r.cp.encode } }

/-- `r.cp.State = r.x.state`. -/
def withState (r : Run) : Run :=
  { r with cp := { r.cp with state := r.state } }

/-- The call of `persist`. -/
def persisted (r : Run) : Run × Option Err :=
  match (r.ask tape).saved with
  | .ok => (r.next.commit, none)
  | .failed err durable =>
    (if durable then r.next.commit else r.next,
      some (.wrap (str "pipeline: saving checkpoint: ") err))

/-- `save`. -/
def save (r : Run) : Run × Option Err :=
  if r.persist = false then (r.withState, none) else r.withState.persisted tape

end Saving

section Calling

/-- The function is called once. -/
def attempt (r : Run) (event : Option Err → Event) : Run × Option Err :=
  ({ r.next with state := (r.ask tape).state }.log (event (r.ask tape).result.err),
    (r.ask tape).result.err)

/-- `attempt` behind the step's breaker, which may refuse the call. -/
def guarded (r : Run) (st : Step) (event : Option Err → Event) : Run × Option Err :=
  match st.breaker, (r.ask tape).refused with
  | some _, some err => (r.next, some err)
  | _, _ => r.attempt tape event

/-- `retry.Do`, with `left` retries left. -/
def retryDo (st : Step) (event : Option Err → Event) : Nat → Run → Run × Option Err
  | 0, r =>
    match r.guarded tape st event with
    | (r, none) => (r, none)
    | (r, some err) => (r, some err.unwrapPermanent)
  | left + 1, r =>
    match r.guarded tape st event with
    | (r, none) => (r, none)
    | (r, some err) =>
      if (r.ask tape).ctx.isSome = true ∨
          (st.retry.retryable.getD Err.defaultRetryable) err = false ∨
          (r.ask tape).budget = false ∨ (r.ask tape).waited = false then
        (r.next, some err.unwrapPermanent)
      else retryDo st event left r.next

/-- `call`: run a step's function with its breaker and in-process retries. -/
def call (r : Run) (st : Step) (event : Option Err → Event) : Run × Option Err :=
  if st.retry.maxRetries > 0 then r.retryDo tape st event st.retry.maxRetries
  else r.guarded tape st event

end Calling

section Failing

/-- `classify`: what the caller should do about a step's error. -/
def classify (ctx : Option CtxErr) (st : Step) (err : Err) : Err :=
  if err.isPermanent then err
  else if ctx = some .canceled then err
  else if err.isOpen then .blocked st.dependencyName err true
  else .blocked st.dependencyName err false

/-- What `compensate` returns for a classified error: blocked or interrupted, it
resumes later. -/
def undoError (p : Pipeline) (st : Step) (err : Err) : Err :=
  if err.isPermanent then .permanent (.undoFailed p.name st.name (p.redactor err)) else err

/-- A step has been undone. -/
def undone (r : Run) (st : Step) : Run :=
  { r with cp := { r.cp with compensated := r.cp.compensated ++ [st.name] } }

/-- The loop of `compensate` over the completed steps, newest first. -/
def undo (p : Pipeline) (done : List Bytes) : List (Step × Nat) → Run → Run × Option Err
  | [], r =>
    (r, some (.permanent (.compensated p.name r.cp.failedStep r.cp.failReason
      r.cp.compensated.length)))
  | (st, i) :: rest, r =>
    if st.compensate = false ∨ st.name ∈ done then undo p done rest r
    else
      match r.call tape st (.undid i) with
      | (r, some err) =>
        (r.next, some (undoError p st (classify (r.ask tape).ctx st err)))
      | (r, none) =>
        match (r.undone st).save tape with
        | (r, some err) => (r, some err)
        | (r, none) => undo p done rest r

/-- `compensate`. -/
def compensate (r : Run) (p : Pipeline) : Run × Option Err :=
  undo tape p r.cp.compensated (p.steps.take r.cp.completed.length).zipIdx.reverse r

/-- `anyCompensation`. -/
def anyCompensation (r : Run) (p : Pipeline) : Bool :=
  (p.steps.take r.cp.completed.length).any Step.compensate

/-- The checkpoint of a saga that failed for good. -/
def turned (r : Run) (st : Step) (text : Bytes) : Run :=
  { r with cp := { r.cp with
      phase := .compensating
      failedStep := st.name
      failReason := text } }

/-- `failed` after the error was classified. -/
def failedAs (r : Run) (p : Pipeline) (st : Step) (err : Err) : Run × Option Err :=
  if err.isPermanent = false then (r, some err)
  else if p.saga = true ∧ r.anyCompensation p = true then
    match (r.turned st (p.redactor err)).save tape with
    | (r, some err) => (r, some err)
    | (r, none) => r.compensate tape p
  else (r, some (.permanent (.stepFailed p.name st.name (p.redactor err))))

/-- `failed`: a step's call returned an error. -/
def failed (r : Run) (p : Pipeline) (st : Step) (err : Err) : Run × Option Err :=
  r.next.failedAs tape p st (classify (r.ask tape).ctx st err)

end Failing

section Advancing

/-- A step has returned nil. -/
def completed (r : Run) (st : Step) (now : Int) : Run :=
  { r with cp := { r.cp with completed := r.cp.completed ++ [⟨st.name, now⟩] } }

/-- The loop of `advance` over the steps from index `i` on. -/
def forward (p : Pipeline) : List Step → Nat → Run → Run × Option Err
  | [], _, r => (r, none)
  | st :: rest, i, r =>
    match r.call tape st (.ran i) with
    | (r, some err) => r.failed tape p st err
    | (r, none) =>
      match (r.next.completed st (r.ask tape).now).save tape with
      | (r, some err) => (r, some err)
      | (r, none) => forward p rest (i + 1) r

/-- `advance`: run the pipeline from wherever its checkpoint says. -/
def advance (r : Run) (p : Pipeline) : Run × Option Err :=
  if r.cp.phase = .compensating then r.compensate tape p
  else
    r.forward tape p (p.steps.drop r.cp.completed.length) r.cp.completed.length

end Advancing

end Run

section Attempts

/-- How an attempt on a message ended. -/
inductive Ended where
  | executed (res : Result) (err : Option Err)
  | handled (err : Option Err)
deriving DecidableEq

/-- The message is done. -/
def Ended.succeeded : Ended → Bool
  | .executed .done _ => true
  | .handled none => true
  | _ => false

/-- One attempt: the checkpoint it resumed from (none for `Execute`), the
checkpoint its run ended with and what `advance` returned (none when there was
no run), what happened and how it ended. -/
structure Attempt where
  loaded : Option Checkpoint
  run : Option (Checkpoint × Option Err)
  events : List Event
  ended : Ended
deriving DecidableEq

/-- A message over all attempts on it. -/
structure Message where
  record : Option Stored
  asked : Nat
  past : List Attempt
deriving DecidableEq

/-- What happened to the message, oldest first. -/
def Message.events (m : Message) : List Event :=
  m.past.flatMap Attempt.events

variable (tape : Nat → Answer) (p : Pipeline)

/-- The record is durable. -/
def Run.appended
    (r : Run) (inp : Input) (state : State) (dep text : Bytes) : Run :=
  { r.log (.stored r.cp) with record := some ⟨inp, state, dep, text, r.cp.encode⟩ }

/-- `store`: the message and its progress go to the store. -/
def store (r : Run) (inp : Input) (state : State) (dep text : Bytes) (ok : Result) :
    Run × Result × Option Err :=
  match (r.ask tape).saved with
  | .ok => (r.next.appended inp state dep text, ok, none)
  | .failed err durable =>
    (if durable then r.next.appended inp state dep text else r.next, .failed, some err)

/-- The run `Execute` starts: nothing is stored yet. -/
def liveRun : Run where
  cp := p.newCheckpoint
  state := .empty
  persist := false
  record := none
  asked := 0
  events := []

/-- What `Execute` does when `advance` has returned. -/
def settle (inp : Input) (r : Run) (err : Option Err) : Run × Result × Option Err :=
  match err with
  | none => (r, .done, none)
  | some err =>
    match err.asBlocked with
    | some dep => store tape r inp .pending dep (p.redactor err) .deferred
    | none =>
      if err.isPermanent then store tape r inp .parked [] (p.redactor err) .parked
      else (r, .failed, some err)

/-- The run of `Execute` with its result. -/
def executed (inp : Input) : Run × Result × Option Err :=
  settle tape p inp ((liveRun p).advance tape p).1.withState ((liveRun p).advance tape p).2

/-- `Execute`, for a message that is new. -/
def execute (inp : Input) : Message :=
  if inp.id = [] then ⟨none, 0, [⟨none, none, [], .executed .failed (some .noID)⟩]⟩
  else
    match executed tape p inp with
    | (r, res, err) =>
      ⟨r.record, r.asked,
        [⟨none, some (r.cp, ((liveRun p).advance tape p).2), r.events,
          .executed res err⟩]⟩

/-- The run a `Handler` starts. -/
def resumedRun (m : Message) (cp : Checkpoint) : Run where
  cp := cp
  state := cp.state
  persist := true
  record := m.record
  asked := m.asked
  events := []

/-- One run of the `Handler` on the stored record. -/
def handle (m : Message) : Message :=
  match m.record with
  | none => m
  | some record =>
    match p.load record.checkpoint with
    | .error err => { m with past := m.past ++ [⟨none, none, [], .handled (some err)⟩] }
    | .ok cp =>
      match (resumedRun m cp).advance tape p with
      | (r, err) =>
        ⟨r.record, r.asked,
          m.past ++ [⟨some cp, some (r.cp, err), r.events, .handled err⟩]⟩

/-- `Execute`, then any number of runs of the `Handler`. -/
def attempts (inp : Input) : Nat → Message
  | 0 => execute tape p inp
  | n + 1 => handle tape p (attempts inp n)

end Attempts

/-- The name the pipelines of the worked cases go by. -/
theorem order_ne : str "order" ≠ [] := by decide

end Pipe
end GoGuard
