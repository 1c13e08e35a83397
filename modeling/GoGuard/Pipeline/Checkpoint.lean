import GoGuard.Kafka.Consumer
import GoGuard.Lib.GoMap

/-!
# Pipelines and their checkpoints

A pipeline is an ordered list of steps with distinct names.  A checkpoint says
how far a message got: the completed steps in order, the phase (running forward
or undoing), the steps undone, the data the steps saved.

A checkpoint is stored as JSON.  `encode` and `load` work on what
`json.Unmarshal` gives back for what `json.Marshal` wrote: all fields as they
were, except that every byte of a string that is not part of valid UTF-8 comes
back as U+FFFD.

Errors are modelled by the chain that `errors.Is` and `errors.As` walk.
-/

namespace GoGuard
namespace Pipe

open Lib Dlq

section Errors

/-- What `load` finds wrong with a checkpoint. -/
inductive Mismatch where
  /-- "checkpoint is unreadable" -/
  | unreadable
  /-- "checkpoint format %d is not supported" -/
  | format (v : Int)
  /-- "checkpoint belongs to pipeline %q, this is %q" -/
  | otherPipeline (theirs ours : Bytes)
  /-- "unknown phase %q" -/
  | unknownPhase (phase : Bytes)
  /-- "checkpoint has %d completed steps but the pipeline has %d" -/
  | tooMany (completed steps : Nat)
  /-- "step %d was %q when checkpointed but is %q now" -/
  | renamed (index : Nat) (was now : Bytes)
deriving DecidableEq

/-- The errors the package makes, and those of steps, breakers and stores. -/
inductive Err where
  /-- an error of a step or a store; some declare themselves not retryable -/
  | other (text : Bytes) (nonRetryable : Bool)
  /-- `context.Canceled` -/
  | canceled
  /-- a `*breaker.OpenError`, which matches `breaker.ErrOpen` -/
  | circuitOpen (name : Bytes)
  /-- "step panicked" -/
  | panicked
  /-- "pipeline: Input.ID is required" -/
  | noID
  /-- `ErrPipelineMismatch` with its detail -/
  | mismatch (detail : Mismatch)
  /-- "pipeline %s: step %q failed permanently: %s" -/
  | stepFailed (pipeline step text : Bytes)
  /-- "pipeline %s: compensating step %q failed (%s); manual intervention is needed" -/
  | undoFailed (pipeline step text : Bytes)
  /-- "pipeline %s: step %q failed permanently (%s); %d step(s) compensated" -/
  | compensated (pipeline step reason : Bytes) (count : Nat)
  /-- `fmt.Errorf` with `%w` behind a text -/
  | wrap (text : Bytes) (err : Err)
  /-- what `retry.Permanent` returns -/
  | permanent (err : Err)
  /-- a `*dlq.BlockedError` -/
  | blocked (dependency : Bytes) (err : Err) (refund : Bool)
deriving DecidableEq

namespace Err

/-- `retry.IsPermanent`. -/
def isPermanent : Err → Bool
  | permanent _ => true
  | wrap _ err => err.isPermanent
  | blocked _ err _ => err.isPermanent
  | _ => false

/-- `errors.Is(err, breaker.ErrOpen)`. -/
def isOpen : Err → Bool
  | circuitOpen _ => true
  | wrap _ err => err.isOpen
  | permanent err => err.isOpen
  | blocked _ err _ => err.isOpen
  | _ => false

/-- `errors.Is(err, context.Canceled)`. -/
def isCanceled : Err → Bool
  | canceled => true
  | wrap _ err => err.isCanceled
  | permanent err => err.isCanceled
  | blocked _ err _ => err.isCanceled
  | _ => false

/-- The first error of the chain with a `NonRetryable` method decides. -/
def isNonRetryable : Err → Bool
  | other _ nonRetryable => nonRetryable
  | circuitOpen _ => true
  | wrap _ err => err.isNonRetryable
  | permanent err => err.isNonRetryable
  | blocked _ err _ => err.isNonRetryable
  | _ => false

/-- The dependency of the first `*dlq.BlockedError` of the chain. -/
def asBlocked : Err → Option Bytes
  | blocked dependency _ _ => some dependency
  | wrap _ err => err.asBlocked
  | permanent err => err.asBlocked
  | _ => none

/-- `unwrapPermanent`: only a marker at the top is taken off. -/
def unwrapPermanent : Err → Err
  | permanent err => err
  | err => err

/-- `DefaultRetryable`. -/
def defaultRetryable (err : Err) : Bool :=
  !(err.isPermanent || err.isCanceled || err.isNonRetryable)

end Err

end Errors

section Steps

/-- `retry.Policy`, without the delays.  A negative `MaxRetries` is like 0. -/
structure Policy where
  maxRetries : Nat
  retryable : Option (Err → Bool)

/-- A step, as `New` leaves it.  `breaker` is the name of its breaker, and
`compensate` says whether it has a `Compensate`. -/
structure Step where
  name : Bytes
  dependency : Bytes
  breaker : Option Bytes
  retry : Policy
  compensate : Bool

/-- `Step.dependency()`. -/
def Step.dependencyName (st : Step) : Bytes :=
  if st.dependency ≠ [] then st.dependency
  else if st.breaker.getD [] ≠ [] then st.breaker.getD []
  else st.name

end Steps

/-- A pipeline `New` accepts. -/
structure Pipeline where
  name : Bytes
  version : Bytes
  steps : List Step
  saga : Bool
  redactor : Err → Bytes
  name_ne : name ≠ []
  steps_ne : steps ≠ []
  step_name_ne : ∀ st ∈ steps, st.name ≠ []
  nodup : (steps.map Step.name).Nodup

/-- `StepNames`. -/
def Pipeline.stepNames (p : Pipeline) : List Bytes :=
  p.steps.map Step.name

section Checkpoints

inductive Phase where
  | forward
  | compensating
  | other (text : Bytes)
deriving DecidableEq

/-- A completed step, with the time in nanoseconds (`At` in the source). -/
structure DoneStep where
  step : Bytes
  time : Int
deriving DecidableEq

structure Checkpoint where
  v : Int
  pipeline : Bytes
  version : Bytes
  completed : List DoneStep
  phase : Phase
  compensated : List Bytes
  failedStep : Bytes
  failReason : Bytes
  epoch : Int
  state : GoMap Bytes Bytes
deriving DecidableEq

def checkpointVersion : Int := 1

/-- `newCheckpoint`. -/
def Pipeline.newCheckpoint (p : Pipeline) : Checkpoint where
  v := checkpointVersion
  pipeline := p.name
  version := p.version
  completed := []
  phase := .forward
  compensated := []
  failedStep := []
  failReason := []
  epoch := 0
  state := .empty

/-- The names of the completed steps. -/
def Checkpoint.names (c : Checkpoint) : List Bytes :=
  c.completed.map DoneStep.step

end Checkpoints

section Json

/-- The bytes begin with one between `lo` and `hi` and `n` more of the form
10xxxxxx. -/
def tailOk (lo hi : UInt8) (n : Nat) : Bytes → Bool
  | [] => false
  | b :: rest =>
    lo ≤ b && b ≤ hi && (rest.take n).length == n &&
      (rest.take n).all fun b => 0x80 ≤ b && b ≤ 0xBF

/-- How many bytes follow the first one in the character it starts; `none` when
it starts none. -/
def runeTail (b : UInt8) (rest : Bytes) : Option Nat :=
  if b < 0x80 then some 0
  else if 0xC2 ≤ b && b ≤ 0xDF && tailOk 0x80 0xBF 0 rest then some 1
  else if b == 0xE0 && tailOk 0xA0 0xBF 1 rest then some 2
  else if b == 0xED && tailOk 0x80 0x9F 1 rest then some 2
  else if 0xE1 ≤ b && b ≤ 0xEF && b != 0xED && tailOk 0x80 0xBF 1 rest then some 2
  else if b == 0xF0 && tailOk 0x90 0xBF 2 rest then some 3
  else if 0xF1 ≤ b && b ≤ 0xF3 && tailOk 0x80 0xBF 2 rest then some 3
  else if b == 0xF4 && tailOk 0x80 0x8F 2 rest then some 3
  else none

/-- Copy `n` bytes of the current character, then go on with the next one. -/
def toValid : Nat → Bytes → Bytes
  | _, [] => []
  | n + 1, b :: rest => b :: toValid n rest
  | 0, b :: rest =>
    match runeTail b rest with
    | some n => b :: toValid n rest
    | none => 0xEF :: 0xBF :: 0xBD :: toValid 0 rest

/-- A string after `json.Marshal` and `json.Unmarshal`. -/
def jsonString (s : Bytes) : Bytes :=
  toValid 0 s

/-- A map after both: its keys are written in order, and read back one after
the other. -/
def jsonState (m : GoMap Bytes Bytes) : GoMap Bytes Bytes :=
  (m.keys.insertionSort (· ≤ ·)).foldl
    (fun acc k => acc.set (jsonString k) ((m.get k).getD [])) .empty

def Phase.json : Phase → Phase
  | .other text => .other (jsonString text)
  | phase => phase

def DoneStep.json (d : DoneStep) : DoneStep :=
  { d with step := jsonString d.step }

/-- A checkpoint after both. -/
def Checkpoint.json (c : Checkpoint) : Checkpoint :=
  { c with
    pipeline := jsonString c.pipeline
    version := jsonString c.version
    completed := c.completed.map DoneStep.json
    phase := c.phase.json
    compensated := c.compensated.map jsonString
    failedStep := jsonString c.failedStep
    failReason := jsonString c.failReason
    state := jsonState c.state }

/-- The bytes stored with a record, by what `json.Unmarshal` makes of them. -/
inductive Raw where
  | empty
  | unreadable
  | json (c : Checkpoint)
deriving DecidableEq

/-- `encode`. -/
def Checkpoint.encode (c : Checkpoint) : Raw :=
  .json c.json

end Json

section Loading

/-- `mismatch`. -/
def mismatch (detail : Mismatch) : Err :=
  .permanent (.mismatch detail)

/-- The loop of `load`: the first completed step whose name is not the one the
pipeline has there. -/
def firstRenamed : Nat → List DoneStep → List Step → Option Mismatch
  | i, d :: ds, st :: sts =>
    if d.step ≠ st.name then some (.renamed (i + 1) d.step st.name)
    else firstRenamed (i + 1) ds sts
  | _, _, _ => none

/-- `load`: decode a stored checkpoint and check it against the pipeline. -/
def Pipeline.load (p : Pipeline) : Raw → Except Err Checkpoint
  | .empty => .ok p.newCheckpoint
  | .unreadable => .error (mismatch .unreadable)
  | .json c =>
    if c.v ≠ checkpointVersion then .error (mismatch (.format c.v))
    else if c.pipeline ≠ p.name then
      .error (mismatch (.otherPipeline c.pipeline p.name))
    else
      match c.phase with
      | .other text => .error (mismatch (.unknownPhase text))
      | _ =>
        if p.steps.length < c.completed.length then
          .error (mismatch (.tooMany c.completed.length p.steps.length))
        else
          match firstRenamed 0 c.completed p.steps with
          | some detail => .error (mismatch detail)
          | none => .ok c

end Loading

end Pipe
end GoGuard
