import GoGuard.Pipeline.Build
import GoGuard.Pipeline.Progress
import GoGuard.Lib.Transition
import Mathlib.Data.Nat.Digits.Defs

/-!
# Idempotency keys and rewinding

A step passes its idempotency key to the service it calls.  The key is a hash of
the message, the step and an epoch that is stored in the checkpoint; an operator
who rewinds a record past undone steps starts a new epoch.

`Message.step` is the life of one message as the pipeline sees it: it may be
delivered and executed again, a redriver resumes its record and settles it, an
operator rewinds and requeues it.
-/

namespace GoGuard
namespace Pipe

open Lib Dlq List
open Kafka (Input Result)

section Keys

/-- `strconv.Itoa`, for a positive number. -/
def itoa (n : Nat) : Bytes :=
  (Nat.digits 10 n).reverse.map fun d => UInt8.ofNat (48 + d)

/-- The bytes `IdempotencyKeyEpoch` hashes. -/
def keyInput (recordID step : Bytes) (epoch : Int) : Bytes :=
  str "goguard/pipeline/v1" ++ [0] ++ recordID ++ [0] ++ step ++
    if epoch > 0 then [0] ++ str "epoch=" ++ itoa epoch.toNat else []

/-- `IdempotencyKeyEpoch`.  `sha` stands for the first half of SHA-256 in
hexadecimal. -/
def idempotencyKeyEpoch (sha : Bytes → Bytes) (recordID step : Bytes) (epoch : Int) : Bytes :=
  sha (keyInput recordID step epoch)

end Keys

section Rewinding

/-- What `Rewind` refuses. -/
inductive RewindError where
  /-- the checkpoint does not fit the pipeline -/
  | load (err : Err)
  /-- `ErrUnknownStep` -/
  | unknownStep (step : Bytes)
  /-- `ErrCannotSkipForward`: the step comes after one that has not completed -/
  | cannotSkipForward (step next : Bytes)
  /-- `ErrStepUndone` -/
  | stepUndone (step : Bytes)
deriving DecidableEq

/-- The loop of `Rewind` that looks for the step. -/
def Pipeline.stepIndex (p : Pipeline) (toStep : Bytes) : Option Nat :=
  p.steps.zipIdx.foldl (fun idx x => if x.1.name = toStep then some x.2 else idx) none

/-- The checkpoint `Rewind` makes: whatever was undone will be redone, so it is new
work and not a repeat. -/
def Checkpoint.rewound (cp : Checkpoint) (idx : Nat) : Checkpoint :=
  { cp with
    epoch := if cp.compensated.length > 0 then cp.epoch + 1 else cp.epoch
    completed := cp.completed.take idx
    compensated := []
    phase := .forward
    failedStep := []
    failReason := [] }

/-- `Rewind`. -/
def Pipeline.rewind (p : Pipeline) (raw : Raw) (toStep : Bytes) : Except RewindError Raw :=
  match p.load raw with
  | .error err => .error (.load err)
  | .ok cp =>
    match p.stepIndex toStep with
    | none => .error (.unknownStep toStep)
    | some idx =>
      if idx > cp.completed.length then
        .error (.cannotSkipForward toStep ((p.stepNames[cp.completed.length]?).getD []))
      else
        match (cp.names.take idx).find? fun name => cp.compensated.contains name with
        | some name => .error (.stepUndone name)
        | none => .ok (cp.rewound idx).encode

end Rewinding

section Histories

variable (tape : Nat → Answer) (p : Pipeline) (inp : Input)

/-- `Execute`, on the first delivery of a message or on a later one.  `Append` of a
record the store has returns nil and changes nothing. -/
def deliver (m : Message) : Message :=
  if inp.id = [] then
    { m with past := m.past ++ [⟨none, none, [], .executed .failed (some .noID)⟩] }
  else
    match Run.advance tape { liveRun p with asked := m.asked } p with
    | (r, err) =>
      match settle tape p inp r.withState err with
      | (r', res, err') =>
        match m.record with
        | none =>
          ⟨r'.record, r'.asked,
            m.past ++ [⟨none, some (r'.cp, err), r'.events, .executed res err'⟩]⟩
        | some record =>
          ⟨some record, r'.asked,
            m.past ++ [⟨none, some (r'.cp, err), r.events, .executed res err'⟩]⟩

/-- `RequeueWith`: the checkpoint and the state change in one write. -/
def requeueWith (m : Message) (record : Stored) (raw : Raw) : Message :=
  match (tape m.asked).saved with
  | .failed _ false => { m with asked := m.asked + 1 }
  | _ =>
    { m with
      asked := m.asked + 1
      record := some { record with state := .pending, checkpoint := raw } }

/-- `Redrive`. -/
def redrive (m : Message) (fromStep : Bytes) : Message :=
  match m.record with
  | none => m
  | some record =>
    if record.state ≠ .parked then m
    else if fromStep = [] then requeueWith tape m record record.checkpoint
    else
      match p.rewind record.checkpoint fromStep with
      | .error _ => m
      | .ok raw => requeueWith tape m record raw

/-- What can happen to a message. -/
inductive Move where
  /-- the message is delivered and executed -/
  | deliver
  /-- the redriver runs the handler on the record -/
  | resume
  /-- a redriver or an operator removes the record or puts it into another state -/
  | settle (state : Option State)
  /-- an operator sends the record back -/
  | redrive (fromStep : Bytes)
deriving DecidableEq

def Message.new : Message :=
  ⟨none, 0, []⟩

def Message.step (m : Message) : Move → Option Message
  | .deliver => some (deliver tape p inp m)
  | .resume => some (handle tape p m)
  | .settle state =>
    some { m with
      record := m.record.bind fun record =>
        state.map fun state => { record with state := state } }
  | .redrive fromStep => some (redrive tape p m fromStep)

variable {tape p inp}

end Histories

section Calls

/-- The epoch of the keys in an attempt.  `Execute` does not look into the store. -/
def Attempt.epoch (a : Attempt) : Int :=
  (a.loaded.map Checkpoint.epoch).getD 0

/-- What happened to a message, with the epoch of the attempt. -/
def Message.timed (m : Message) : List (Int × Event) :=
  m.past.flatMap fun a => a.events.map fun e => (a.epoch, e)

/-- The step an event is about. -/
def Event.step : Event → Option Nat
  | .ran i _ => some i
  | .undid i _ => some i
  | .stored _ => none

/-- A call of a step's `Run` or `Compensate`, with the key the step has then. -/
structure Call where
  key : Bytes
  event : Event
deriving DecidableEq

/-- The name of a step. -/
def Pipeline.nameAt (p : Pipeline) (i : Nat) : Bytes :=
  (p.stepNames[i]?).getD []

/-- The call an event is. -/
def callOf (sha : Bytes → Bytes) (p : Pipeline) (inp : Input) (x : Int × Event) : Option Call :=
  x.2.step.map fun i => ⟨idempotencyKeyEpoch sha inp.id (p.nameAt i) x.1, x.2⟩

/-- The calls of a message, oldest first. -/
def Message.calls (sha : Bytes → Bytes) (p : Pipeline) (inp : Input) (m : Message) : List Call :=
  m.timed.filterMap (callOf sha p inp)

end Calls

section Injective

variable {sha : Bytes → Bytes} {recordID recordID' step step' : Bytes} {e e' : Int}

theorem map_itoa (n : Nat) : (itoa n).map (fun b => b.toNat - 48) = (Nat.digits 10 n).reverse := by
  unfold itoa
  rw [map_map]
  refine (map_congr_left ?_).trans (map_id _)
  intro d hd
  have hlt : d < 10 := Nat.digits_lt_base (by decide) (mem_reverse.mp hd)
  simp only [Function.comp_apply, UInt8.toNat_ofNat', id_eq]
  omega

theorem itoa_injective : Function.Injective itoa := by
  intro a b h
  have hdigits := congrArg (List.map fun b => b.toNat - 48) h
  rw [map_itoa, map_itoa] at hdigits
  exact Nat.digits_inj_iff.mp (reverse_injective hdigits)

/-- A message and a step have different keys in different epochs. -/
theorem epoch_eq_of_key (hsha : Function.Injective sha) (he : 0 ≤ e) (he' : 0 ≤ e')
    (h : idempotencyKeyEpoch sha recordID step e = idempotencyKeyEpoch sha recordID step e') :
    e = e' := by
  have htail := append_cancel_left (hsha h)
  split at htail
  · split at htail
    · have hnat : e.toNat = e'.toNat := itoa_injective (append_cancel_left htail)
      omega
    · cases htail
  · split at htail
    · cases htail
    · omega

/-- A step with nothing but a name. -/
def namedStep (name : Bytes) : StepDef :=
  ⟨name, [], none, [], 0, none, 0, true, none, [], false⟩

end Injective

end Pipe
end GoGuard
