import GoGuard.Pipeline.Run

/-!
# Permanent errors of steps

A step marks an error with `retry.Permanent` when running it again cannot help.
The error passes the breaker, the retry loop and `classify` before `Execute` or
the redriver look at it.  The retry loop takes a marker off that stands at the
top, so the outcome depends on whether the step has in-process retries.
-/

namespace GoGuard
namespace Pipe

open Lib Dlq
open Kafka (Input Result)

namespace Run

section LastError

variable (tape : Nat → Answer)

/-- The error of the last try, as the step or its breaker returned it. -/
def lastTry (st : Step) (event : Option Err → Event) : Nat → Run → Option Err
  | 0, r => (r.guarded tape st event).2
  | left + 1, r =>
    match r.guarded tape st event with
    | (_, none) => none
    | (r, some err) =>
      if (r.ask tape).ctx.isSome = true ∨
          (st.retry.retryable.getD Err.defaultRetryable) err = false ∨
          (r.ask tape).budget = false ∨ (r.ask tape).waited = false then
        some err
      else lastTry st event left r.next

/-- The last error of a call. -/
def lastError (r : Run) (st : Step) (event : Option Err → Event) : Option Err :=
  r.lastTry tape st event st.retry.maxRetries

variable {tape} {r : Run} {st : Step} {event : Option Err → Event}

/-- The loop returns the last error without a marker at its top. -/
theorem retryDo_snd (left : Nat) (r : Run) :
    (retryDo tape st event left r).2 =
      (lastTry tape st event left r).map Err.unwrapPermanent := by
  induction left generalizing r with
  | zero =>
    rcases hguarded : r.guarded tape st event with ⟨r', err⟩
    cases err with
    | none => simp only [retryDo, lastTry, hguarded, Option.map_none]
    | some err => simp only [retryDo, lastTry, hguarded, Option.map_some]
  | succ left ih =>
    rcases hguarded : r.guarded tape st event with ⟨r', err⟩
    simp only [retryDo, lastTry, hguarded]
    cases err with
    | none => rfl
    | some err =>
      simp only
      split
      · rfl
      · exact ih r'.next

theorem call_snd :
    (r.call tape st event).2 =
      (r.lastError tape st event).map fun err =>
        if st.retry.maxRetries > 0 then err.unwrapPermanent else err := by
  unfold call lastError
  split
  · exact retryDo_snd _ r
  · next h =>
    rw [Nat.eq_zero_of_not_pos h, lastTry, Option.map_id']

theorem call_eq_of_lastError {e : Err} (hlast : r.lastError tape st event = some e)
    (hperm : e.isPermanent = true)
    (hkept : st.retry.maxRetries = 0 ∨ e.unwrapPermanent.isPermanent = true) :
    ∃ err, (r.call tape st event).2 = some err ∧ err.isPermanent = true := by
  rw [call_snd, hlast]
  refine ⟨_, rfl, ?_⟩
  dsimp only
  rcases hkept with hzero | hmarked
  · rw [hzero, if_neg (Nat.lt_irrefl 0)]
    exact hperm
  · split
    · exact hmarked
    · exact hperm

end LastError

section Permanent

variable {tape : Nat → Answer} {p : Pipeline} {r : Run} {st : Step} {err : Err}

theorem classify_of_isPermanent (h : err.isPermanent = true) (ctx : Option CtxErr) (st : Step) :
    classify ctx st err = err := by
  rw [classify, if_pos h]

/-- A saga turns back, and what comes next is `compensate`. -/
def turnBack (tape : Nat → Answer) (p : Pipeline) (r : Run) (st : Step) (text : Bytes) :
    Run × Option Err :=
  match (r.turned st text).save tape with
  | (r, some err) => (r, some err)
  | (r, none) => r.compensate tape p

theorem failed_of_isPermanent (h : err.isPermanent = true) :
    r.failed tape p st err =
      if p.saga = true ∧ r.anyCompensation p = true then
        turnBack tape p r.next st (p.redactor err)
      else (r.next, some (.permanent (.stepFailed p.name st.name (p.redactor err)))) := by
  rw [failed, classify_of_isPermanent h, failedAs, if_neg (by simp [h])]
  rfl

end Permanent

end Run

section Results

variable {tape : Nat → Answer} {p : Pipeline} {r : Run} {st : Step} {e : Err}

/-- An error for which `Execute` and the redriver park the message. -/
structure Parks (tape : Nat → Answer) (p : Pipeline) (err : Err) : Prop where
  permanent : err.isPermanent = true
  notBlocked : err.asBlocked = none
  stored : ∀ inp r, settle tape p inp r (some err) =
    store tape r inp .parked [] (p.redactor err) .parked

theorem parks_of_isPermanent (hperm : e.isPermanent = true) (hblocked : e.asBlocked = none) :
    Parks tape p e := by
  refine ⟨hperm, hblocked, ?_⟩
  intro inp r
  simp only [settle, hblocked]
  rw [if_pos hperm]

end Results

section Example

/-- A step that marks its errors, with some in-process retries. -/
def refusingStep (maxRetries : Nat) : Step :=
  ⟨str "charge", [], none, ⟨maxRetries, none⟩, false⟩

def refusingPipeline (maxRetries : Nat) : Pipeline where
  name := str "order"
  version := str "1"
  steps := [refusingStep maxRetries]
  saga := false
  redactor := fun _ => str "error"
  name_ne := order_ne
  steps_ne := List.cons_ne_nil _ _
  step_name_ne := by simp [refusingStep, str]
  nodup := by simp

/-- Every call ends with the same error. -/
def refusingTape (err : Err) : Nat → Answer :=
  fun _ => ⟨none, .returned (some err), .empty, none, true, true, .ok, 0⟩

def declined : Err :=
  .other (str "card declined") false

end Example

end Pipe
end GoGuard
