import GoGuard.Lib.Transition

/-!
# Running and closing a service

`Run` starts the redriver and the consumer; `Close` cancels their context, waits for `Run`
and releases what the service owns.  Calls of both move in any order.
-/

namespace GoGuard
namespace Kafka

open Lib List

variable {ρ ε : Type}

/-- `Service`: `up` counts the parts that run, `errs` is what they sent at their end, `result`
what `Run` returned; `owned` is still to be released, in the order of `Close`. -/
structure Service (ρ ε : Type) where
  started : Bool
  closed : Bool
  canceled : Bool
  up : Nat
  errs : List (Option ε)
  result : Option (List ε)
  owned : List ρ
  released : List ρ

namespace Service

inductive Act (ε : Type) where
  | run
  | ends (err : Option ε)
  /-- `Run` has the first error and stops the other part -/
  | stop
  | returns
  | close
  /-- the `Close` that was not turned away goes on -/
  | release

/-- One move; calls of `Run` and `Close` that are turned away are none. -/
def step (isCanceled : ε → Bool) (s : Service ρ ε) : Act ε → Option (Service ρ ε)
  | .run => if s.closed ∨ s.started then none else some { s with started := true, up := 2 }
  | .ends err =>
    if 0 < s.up then some { s with up := s.up - 1, errs := s.errs ++ [err] } else none
  | .stop => if s.errs = [] then none else some { s with canceled := true }
  | .returns =>
    if s.errs.length = 2 ∧ s.canceled ∧ s.result.isNone then
      some { s with result := some ((s.errs.filterMap id).filter fun e => !isCanceled e) }
    else none
  | .close =>
    if s.closed then none
    else some { s with closed := true, canceled := s.canceled || s.started }
  | .release =>
    if s.closed ∧ (s.started → s.result.isSome) ∧ s.owned ≠ [] then
      some { s with owned := s.owned.drop 1, released := s.released ++ s.owned.take 1 }
    else none

structure Ok (owned : List ρ) (s : Service ρ ε) : Prop where
  once : s.released ++ s.owned = owned
  parts : s.errs.length + s.up = if s.started then 2 else 0
  result : s.result.isSome → s.errs.length = 2
  closing : s.closed → s.started → s.canceled
  quiet : s.released ≠ [] → s.closed ∧ (s.started → s.result.isSome)

variable {isCanceled : ε → Bool} {owned : List ρ} {s t : Service ρ ε} {a : Act ε}

theorem Ok.step (h : s.Ok owned) (hstep : s.step isCanceled a = some t) : t.Ok owned := by
  obtain ⟨honce, hparts, hresult, hclosing, hquiet⟩ := h
  cases a with
  | run =>
    obtain ⟨hnew, rfl⟩ := of_guard_not hstep
    constructor <;> simp_all
  | ends err =>
    obtain ⟨hup, rfl⟩ := of_guard hstep
    -- `Run` waits for the part that ends
    refine ⟨honce, ?_, ?_, hclosing, hquiet⟩ <;> grind
  | stop =>
    obtain ⟨-, rfl⟩ := of_guard_not hstep
    exact ⟨honce, hparts, hresult, fun _ _ => rfl, hquiet⟩
  | returns =>
    obtain ⟨⟨hlen, -⟩, rfl⟩ := of_guard hstep
    exact ⟨honce, hparts, fun _ => hlen, hclosing, fun h => ⟨(hquiet h).1, fun _ => rfl⟩⟩
  | close =>
    obtain ⟨hopen, rfl⟩ := of_guard_not hstep
    exact ⟨honce, hparts, hresult, by simp_all, fun h => absurd (hquiet h).1 hopen⟩
  | release =>
    obtain ⟨⟨hclosed, hdone, -⟩, rfl⟩ := of_guard hstep
    refine ⟨?_, hparts, hresult, hclosing, fun _ => ⟨hclosed, hdone⟩⟩
    rw [append_assoc, take_append_drop, honce]

end Service
end Kafka
end GoGuard
