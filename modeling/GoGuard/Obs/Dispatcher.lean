import GoGuard.Lib.Transition

/-!
# The event dispatcher

`Emit` never waits: an event goes into a bounded channel or is dropped and counted.
One goroutine takes the events out and runs the hook, `Close` waits for it.  All move
in any order.
-/

namespace GoGuard
namespace Obs

open Lib List

variable {α : Type}

/-- `Dispatcher`, and what happened to it: `busy` is the event the hook runs on,
`delivered` lists those it ran on, and `log` what was emitted and whether the channel
took it. -/
structure Dispatcher (α : Type) where
  buffer : Nat
  ch : List α
  busy : Option α
  closed : Bool
  done : Bool
  dropped : Nat
  panics : Nat
  delivered : List α
  log : List (α × Bool)

/-- `NewDispatcher`. -/
def newDispatcher (buffer : Int) : Dispatcher α :=
  ⟨if buffer ≤ 0 then 1024 else buffer.toNat, [], none, false, false, 0, 0, [], []⟩

inductive Act (α : Type) where
  | emit (e : α)
  /-- `Close` up to where it waits for `done` -/
  | close
  | take
  /-- the hook returns or panics -/
  | hooked (panicked : Bool)
  /-- the goroutine finds the channel closed and empty -/
  | finish

namespace Dispatcher

def step (d : Dispatcher α) : Act α → Option (Dispatcher α)
  | .emit e =>
    if d.closed ∨ d.ch.length ≥ d.buffer then
      some { d with dropped := d.dropped + 1, log := d.log ++ [(e, false)] }
    else some { d with ch := d.ch ++ [e], log := d.log ++ [(e, true)] }
  | .close => some { d with closed := true }
  | .take =>
    match d.ch, d.busy, d.done with
    | e :: ch, none, false => some { d with ch := ch, busy := some e }
    | _, _, _ => none
  | .hooked panicked =>
    match d.busy with
    | some e =>
      some { d with
        busy := none
        delivered := d.delivered ++ [e]
        panics := d.panics + panicked.toNat }
    | none => none
  | .finish =>
    if d.ch = [] ∧ d.busy = none ∧ d.closed ∧ ¬ d.done then some { d with done := true } else none

/-- The events the channel took. -/
def taken (d : Dispatcher α) : List α :=
  (d.log.filter Prod.snd).map Prod.fst

/-- Nothing is lost, doubled or overtaken. -/
structure Ok (d : Dispatcher α) : Prop where
  fifo : d.delivered ++ d.busy.toList ++ d.ch = d.taken
  bounded : d.ch.length ≤ d.buffer
  counted : d.dropped = d.log.countP fun x => ¬ x.2
  done : d.done → d.closed ∧ d.ch = [] ∧ d.busy = none

variable {d d' : Dispatcher α} {a : Act α}

theorem Ok.step (h : d.Ok) (hstep : d.step a = some d') : d'.Ok := by
  obtain ⟨hfifo, hbounded, hcounted, hdone⟩ := h
  cases a with
  | emit e =>
    simp only [step] at hstep
    split at hstep
    · cases hstep
      refine ⟨?_, hbounded, ?_, hdone⟩
      · simpa [taken] using hfifo
      · simpa using hcounted
    · next hroom =>
      cases hstep
      rw [not_or, Nat.not_le] at hroom
      refine ⟨?_, ?_, ?_, ?_⟩
      · simpa [taken] using congrArg (· ++ [e]) hfifo
      · simpa using Nat.succ_le_of_lt hroom.2
      · simpa using hcounted
      · exact fun h => absurd (hdone h).1 hroom.1
  | close =>
    cases hstep
    exact ⟨hfifo, hbounded, hcounted, fun h => ⟨rfl, (hdone h).2⟩⟩
  | take =>
    simp only [step] at hstep
    split at hstep
    · next e ch hch hbusy hopen =>
      cases hstep
      rw [hch, hbusy] at hfifo
      rw [hch] at hbounded
      refine ⟨?_, Nat.le_of_succ_le hbounded, hcounted, ?_⟩
      · simpa [taken] using hfifo
      · exact fun h => absurd (hopen.symm.trans h) (by decide)
    · cases hstep
  | hooked panicked =>
    simp only [step] at hstep
    split at hstep
    · next e hbusy =>
      cases hstep
      rw [hbusy] at hfifo hdone
      refine ⟨?_, hbounded, hcounted, fun h => absurd (hdone h).2.2 (by simp)⟩
      simpa [taken] using hfifo
    · cases hstep
  | finish =>
    obtain ⟨⟨hch, hbusy, hclosed, -⟩, rfl⟩ := of_guard hstep
    exact ⟨hfifo, hbounded, hcounted, fun _ => ⟨hclosed, hch, hbusy⟩⟩

/-- The goroutine empties a closed channel and ends. -/
theorem run_drain (hclosed : d.closed) (hdone : d.done = false) (hbusy : d.busy = none) :
    run step d ((d.ch.flatMap fun _ => [.take, .hooked false]) ++ [.finish]) =
      some { d with ch := [], delivered := d.delivered ++ d.ch, done := true } := by
  induction hch : d.ch generalizing d with
  | nil => simp [run, step, *]
  | cons x ch ih =>
    have hrest := ih (d := { d with ch := ch, delivered := d.delivered ++ [x] })
      hclosed hdone hbusy rfl
    simp [run, step, *]

/-- Of the events the channel took the hook has seen a first part, in their order; the
rest is on its way, and the other events are counted as dropped.  There is no rest
when `Close` returns, and it does return if the hook does. -/
theorem delivers_in_order (buffer : Int) (acts : List (Act α)) (d : Dispatcher α)
    (hrun : run step (newDispatcher buffer) acts = some d) :
    d.delivered ++ d.busy.toList ++ d.ch = d.taken ∧ d.ch.length ≤ d.buffer ∧
      d.taken.length + d.dropped = d.log.length ∧ (d.done → d.delivered = d.taken) ∧
      (d.closed → ∃ rest e, run step d rest = some e ∧ e.done ∧ e.delivered = d.taken) := by
  have h : d.Ok := by
    refine run_invariant step (fun _ _ _ hs => hs.step) ?_ hrun
    constructor <;> simp [newDispatcher, taken]
  have hall : d.done → d.delivered = d.taken := by
    intro hdone
    obtain ⟨-, hch, hbusy⟩ := h.done hdone
    simpa [hch, hbusy] using h.fifo
  refine ⟨h.fifo, h.bounded, ?_, hall, ?_⟩
  · rw [h.counted, taken, length_map, ← countP_eq_length_filter]
    exact (length_eq_countP_add_countP Prod.snd).symm
  · intro hclosed
    by_cases hdone : d.done
    · exact ⟨[], d, rfl, hdone, hall hdone⟩
    rw [Bool.not_eq_true] at hdone
    cases hbusy : d.busy with
    | none => exact ⟨_, _, run_drain hclosed hdone hbusy, rfl, by simpa [hbusy] using h.fifo⟩
    | some x =>
      have hhook : d.step (.hooked false) =
          some { d with busy := none, delivered := d.delivered ++ [x] } := by
        simp [step, hbusy]
      refine ⟨_, _, (run_cons_eq_some _).mpr ⟨_, hhook, run_drain hclosed hdone rfl⟩, rfl, ?_⟩
      simpa [hbusy] using h.fifo

/-- A full buffer, a hook that panics, an event after `Close`. -/
theorem delivers_in_order_demo :
    ∃ (acts : List (Act Nat)) (d : Dispatcher Nat),
      run step (newDispatcher 1) acts = some d ∧ d.dropped = 2 ∧ d.panics = 1 ∧
        d.delivered = d.taken := by
  obtain ⟨d, hrun, hdropped, hpanics, hdone⟩ : ∃ d, run step (newDispatcher 1)
      [.emit 1, .emit 2, .take, .emit 3, .hooked true, .close, .emit 4, .take, .hooked false,
        .finish] = some d ∧ d.dropped = 2 ∧ d.panics = 1 ∧ d.done := by
    decide
  exact ⟨_, d, hrun, hdropped, hpanics, (delivers_in_order 1 _ d hrun).2.2.2.1 hdone⟩

end Dispatcher
end Obs
end GoGuard
