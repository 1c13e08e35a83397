import GoGuard.Breaker.Window
import GoGuard.Lib.Transition

/-!
# The circuit breaker and its permits

The breaker of `internal/breaker` with the permits that `Acquire` hands out and the
results a health check delivers, each operation as one step.  The generator behind the
jitter is outside the model: a step says what it returned.  A call that waits for a
bulkhead slot decides when it has waited, and is one step then.

Beside the breaker stand when each permit was admitted and the number of the episode it
was admitted in; an episode ends with every change of state.  No operation reads them.

Who is admitted is decided by the state, the probe slot and the override.  They make a
small machine of their own (`Slot`), which the operations of the breaker follow; what a
step can do is said once in its terms (`Traffic.Turn`).
-/

namespace GoGuard
namespace Breaker

open Lib

section Model

inductive BreakerState where
  | stateClosed
  | stateOpen
  | stateHalfOpen
deriving DecidableEq

inductive Override where
  | none
  | forceOpen
  | forceClosed
deriving DecidableEq

/-- What the breaker reads of `health.Config`. -/
structure Health where
  successThreshold : Int
  trustHealth : Bool
  maxOpen : Int
deriving DecidableEq

/-- What the breaker reads of its `Config`; the threshold is in basis points. -/
structure Config where
  failureThreshold : Int
  minSamples : Int
  samplingWindow : Int
  bucketDuration : Int
  sleepWindow : Int
  maxInflight : Int
  dryRun : Bool
  health : Option Health
deriving DecidableEq

/-- How long a health check owns the way out of the open state; `none` without one.  A
bound of 0 stands for ever. -/
def Config.gate (cfg : Config) : Option Int :=
  cfg.health.map fun h => if h.maxOpen < 0 then 0 else h.maxOpen

/-- `Breaker` of `internal/breaker`, without what never changes. -/
structure Circuit where
  state : BreakerState
  metrics : RollingWindow
  lastFailure : Int
  inflight : Int
  probing : Bool
  probeAt : Int
  override : Override
deriving DecidableEq

/-- `NewBreaker`. -/
def Circuit.new (cfg : Config) (now : Int) : Circuit where
  state := .stateClosed
  metrics := newRollingWindow cfg.samplingWindow cfg.bucketDuration now
  lastFailure := 0
  inflight := 0
  probing := false
  probeAt := 0
  override := .none

namespace Circuit

/-- `transition`: none if the circuit is not in the first state. -/
def transition (b : Circuit) (now : Int) (src dst : BreakerState) : Option Circuit :=
  if b.state = src then
    some { b with
      state := dst
      -- a circuit that has recovered starts from a clean slate
      metrics := if dst = .stateClosed then b.metrics.reset now else b.metrics }
  else none

/-- A call gets an in-flight slot. -/
def room (cfg : Config) (b : Circuit) (vip : Bool) : Bool :=
  cfg.maxInflight ≤ 0 || vip || b.inflight < cfg.maxInflight

/-- `acquire`, when it decides: a reservation of an in-flight slot. -/
def acquire (cfg : Config) (b : Circuit) (vip : Bool) : Option Circuit :=
  if b.room cfg vip then some { b with inflight := b.inflight + 1 } else none

/-- A health check owns the way out of the open state. -/
def gated (cfg : Config) (b : Circuit) (now : Int) : Bool :=
  match cfg.gate with
  | none => false
  | some maxOpen => maxOpen ≤ 0 || now - b.lastFailure < maxOpen

/-- The jitter on the sleep window; `rnd` is what the generator returned. -/
def jitter (cfg : Config) (rnd : Nat) : Int :=
  if cfg.sleepWindow.tdiv 10 > 0 then (rnd : Int) % cfg.sleepWindow.tdiv 10 else 0

/-- An open circuit that no health check owns has waited long enough. -/
def due (cfg : Config) (b : Circuit) (now : Int) (rnd : Nat) : Bool :=
  !b.gated cfg now && now - b.lastFailure > cfg.sleepWindow + jitter cfg rnd

/-- The probe slot is taken at `now`. -/
def takeProbe (b : Circuit) (now : Int) : Circuit :=
  { b with probing := true, probeAt := now }

/-- `circuitAllows`. -/
def circuitAllows (cfg : Config) (b : Circuit) (now : Int) (rnd : Nat) : Bool × Circuit :=
  match b.state with
  | .stateOpen =>
    if b.due cfg now rnd then
      match b.transition now .stateOpen .stateHalfOpen with
      | some b => if b.probing = false then (true, b.takeProbe now) else (cfg.dryRun, b)
      | none => (cfg.dryRun, b)
    else (cfg.dryRun, b)
  | .stateHalfOpen =>
    if b.probing = false then (true, b.takeProbe now)
    -- a probe that never reports back is superseded
    else if b.probeAt ≠ 0 ∧ now - b.probeAt > cfg.sleepWindow then
      (true, { b with probeAt := now })
    else (cfg.dryRun, b)
  | .stateClosed => (true, b)

inductive Verdict where
  | admitted
  | rejectedOpen
  | rejectedBulkhead
deriving DecidableEq

/-- `AllowEx`. -/
def allowEx (cfg : Config) (b : Circuit) (now : Int) (rnd : Nat) (vip : Bool) : Verdict × Circuit :=
  match b.override with
  | .forceOpen => (.rejectedOpen, b)
  | .forceClosed => (.admitted, { b with inflight := b.inflight + 1 })
  | .none =>
    match b.acquire cfg vip with
    | none => (.rejectedBulkhead, b)
    | some b =>
      match b.circuitAllows cfg now rnd with
      | (true, b) => (.admitted, b)
      | (false, b) => (.rejectedOpen, { b with inflight := b.inflight - 1 })

/-- `Abandon`. -/
def abandon (b : Circuit) : Circuit :=
  { b with
    inflight := b.inflight - 1
    probing := if b.state = .stateHalfOpen then false else b.probing }

/-- `recordSuccess`. -/
def recordSuccess (b : Circuit) (now latency : Int) : Circuit :=
  let us := latency.tdiv 1000
  let b := { b with metrics := b.metrics.success now (if us ≤ 0 then -1 else us) }
  match b.transition now .stateHalfOpen .stateClosed with
  | some b => { b with probing := false }
  | none => b

/-- `recordFailure`. -/
def recordFailure (cfg : Config) (b : Circuit) (now : Int) : Circuit :=
  let b := { b with metrics := b.metrics.failure now, lastFailure := now }
  match b.transition now .stateHalfOpen .stateOpen with
  | some b => { b with probing := false }
  | none =>
    let (metrics, success, failure) := b.metrics.counts now
    let b := { b with metrics := metrics }
    if cfg.minSamples > 0 ∧ success + failure < cfg.minSamples then b
    else
      let (metrics, rate) := b.metrics.failureRateBps now
      let b := { b with metrics := metrics }
      if rate ≥ cfg.failureThreshold then
        (b.transition now .stateClosed .stateOpen).getD b
      else b

/-- `MarkSuccess`. -/
def markSuccess (b : Circuit) (now latency : Int) : Circuit :=
  recordSuccess { b with inflight := b.inflight - 1 } now latency

/-- `MarkFailure`. -/
def markFailure (cfg : Config) (b : Circuit) (now : Int) : Circuit :=
  recordFailure cfg { b with inflight := b.inflight - 1 } now

/-- `BeginProbe`. -/
def beginProbe (b : Circuit) (now : Int) : Circuit :=
  let b := { b with probing := false }
  (b.transition now .stateOpen .stateHalfOpen).getD b

/-- `ResetClosed`. -/
def resetClosed (b : Circuit) (now : Int) : Circuit :=
  let b := { b with probing := false }
  match b.transition now .stateHalfOpen .stateClosed with
  | some b => b
  | none => (b.transition now .stateOpen .stateClosed).getD b

/-- `ReopenFromProbe`. -/
def reopenFromProbe (b : Circuit) (now : Int) : Circuit :=
  match b.transition now .stateHalfOpen .stateOpen with
  | some b => { b with lastFailure := now, probing := false }
  | none => b

/-- `healthTarget.Result`. -/
def result (h : Health) (b : Circuit) (now : Int) (healthy : Bool) (consecutive : Int) : Circuit :=
  if healthy = false then b.reopenFromProbe now
  else if consecutive < h.successThreshold then b
  else if h.trustHealth then b.resetClosed now
  else b.beginProbe now

end Circuit

/-- `Permit`, and when and in which episode it was admitted. -/
structure Permit where
  id : Nat
  admittedAt : Int
  episode : Nat
  done : Bool
deriving DecidableEq

/-- A breaker with its permits, the newest first. -/
structure Traffic where
  circuit : Circuit
  permits : List Permit
  episode : Nat
  clock : Int
deriving DecidableEq

def Traffic.new (cfg : Config) (now : Int) : Traffic where
  circuit := .new cfg now
  permits := []
  episode := 0
  clock := now

inductive Act where
  | acquire (now : Int) (rnd : Nat) (vip : Bool)
  | success (now : Int) (id : Nat) (latency : Int)
  | failure (now : Int) (id : Nat)
  | abandon (now : Int) (id : Nat)
  | result (now : Int) (healthy : Bool) (consecutive : Int)
  | setOverride (now : Int) (o : Override)
deriving DecidableEq

/-- The clock reading of an operation. -/
def Act.now : Act → Int
  | .acquire now _ _ => now
  | .success now _ _ => now
  | .failure now _ => now
  | .abandon now _ => now
  | .result now _ _ => now
  | .setOverride now _ => now

namespace Traffic

/-- The breaker behind an operation at `now`. -/
def after (s : Traffic) (now : Int) (b : Circuit) : Traffic where
  circuit := b
  permits := s.permits
  episode := if b.state = s.circuit.state then s.episode else s.episode + 1
  clock := now

/-- The permit with this number. -/
def permit (s : Traffic) (id : Nat) : Option Permit :=
  s.permits.find? (·.id = id)

/-- The permit with this number is done. -/
def markDone (id : Nat) (p : Permit) : Permit :=
  if p.id = id then { p with done := true } else p

/-- A permit is finished. -/
def finished (s : Traffic) (now : Int) (id : Nat) (b : Circuit) : Traffic :=
  { s.after now b with permits := s.permits.map (markDone id) }

/-- The first of `Success`, `Failure` and `Abandon` on a permit takes effect. -/
def finish (s : Traffic) (now : Int) (id : Nat) (b : Circuit) : Option Traffic :=
  match s.permit id with
  | none => none
  | some p => if p.done then some { s with clock := now } else some (s.finished now id b)

/-- A permit is handed out. -/
def admitted (s : Traffic) (now : Int) (b : Circuit) : Traffic :=
  { s.after now b with
    permits := ⟨s.permits.length, now, (s.after now b).episode, false⟩ :: s.permits }

/-- `Acquire`. -/
def acquire (cfg : Config) (s : Traffic) (now : Int) (rnd : Nat) (vip : Bool) : Traffic :=
  match s.circuit.allowEx cfg now rnd vip with
  | (.admitted, b) => s.admitted now b
  | (_, b) => s.after now b

/-- One operation; the clock does not go back. -/
def step (cfg : Config) (s : Traffic) (a : Act) : Option Traffic :=
  if a.now < s.clock then none
  else
    match a with
    | .acquire now rnd vip => some (s.acquire cfg now rnd vip)
    | .success now id latency => s.finish now id (s.circuit.markSuccess now latency)
    | .failure now id => s.finish now id (s.circuit.markFailure cfg now)
    | .abandon now id => s.finish now id s.circuit.abandon
    | .result now healthy consecutive =>
      match cfg.health with
      | none => none
      | some h => some (s.after now (s.circuit.result h now healthy consecutive))
    | .setOverride now o => some { s with circuit := { s.circuit with override := o }, clock := now }

end Traffic

end Model

section Slots

/-- What decides who is admitted: the state, the probe slot and the override. -/
structure Slot where
  state : BreakerState
  probing : Bool
  probeAt : Int
  override : Override
deriving DecidableEq

def Circuit.slot (b : Circuit) : Slot :=
  ⟨b.state, b.probing, b.probeAt, b.override⟩

/-- The verdict on a call that the circuit does not admit by itself. -/
def dryVerdict (cfg : Config) : Circuit.Verdict :=
  if cfg.dryRun then .admitted else .rejectedOpen

namespace Slot

/-- The effect of `Acquire`. -/
def allow (cfg : Config) (s : Slot) (now : Int) (due room : Bool) : Circuit.Verdict × Slot :=
  match s.override with
  | .forceOpen => (.rejectedOpen, s)
  | .forceClosed => (.admitted, s)
  | .none =>
    if room = false then (.rejectedBulkhead, s)
    else
      match s.state with
      | .stateClosed => (.admitted, s)
      | .stateOpen =>
        if due = false then (dryVerdict cfg, s)
        else if s.probing = false then (.admitted, ⟨.stateHalfOpen, true, now, s.override⟩)
        else (dryVerdict cfg, { s with state := .stateHalfOpen })
      | .stateHalfOpen =>
        if s.probing = false then (.admitted, { s with probing := true, probeAt := now })
        else if s.probeAt ≠ 0 ∧ now - s.probeAt > cfg.sleepWindow then
          (.admitted, { s with probeAt := now })
        else (dryVerdict cfg, s)

/-- The effect of `Success`. -/
def succeed (s : Slot) : Slot :=
  if s.state = .stateHalfOpen then { s with state := .stateClosed, probing := false } else s

/-- The effect of `Failure`; `trips` says that the window has reached the threshold. -/
def fail (s : Slot) (trips : Bool) : Slot :=
  match s.state with
  | .stateHalfOpen => { s with state := .stateOpen, probing := false }
  | .stateClosed => if trips then { s with state := .stateOpen } else s
  | .stateOpen => s

/-- The effect of `Abandon`. -/
def abandon (s : Slot) : Slot :=
  if s.state = .stateHalfOpen then { s with probing := false } else s

/-- The effect of a health result. -/
def result (h : Health) (s : Slot) (healthy : Bool) (consecutive : Int) : Slot :=
  if healthy = false then
    if s.state = .stateHalfOpen then { s with state := .stateOpen, probing := false } else s
  else if consecutive < h.successThreshold then s
  else if h.trustHealth then { s with state := .stateClosed, probing := false }
  else
    { s with
      state := if s.state = .stateOpen then .stateHalfOpen else s.state
      probing := false }

end Slot

/-- The verdict of `circuitAllows`. -/
def verdictOf (ok : Bool) : Circuit.Verdict :=
  if ok then .admitted else .rejectedOpen

theorem slot_circuitAllows (cfg : Config) {b : Circuit} (now : Int) (rnd : Nat)
    (hover : b.override = .none) :
    (verdictOf (b.circuitAllows cfg now rnd).1, (b.circuitAllows cfg now rnd).2.slot) =
      b.slot.allow cfg now (b.due cfg now rnd) true := by
  obtain ⟨state, metrics, lastFailure, inflight, probing, probeAt, override⟩ := b
  cases hover
  cases state with
  | stateClosed => rfl
  | stateHalfOpen =>
    cases probing with
    | false => rfl
    | true =>
      by_cases hlate : probeAt ≠ 0 ∧ now - probeAt > cfg.sleepWindow
      · simp [Circuit.circuitAllows, Slot.allow, Circuit.slot, verdictOf, hlate]
      · simp [Circuit.circuitAllows, Slot.allow, Circuit.slot, verdictOf, dryVerdict, hlate]
  | stateOpen =>
    simp only [Circuit.circuitAllows, Slot.allow, Circuit.slot]
    split
    · next hdue =>
      cases probing with
      | false => simp [hdue, Circuit.transition, Circuit.takeProbe, verdictOf]
      | true => simp [hdue, Circuit.transition, verdictOf, dryVerdict]
    · next hdue => simp [hdue, verdictOf, dryVerdict]

theorem slot_allowEx (cfg : Config) (b : Circuit) (now : Int) (rnd : Nat) (vip : Bool) :
    ((b.allowEx cfg now rnd vip).1, (b.allowEx cfg now rnd vip).2.slot) =
      b.slot.allow cfg now (b.due cfg now rnd) (b.room cfg vip) := by
  obtain ⟨state, metrics, lastFailure, inflight, probing, probeAt, override⟩ := b
  cases override with
  | forceOpen => rfl
  | forceClosed => rfl
  | none =>
    simp only [Circuit.allowEx, Circuit.acquire]
    cases hroom : Circuit.room cfg ⟨state, metrics, lastFailure, inflight, probing, probeAt,
        .none⟩ vip with
    | false => rfl
    | true =>
      have hallow := slot_circuitAllows cfg (b := ⟨state, metrics, lastFailure, inflight + 1,
        probing, probeAt, .none⟩) now rnd rfl
      simp only [if_true]
      split
      · next c hc =>
        rw [hc] at hallow
        exact hallow
      · next c hc =>
        rw [hc] at hallow
        exact hallow

theorem slot_markSuccess (b : Circuit) (now latency : Int) :
    (b.markSuccess now latency).slot = b.slot.succeed := by
  obtain ⟨state, metrics, lastFailure, inflight, probing, probeAt, override⟩ := b
  cases state <;> rfl

theorem slot_markFailure (cfg : Config) (b : Circuit) (now : Int) :
    ∃ trips, (b.markFailure cfg now).slot = b.slot.fail trips := by
  obtain ⟨state, metrics, lastFailure, inflight, probing, probeAt, override⟩ := b
  cases state with
  | stateHalfOpen => exact ⟨false, rfl⟩
  | stateOpen =>
    refine ⟨false, ?_⟩
    unfold Circuit.markFailure Circuit.recordFailure
    simp only [Circuit.transition]
    rw [if_neg (by decide)]
    simp only
    split
    · rfl
    · split <;> rfl
  | stateClosed =>
    unfold Circuit.markFailure Circuit.recordFailure
    simp only [Circuit.transition]
    rw [if_neg (by decide)]
    simp only
    split
    · exact ⟨false, rfl⟩
    · split
      · exact ⟨true, rfl⟩
      · exact ⟨false, rfl⟩

theorem slot_abandon (b : Circuit) : b.abandon.slot = b.slot.abandon := by
  obtain ⟨state, metrics, lastFailure, inflight, probing, probeAt, override⟩ := b
  cases state <;> rfl

theorem slot_result (h : Health) (b : Circuit) (now : Int) (healthy : Bool) (consecutive : Int) :
    (b.result h now healthy consecutive).slot = b.slot.result h healthy consecutive := by
  obtain ⟨state, metrics, lastFailure, inflight, probing, probeAt, override⟩ := b
  unfold Circuit.result Slot.result
  split
  · cases state <;> rfl
  · split
    · rfl
    · split
      · cases state <;> rfl
      · cases state <;> rfl

end Slots

section Turns

/-- What a step can do. -/
inductive Traffic.Turn (cfg : Config) (s : Traffic) : Act → Traffic → Prop
  | refused
      {now : Int} {rnd : Nat} {vip due room : Bool} {v : Circuit.Verdict} {b : Circuit}
      (hslot : (v, b.slot) = s.circuit.slot.allow cfg now due room)
      (hv : v ≠ .admitted) :
      Turn cfg s (.acquire now rnd vip) (s.after now b)
  | admitted
      {now : Int} {rnd : Nat} {vip due room : Bool} {b : Circuit}
      (hslot : (.admitted, b.slot) = s.circuit.slot.allow cfg now due room) :
      Turn cfg s (.acquire now rnd vip) (s.admitted now b)
  | ignored
      {a : Act} :
      Turn cfg s a { s with clock := a.now }
  | succeeded
      {now latency : Int} {id : Nat} {p : Permit} {b : Circuit}
      (hp : s.permit id = some p)
      (hlive : p.done = false)
      (hslot : b.slot = s.circuit.slot.succeed) :
      Turn cfg s (.success now id latency) (s.finished now id b)
  | failed
      {now : Int} {id : Nat} {p : Permit} {trips : Bool} {b : Circuit}
      (hp : s.permit id = some p)
      (hlive : p.done = false)
      (hslot : b.slot = s.circuit.slot.fail trips) :
      Turn cfg s (.failure now id) (s.finished now id b)
  | abandoned
      {now : Int} {id : Nat} {p : Permit} {b : Circuit}
      (hp : s.permit id = some p)
      (hlive : p.done = false)
      (hslot : b.slot = s.circuit.slot.abandon) :
      Turn cfg s (.abandon now id) (s.finished now id b)
  | checked
      {now consecutive : Int} {healthy : Bool} {h : Health} {b : Circuit}
      (hh : cfg.health = some h)
      (hslot : b.slot = s.circuit.slot.result h healthy consecutive) :
      Turn cfg s (.result now healthy consecutive) (s.after now b)
  | forced
      {now : Int} {o : Override} :
      Turn cfg s (.setOverride now o)
        { s with circuit := { s.circuit with override := o }, clock := now }

variable {cfg : Config} {s s' : Traffic} {now : Int} {id : Nat} {b : Circuit}

theorem finish_eq_some (h : s.finish now id b = some s') :
    ∃ p, s.permit id = some p ∧
      (p.done = true ∧ s' = { s with clock := now } ∨ p.done = false ∧ s' = s.finished now id b) := by
  unfold Traffic.finish at h
  split at h
  · cases h
  · next p hp =>
    refine ⟨p, hp, ?_⟩
    split at h
    · next hdone =>
      cases h
      exact .inl ⟨hdone, rfl⟩
    · next hlive =>
      cases h
      exact .inr ⟨by simpa using hlive, rfl⟩

theorem Traffic.turn_of_step {a : Act} (hstep : s.step cfg a = some s') :
    s.clock ≤ a.now ∧ s.Turn cfg a s' := by
  obtain ⟨htime, hstep⟩ := of_unless hstep
  refine ⟨Int.not_lt.mp htime, ?_⟩
  cases a with
  | acquire now rnd vip =>
    cases hstep
    have hslot := slot_allowEx cfg s.circuit now rnd vip
    unfold Traffic.acquire
    split
    · next b hanswer =>
      rw [hanswer] at hslot
      exact .admitted hslot
    · next v b hv hanswer =>
      rw [hanswer] at hslot
      exact .refused hslot hv
  | success now id latency =>
    obtain ⟨p, hp, ⟨hdone, rfl⟩ | ⟨hlive, rfl⟩⟩ := finish_eq_some hstep
    · exact .ignored
    · exact .succeeded hp hlive (slot_markSuccess _ now latency)
  | failure now id =>
    obtain ⟨p, hp, ⟨hdone, rfl⟩ | ⟨hlive, rfl⟩⟩ := finish_eq_some hstep
    · exact .ignored
    · obtain ⟨trips, hslot⟩ := slot_markFailure cfg s.circuit now
      exact .failed hp hlive hslot
  | abandon now id =>
    obtain ⟨p, hp, ⟨hdone, rfl⟩ | ⟨hlive, rfl⟩⟩ := finish_eq_some hstep
    · exact .ignored
    · exact .abandoned hp hlive (slot_abandon _)
  | result now healthy consecutive =>
    simp only at hstep
    split at hstep
    · cases hstep
    · next h hh =>
      cases hstep
      exact .checked hh (slot_result h _ now healthy consecutive)
  | setOverride now o =>
    cases hstep
    exact .forced

end Turns

section States

variable {cfg : Config} {s s' : Traffic} {x y : Slot} {a : Act}

theorem allow_state {now : Int} {due room : Bool} {v : Circuit.Verdict}
    (hallow : (v, y) = x.allow cfg now due room) :
    y.state = x.state ∨ x.state = .stateOpen ∧ y.state = .stateHalfOpen := by
  have hy : y = (x.allow cfg now due room).2 := congrArg Prod.snd hallow
  rw [hy]
  unfold Slot.allow
  split
  · exact .inl rfl
  · exact .inl rfl
  · split
    · exact .inl rfl
    · split
      · exact .inl rfl
      · next hopen =>
        split
        · exact .inl rfl
        · split
          · exact .inr ⟨hopen, rfl⟩
          · exact .inr ⟨hopen, rfl⟩
      · split
        · exact .inl rfl
        · split
          · exact .inl rfl
          · exact .inl rfl

theorem result_state (h : Health) (x : Slot) (healthy : Bool) (consecutive : Int) :
    (x.result h healthy consecutive).state = .stateHalfOpen →
      x.state = .stateHalfOpen ∨ x.state = .stateOpen := by
  unfold Slot.result
  split
  · split
    · exact fun h => nomatch h
    · exact fun h => .inl h
  · split
    · exact fun h => .inl h
    · split
      · exact fun h => nomatch h
      · cases x.state with
        | stateClosed => exact fun h => nomatch h
        | stateOpen => exact fun _ => .inr rfl
        | stateHalfOpen => exact fun _ => .inl rfl

theorem fail_state (x : Slot) (trips : Bool) :
    (x.fail trips).state ≠ .stateHalfOpen ∨ x.fail trips = x := by
  unfold Slot.fail
  split
  · exact .inl fun h => nomatch h
  · split
    · exact .inl fun h => nomatch h
    · exact .inr rfl
  · exact .inr rfl

theorem succeed_state (x : Slot) : x.succeed.state ≠ .stateHalfOpen ∨ x.succeed = x := by
  unfold Slot.succeed
  split
  · exact .inl fun h => nomatch h
  · exact .inr rfl

theorem abandon_state (x : Slot) : x.abandon.state = x.state := by
  unfold Slot.abandon
  split
  · rfl
  · rfl

theorem half_before (hstep : s.step cfg a = some s') (hhalf : s'.circuit.state = .stateHalfOpen) :
    s.circuit.state = .stateHalfOpen ∨ s.circuit.state = .stateOpen := by
  have hsame {b : Circuit} (hb : b.slot = s.circuit.slot) (hhalf : b.slot.state = .stateHalfOpen) :
      s.circuit.state = .stateHalfOpen :=
    (congrArg Slot.state hb).symm.trans hhalf
  obtain ⟨-, hturn⟩ := Traffic.turn_of_step hstep
  cases hturn with
  | refused hslot | admitted hslot =>
    rcases allow_state hslot with hstate | ⟨hopen, -⟩
    · exact .inl (hstate.symm.trans hhalf)
    · exact .inr hopen
  | ignored => exact .inl hhalf
  | succeeded hp hlive hslot =>
    rcases succeed_state s.circuit.slot with hother | heq
    · exact absurd ((congrArg Slot.state hslot).symm.trans hhalf) hother
    · exact .inl (hsame (hslot.trans heq) hhalf)
  | @failed now id p trips b hp hlive hslot =>
    rcases fail_state s.circuit.slot trips with hother | heq
    · exact absurd ((congrArg Slot.state hslot).symm.trans hhalf) hother
    · exact .inl (hsame (hslot.trans heq) hhalf)
  | abandoned hp hlive hslot =>
    have hstate := (congrArg Slot.state hslot).trans (abandon_state s.circuit.slot)
    exact .inl (hstate.symm.trans hhalf)
  | checked hh hslot =>
    exact result_state _ _ _ _ ((congrArg Slot.state hslot).symm.trans hhalf)
  | forced => exact .inl hhalf

end States

end Breaker
end GoGuard
