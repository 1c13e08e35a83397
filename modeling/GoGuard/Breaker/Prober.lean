import GoGuard.Breaker.Circuit
import GoGuard.Lib.Parties
import Mathlib.Tactic

/-!
# The health prober of a breaker

A breaker with a health check, every goroutine that can start, be or end its prober, and
the traffic, all interleaved.  When the circuit opens, whoever opened it runs
`OnStateChange`: it counts the opening and calls `startProber`.  The prober is the loop
of `health.Run`, with `startProber`'s goroutine around it.  Each read or write of a shared
variable is a step of its own.  How long the prober waits and what it emits are outside
the model, and so are the counters only the wait depends on.

The flag `proberRunning` is held by one goroutine at a time, from its compare-and-swap to
its release.  A circuit that is not closed always has somebody on the way to it: a call
of `OnStateChange`, a prober, or one that leaves and will look once more.
-/

namespace GoGuard
namespace Breaker

open Lib List

section Model

/-- What the goroutines share beside the circuit. -/
structure Shared where
  opens : Nat
  proberRunning : Bool
  closed : Bool
  cancelled : Bool
deriving DecidableEq

/-- Where a call of `OnStateChange` for an opening stands: before it counts the opening,
before the compare-and-swap of `startProber`, before `addWorker`, or before it gives the
flag back. -/
inductive Stage where
  | count
  | start
  | register
  | drop
deriving DecidableEq

/-- Where the prober stands.  Up to `reporting` it is inside `health.Run`. -/
inductive Phase where
  | begin
  | waiting
  | looking
  | checking
  | ready
  | probing
  | probed (ok : Bool)
  | reporting (ok : Bool)
  | exiting
  | released
  | doubting
  | rechecked
deriving DecidableEq

/-- The variables of `health.Run`; beside them when the last probe started, and when each
probe of the current healthy run did. -/
structure Prober where
  gen : Nat
  consecutive : Nat
  started : Nat
  begun : List Nat
deriving DecidableEq

/-- `health.Run` with nothing counted yet. -/
def Prober.fresh (gen : Nat) : Prober where
  gen := gen
  consecutive := 0
  started := 0
  begun := []

/-- The counters after a probe. -/
def Prober.judge (p : Prober) (ok : Bool) : Prober :=
  if ok then { p with consecutive := p.consecutive + 1, begun := p.begun ++ [p.started] }
  else { p with consecutive := 0, begun := [] }

/-- A goroutine.  A call of `OnStateChange` is made by traffic, or by the prober with this
number, which goes on when it returns. -/
inductive Thread where
  | calling (stage : Stage) (caller : Option Nat)
  | prober (phase : Phase) (p : Prober)
  | done
deriving DecidableEq

/-- `Active`. -/
def BreakerState.active : BreakerState → Bool
  | .stateClosed => false
  | .stateOpen | .stateHalfOpen => true

/-- The next step of a goroutine.  `ok` is what the environment decides: whether the timer
or the context ends a wait, and what a probe finds. -/
def Thread.next (cfg : Config) (state : BreakerState) (moment : Nat) (sh : Shared) (ok : Bool) :
    Thread → Option (Thread × Shared)
  | .calling .count caller => some (.calling .start caller, { sh with opens := sh.opens + 1 })
  | .calling .start caller =>
    if cfg.health = none ∨ sh.proberRunning = true then some (.done, sh)
    else some (.calling .register caller, { sh with proberRunning := true })
  | .calling .register caller =>
    if sh.closed then some (.calling .drop caller, sh)
    else some (.prober .begin (.fresh 0), sh)
  | .calling .drop _ => some (.done, { sh with proberRunning := false })
  | .prober .begin _ => some (.prober .waiting (.fresh sh.opens), sh)
  | .prober .waiting p =>
    if ok then some (.prober .looking p, sh)
    else if sh.cancelled then some (.prober .exiting p, sh)
    else none
  | .prober .looking p =>
    if state.active then some (.prober .checking p, sh) else some (.prober .exiting p, sh)
  | .prober .checking p =>
    some (.prober .ready (if sh.opens ≠ p.gen then .fresh sh.opens else p), sh)
  | .prober .ready p => some (.prober .probing { p with started := moment }, sh)
  | .prober .probing p => some (.prober (.probed ok) p, sh)
  | .prober (.probed healthy) p =>
    if sh.cancelled then some (.prober .exiting p, sh)
    else some (.prober (.reporting healthy) (p.judge healthy), sh)
  -- `Result` itself is in `Watch.advance`
  | .prober (.reporting _) p => some (.prober .waiting p, sh)
  | .prober .exiting p => some (.prober .released p, { sh with proberRunning := false })
  | .prober .released p =>
    if sh.cancelled then some (.done, sh) else some (.prober .doubting p, sh)
  | .prober .doubting p =>
    if state.active then some (.prober .rechecked p, sh) else some (.done, sh)
  | .prober .rechecked p =>
    if sh.proberRunning then some (.done, sh)
    else some (.prober .begin p, { sh with proberRunning := true })
  | .done => none

/-- A breaker with its traffic and its goroutines, the number of steps made, and the step
that opened the circuit last. -/
structure Watch where
  traffic : Traffic
  shared : Shared
  threads : List Thread
  moment : Nat
  openedAt : Nat
deriving DecidableEq

/-- `New`. -/
def Watch.new (cfg : Config) (now : Int) : Watch where
  traffic := .new cfg now
  shared := ⟨0, false, false, false⟩
  threads := []
  moment := 1
  openedAt := 0

inductive WatchAct where
  | traffic (a : Act)
  | advance (k : Nat) (now : Int) (ok : Bool)
  | close
  | cancel
deriving DecidableEq

namespace Watch

/-- The state of the circuit. -/
def state (w : Watch) : BreakerState :=
  w.traffic.circuit.state

/-- The circuit after an operation; if it opened it, `OnStateChange` is called. -/
def moved (w : Watch) (t : Traffic) (caller : Option Nat) : Watch :=
  if w.state ≠ .stateOpen ∧ t.circuit.state = .stateOpen then
    { w with
      traffic := t
      threads := w.threads ++ [.calling .count caller]
      openedAt := w.moment }
  else { w with traffic := t }

/-- The goroutine waits for a call of `OnStateChange` that it made. -/
def calls (w : Watch) (k : Nat) : Bool :=
  w.threads.any fun t =>
    match t with
    | .calling _ caller => caller = some k
    | _ => false

/-- The goroutine `k` is at `t` now. -/
def put (w : Watch) (k : Nat) (t : Thread) (sh : Shared) : Watch :=
  { w with threads := w.threads.set k t, shared := sh }

/-- The goroutine `k` makes its next step. -/
def advance (cfg : Config) (w : Watch) (k : Nat) (now : Int) (ok : Bool) : Option Watch :=
  match w.threads[k]? with
  | none => none
  | some t =>
    if w.calls k then none
    else
      match t.next cfg w.state w.moment w.shared ok with
      | none => none
      | some (t', sh) =>
        match t with
        | .prober (.reporting healthy) p =>
          (w.traffic.step cfg (.result now healthy p.consecutive)).map fun r =>
            (w.put k t' sh).moved r (some k)
        | _ => some (w.put k t' sh)

/-- One step of anybody. -/
def act (cfg : Config) (w : Watch) : WatchAct → Option Watch
  | .traffic (.result _ _ _) => none
  | .traffic a => (w.traffic.step cfg a).map fun r => w.moved r none
  | .advance k now ok => w.advance cfg k now ok
  | .close => some { w with shared := { w.shared with closed := true } }
  | .cancel =>
    if w.shared.closed then some { w with shared := { w.shared with cancelled := true } }
    else none

def step (cfg : Config) (w : Watch) (a : WatchAct) : Option Watch :=
  (w.act cfg a).map fun w => { w with moment := w.moment + 1 }

end Watch

end Model

section Turns

/-- What the next step of a goroutine can be. -/
inductive Thread.Turn (cfg : Config) (state : BreakerState) (moment : Nat) (sh : Shared) :
    Thread → Thread → Shared → Prop
  | counted {caller : Option Nat} :
      Turn cfg state moment sh (.calling .count caller) (.calling .start caller)
        { sh with opens := sh.opens + 1 }
  | declined
      {caller : Option Nat}
      (hwhy : cfg.health = none ∨ sh.proberRunning = true) :
      Turn cfg state moment sh (.calling .start caller) .done sh
  | claimed
      {caller : Option Nat}
      (hfree : sh.proberRunning = false) :
      Turn cfg state moment sh (.calling .start caller) (.calling .register caller)
        { sh with proberRunning := true }
  | turnedAway
      {caller : Option Nat}
      (hclosed : sh.closed = true) :
      Turn cfg state moment sh (.calling .register caller) (.calling .drop caller) sh
  | launched
      {caller : Option Nat} :
      Turn cfg state moment sh (.calling .register caller) (.prober .begin (.fresh 0)) sh
  | dropped {caller : Option Nat} :
      Turn cfg state moment sh (.calling .drop caller) .done { sh with proberRunning := false }
  | entered {p : Prober} :
      Turn cfg state moment sh (.prober .begin p) (.prober .waiting (.fresh sh.opens)) sh
  | rang {p : Prober} :
      Turn cfg state moment sh (.prober .waiting p) (.prober .looking p) sh
  | ended {p : Prober} :
      Turn cfg state moment sh (.prober .waiting p) (.prober .exiting p) sh
  | needed {p : Prober} :
      Turn cfg state moment sh (.prober .looking p) (.prober .checking p) sh
  | unneeded {p : Prober} :
      Turn cfg state moment sh (.prober .looking p) (.prober .exiting p) sh
  | relapsed {p : Prober} :
      Turn cfg state moment sh (.prober .checking p) (.prober .ready (.fresh sh.opens)) sh
  | unchanged
      {p : Prober}
      (hgen : sh.opens = p.gen) :
      Turn cfg state moment sh (.prober .checking p) (.prober .ready p) sh
  | sent {p : Prober} :
      Turn cfg state moment sh (.prober .ready p) (.prober .probing { p with started := moment })
        sh
  | answered {p : Prober} {ok : Bool} :
      Turn cfg state moment sh (.prober .probing p) (.prober (.probed ok) p) sh
  | stopped {p : Prober} {ok : Bool} :
      Turn cfg state moment sh (.prober (.probed ok) p) (.prober .exiting p) sh
  | judged {p : Prober} {ok : Bool} :
      Turn cfg state moment sh (.prober (.probed ok) p) (.prober (.reporting ok) (p.judge ok)) sh
  | reported {p : Prober} {ok : Bool} :
      Turn cfg state moment sh (.prober (.reporting ok) p) (.prober .waiting p) sh
  | released {p : Prober} :
      Turn cfg state moment sh (.prober .exiting p) (.prober .released p)
        { sh with proberRunning := false }
  | gone
      {p : Prober}
      (hcancelled : sh.cancelled = true) :
      Turn cfg state moment sh (.prober .released p) .done sh
  | doubted {p : Prober} :
      Turn cfg state moment sh (.prober .released p) (.prober .doubting p) sh
  | rechecked {p : Prober} :
      Turn cfg state moment sh (.prober .doubting p) (.prober .rechecked p) sh
  | left
      {p : Prober}
      (hidle : state.active = false) :
      Turn cfg state moment sh (.prober .doubting p) .done sh
  | relieved
      {p : Prober}
      (hheld : sh.proberRunning = true) :
      Turn cfg state moment sh (.prober .rechecked p) .done sh
  | resumed
      {p : Prober}
      (hfree : sh.proberRunning = false) :
      Turn cfg state moment sh (.prober .rechecked p) (.prober .begin p)
        { sh with proberRunning := true }

variable {cfg : Config} {state : BreakerState} {moment : Nat} {sh sh' : Shared} {t t' : Thread}
variable {ok : Bool}

theorem Thread.turn_of_calling {stage : Stage} {caller : Option Nat}
    (h : Thread.next cfg state moment sh ok (.calling stage caller) = some (t', sh')) :
    Thread.Turn cfg state moment sh (.calling stage caller) t' sh' := by
  cases stage with
  | count =>
    cases h
    exact .counted
  | start =>
    simp only [Thread.next] at h
    split at h
    · next hwhy =>
      cases h
      exact .declined hwhy
    · next hnot =>
      cases h
      exact .claimed (by simpa using (not_or.mp hnot).2)
  | register =>
    simp only [Thread.next] at h
    split at h
    · next hclosed =>
      cases h
      exact .turnedAway hclosed
    · cases h
      exact .launched
  | drop =>
    cases h
    exact .dropped

theorem Thread.turn_of_prober {phase : Phase} {p : Prober}
    (h : Thread.next cfg state moment sh ok (.prober phase p) = some (t', sh')) :
    Thread.Turn cfg state moment sh (.prober phase p) t' sh' := by
  cases phase with
  | begin =>
    cases h
    exact .entered
  | waiting =>
    simp only [Thread.next] at h
    split at h
    · cases h
      exact .rang
    · obtain ⟨-, h⟩ := of_when h
      cases h
      exact .ended
  | looking =>
    simp only [Thread.next] at h
    split at h
    · cases h
      exact .needed
    · cases h
      exact .unneeded
  | checking =>
    simp only [Thread.next] at h
    split at h
    · cases h
      exact .relapsed
    · next hgen =>
      cases h
      exact .unchanged (by simpa using hgen)
  | ready =>
    cases h
    exact .sent
  | probing =>
    cases h
    exact .answered
  | probed healthy =>
    simp only [Thread.next] at h
    split at h
    · cases h
      exact .stopped
    · cases h
      exact .judged
  | reporting healthy =>
    cases h
    exact .reported
  | exiting =>
    cases h
    exact .released
  | released =>
    simp only [Thread.next] at h
    split at h
    · next hcancelled =>
      cases h
      exact .gone hcancelled
    · cases h
      exact .doubted
  | doubting =>
    simp only [Thread.next] at h
    split at h
    · cases h
      exact .rechecked
    · next hidle =>
      cases h
      exact .left (by simpa using hidle)
  | rechecked =>
    simp only [Thread.next] at h
    split at h
    · next hheld =>
      cases h
      exact .relieved hheld
    · next hfree =>
      cases h
      exact .resumed (by simpa using hfree)

theorem Thread.turn_of_next (h : t.next cfg state moment sh ok = some (t', sh')) :
    t.Turn cfg state moment sh t' sh' := by
  cases t with
  | calling stage caller => exact turn_of_calling h
  | prober phase p => exact turn_of_prober h
  | done => cases h

/-- What a step can be: an operation of the traffic, a goroutine's own step, a `Result`,
or `Close`. -/
inductive Watch.Turn (cfg : Config) (w : Watch) : WatchAct → Watch → Prop
  | served
      {a : Act} {r : Traffic}
      (hkind : ∀ now healthy consecutive, a ≠ .result now healthy consecutive)
      (hstep : w.traffic.step cfg a = some r) :
      Turn cfg w (.traffic a) (w.moved r none)
  | advanced
      {k : Nat} {now : Int} {ok : Bool} {t t' : Thread} {sh : Shared}
      (ht : w.threads[k]? = some t)
      (hkind : ∀ healthy p, t ≠ .prober (.reporting healthy) p)
      (hturn : t.Turn cfg w.state w.moment w.shared t' sh) :
      Turn cfg w (.advance k now ok) (w.put k t' sh)
  | delivered
      {k : Nat} {now : Int} {ok healthy : Bool} {p : Prober} {r : Traffic}
      (ht : w.threads[k]? = some (.prober (.reporting healthy) p))
      (hstep : w.traffic.step cfg (.result now healthy p.consecutive) = some r) :
      Turn cfg w (.advance k now ok)
        ((w.put k (.prober .waiting p) w.shared).moved r (some k))
  | closed :
      Turn cfg w .close { w with shared := { w.shared with closed := true } }
  | cancelled
      (hclosed : w.shared.closed = true) :
      Turn cfg w .cancel { w with shared := { w.shared with cancelled := true } }

variable {w w' : Watch}

theorem Watch.turn_of_advance {k : Nat} {now : Int} (h : w.advance cfg k now ok = some w') :
    w.Turn cfg (.advance k now ok) w' := by
  unfold Watch.advance at h
  split at h
  · cases h
  · next t ht =>
    obtain ⟨-, h⟩ := of_unless h
    split at h
    · cases h
    · next t' sh hnext =>
      split at h
      · next healthy p =>
        obtain ⟨r, hr, rfl⟩ := Option.map_eq_some_iff.mp h
        cases hnext
        exact .delivered ht hr
      · next hkind =>
        cases h
        exact .advanced ht hkind (Thread.turn_of_next hnext)

theorem Watch.turn_of_step {a : WatchAct} (h : w.step cfg a = some w') :
    ∃ v, w.Turn cfg a v ∧ w' = { v with moment := v.moment + 1 } := by
  obtain ⟨v, hv, rfl⟩ := Option.map_eq_some_iff.mp h
  refine ⟨v, ?_, rfl⟩
  cases a with
  | traffic a =>
    cases a with
    | result now healthy consecutive => cases hv
    | _ =>
      obtain ⟨r, hr, rfl⟩ := Option.map_eq_some_iff.mp hv
      exact .served (fun _ _ _ h => nomatch h) hr
  | advance k now ok => exact Watch.turn_of_advance hv
  | close =>
    cases hv
    exact .closed
  | cancel =>
    obtain ⟨hclosed, rfl⟩ := of_guard hv
    exact .cancelled hclosed

end Turns

section Watching

/-- The prober runs, from its launch until it releases the flag. -/
def Phase.running : Phase → Bool
  | .released | .doubting | .rechecked => false
  | _ => true

/-- The goroutine is a running prober. -/
def Thread.running : Thread → Bool
  | .prober phase _ => phase.running
  | _ => false

/-- The goroutine holds `proberRunning`. -/
def Thread.holds : Thread → Bool
  | .calling .register _ | .calling .drop _ => true
  | .prober phase _ => phase.running
  | _ => false

/-- The goroutine opened the circuit and has a call of `startProber` before it or in
progress. -/
def Thread.starting : Thread → Bool
  | .calling _ _ => true
  | _ => false

/-- The prober has taken its last look, and will look once more behind the release. -/
def Thread.leaving : Thread → Bool
  | .prober .exiting _ | .prober .released _ | .prober .doubting _ | .prober .rechecked _ => true
  | _ => false

structure WatchOk (w : Watch) : Prop where
  held : w.threads.countP Thread.holds = w.shared.proberRunning.toNat
  cancelled : w.shared.cancelled = true → w.shared.closed = true
  dropping : ∀ caller, .calling .drop caller ∈ w.threads → w.shared.closed = true
  watched : w.state.active = true → w.shared.closed = false → ∃ t ∈ w.threads, t ≠ .done

variable {cfg : Config} {w w' : Watch} {t t' : Thread} {sh sh' : Shared}
variable {state : BreakerState} {moment k : Nat}

/-- A step takes the flag, gives it back, or leaves it where it is. -/
theorem Thread.Turn.balance (hturn : t.Turn cfg state moment sh t' sh')
    (hheld : t.holds = true → sh.proberRunning = true) :
    t'.holds.toNat + sh.proberRunning.toNat = t.holds.toNat + sh'.proberRunning.toNat := by
  cases hturn with
  | dropped => simp [Thread.holds, hheld rfl]
  | released => simp [Thread.holds, Phase.running, hheld rfl]
  | claimed hfree => simp [Thread.holds, hfree]
  | resumed hfree => simp [Thread.holds, Phase.running, hfree]
  | _ => rfl

theorem Thread.Turn.closing (hturn : t.Turn cfg state moment sh t' sh') :
    sh'.closed = sh.closed ∧ sh'.cancelled = sh.cancelled := by
  cases hturn <;> exact ⟨rfl, rfl⟩

theorem Thread.Turn.dropping {caller : Option Nat}
    (hturn : t.Turn cfg state moment sh (.calling .drop caller) sh') : sh.closed = true := by
  cases hturn with
  | turnedAway hclosed => exact hclosed

theorem Thread.Turn.stays (hturn : t.Turn cfg state moment sh t' sh') (hcheck : cfg.health ≠ none)
    (hactive : state.active = true) (hclosed : sh.closed = false)
    (hcancelled : sh.cancelled = true → sh.closed = true)
    (hdrop : ∀ caller, t ≠ .calling .drop caller) : t' ≠ .done ∨ sh'.proberRunning = true := by
  cases hturn with
  | declined hwhy => exact .inr (hwhy.resolve_left hcheck)
  | dropped => exact absurd rfl (hdrop _)
  | gone hstopped =>
    rw [hcancelled hstopped] at hclosed
    cases hclosed
  | left hidle =>
    rw [hidle] at hactive
    cases hactive
  | relieved hheld => exact .inr hheld
  | _ => exact .inl fun h => nomatch h

theorem exists_of_held {threads : List Thread} (h : 0 < threads.countP Thread.holds) :
    ∃ t ∈ threads, t ≠ .done := by
  obtain ⟨t, ht, hholds⟩ := countP_pos_iff.mp h
  refine ⟨t, ht, ?_⟩
  rintro rfl
  cases hholds

theorem WatchOk.put (h : WatchOk w) (hcheck : cfg.health ≠ none) (ht : w.threads[k]? = some t)
    (hturn : t.Turn cfg w.state w.moment w.shared t' sh') : WatchOk (w.put k t' sh') := by
  obtain ⟨hclosed, hcancelled⟩ := hturn.closing
  have hmem := mem_of_getElem? ht
  have hk := (List.getElem?_eq_some_iff.mp ht).1
  have hheld : t.holds = true → w.shared.proberRunning = true := by
    intro hholds
    have hpos := countP_pos_iff.mpr ⟨t, hmem, hholds⟩
    rw [h.held] at hpos
    cases hflag : w.shared.proberRunning with
    | true => rfl
    | false =>
      rw [hflag] at hpos
      cases hpos
  have hcount : (w.threads.set k t').countP Thread.holds = sh'.proberRunning.toNat := by
    have hset := countP_set Thread.holds t' ht
    have hbalance := hturn.balance hheld
    rw [h.held] at hset
    omega
  refine ⟨hcount, ?_, ?_, ?_⟩
  · intro hstopped
    change sh'.closed = true
    rw [hclosed]
    exact h.cancelled (hcancelled ▸ hstopped)
  · intro caller hdrop
    change sh'.closed = true
    rw [hclosed]
    rcases mem_or_eq_of_mem_set hdrop with hdrop | rfl
    · exact h.dropping caller hdrop
    · exact hturn.dropping
  · intro hactive hopen
    have hopen' : w.shared.closed = false := hclosed.symm.trans hopen
    have hdrop : ∀ caller, t ≠ .calling .drop caller := by
      rintro caller rfl
      rw [h.dropping caller hmem] at hopen'
      cases hopen'
    rcases hturn.stays hcheck hactive hopen' h.cancelled hdrop with hgoing | hrunning
    · exact ⟨t', mem_set hk t', hgoing⟩
    · refine exists_of_held ?_
      change 0 < (w.threads.set k t').countP Thread.holds
      rw [hcount, hrunning]
      exact Nat.one_pos

/-- The circuit moves: when it opens, somebody is on the way. -/
theorem WatchOk.moved {r : Traffic} {a : Act} {caller : Option Nat} (h : WatchOk w)
    (hstep : w.traffic.step cfg a = some r) : WatchOk (w.moved r caller) := by
  unfold Watch.moved
  split
  · refine ⟨?_, h.cancelled, ?_, fun _ _ => ⟨.calling .count caller, by simp, fun h => nomatch h⟩⟩
    · change (w.threads ++ [Thread.calling .count caller]).countP Thread.holds = _
      rw [countP_append]
      exact h.held
    · intro c hdrop
      rcases mem_append.mp hdrop with hdrop | hnew
      · exact h.dropping c hdrop
      · cases mem_singleton.mp hnew
  · next hopened =>
    refine ⟨h.held, h.cancelled, h.dropping, fun hactive hopen => h.watched ?_ hopen⟩
    change r.circuit.state.active = true at hactive
    cases hstate : r.circuit.state with
    | stateClosed =>
      rw [hstate] at hactive
      cases hactive
    | stateOpen =>
      have hwas : w.state = .stateOpen := by
        by_contra hne
        exact hopened ⟨hne, hstate⟩
      rw [hwas]
      rfl
    | stateHalfOpen =>
      have hwas : w.state = .stateHalfOpen ∨ w.state = .stateOpen := half_before hstep hstate
      rcases hwas with hwas | hwas <;> rw [hwas] <;> rfl

theorem watchOk_step {a : WatchAct} (hcheck : cfg.health ≠ none) (h : WatchOk w)
    (hstep : w.step cfg a = some w') : WatchOk w' := by
  obtain ⟨v, hturn, rfl⟩ := Watch.turn_of_step hstep
  have hv : WatchOk v := by
    cases hturn with
    | served hkind hserved => exact h.moved hserved
    | advanced ht hkind hturn => exact h.put hcheck ht hturn
    | delivered ht hserved => exact WatchOk.moved (h.put hcheck ht .reported) hserved
    | closed => exact ⟨h.held, fun _ => rfl, fun _ _ => rfl, fun _ hopen => nomatch hopen⟩
    | cancelled hclosed =>
      exact ⟨h.held, fun _ => hclosed, h.dropping, h.watched⟩
  exact ⟨hv.held, hv.cancelled, hv.dropping, hv.watched⟩

theorem watchOk_new (cfg : Config) (now : Int) : WatchOk (.new cfg now) :=
  ⟨rfl, fun h => (nomatch h), fun _ h => (nomatch h), fun h => (nomatch h)⟩

theorem watchOk_run {now₀ : Int} {acts : List WatchAct} (hcheck : cfg.health ≠ none)
    (hrun : run (Watch.step cfg) (.new cfg now₀) acts = some w) : WatchOk w := by
  refine run_invariant (Watch.step cfg) ?_ (watchOk_new cfg now₀) hrun
  intro w a w' h hstep
  exact watchOk_step hcheck h hstep

/-- There are never two probers, and an open or half-open circuit whose breaker is not
closed has one, unless somebody is about to start it or about to look again. -/
theorem watched_by_one_prober {now₀ : Int} {acts : List WatchAct} (hcheck : cfg.health ≠ none)
    (hrun : run (Watch.step cfg) (.new cfg now₀) acts = some w) :
    w.threads.countP Thread.running ≤ 1 ∧
      (w.state = .stateOpen ∨ w.state = .stateHalfOpen → w.shared.closed = false →
        (∀ t ∈ w.threads, t.starting = false ∧ t.leaving = false) →
          w.threads.countP Thread.running = 1) := by
  have h := watchOk_run hcheck hrun
  have hone : w.threads.countP Thread.running ≤ 1 := by
    have hle : w.threads.countP Thread.running ≤ w.threads.countP Thread.holds := by
      refine countP_mono_left fun t _ hrunning => ?_
      cases t with
      | prober phase p => exact hrunning
      | calling stage caller => cases hrunning
      | done => cases hrunning
    rw [h.held] at hle
    exact le_trans hle (Bool.toNat_le _)
  refine ⟨hone, ?_⟩
  intro hactive hopen hquiet
  have hneeded : w.state.active = true := by
    rcases hactive with hstate | hstate <;> rw [hstate] <;> rfl
  obtain ⟨t, ht, hgoing⟩ := h.watched hneeded hopen
  have hrunning : t.running = true := by
    obtain ⟨hstarting, hleaving⟩ := hquiet t ht
    cases t with
    | calling stage caller => cases hstarting
    | done => exact absurd rfl hgoing
    | prober phase p =>
      cases phase with
      | released => cases hleaving
      | doubting => cases hleaving
      | rechecked => cases hleaving
      | _ => rfl
  have hpos := countP_pos_iff.mpr ⟨t, ht, hrunning⟩
  omega

/-- One failure opens the circuit, and two healthy probes make it half-open. -/
def checked : Config where
  failureThreshold := 5000
  minSamples := 1
  samplingWindow := 10
  bucketDuration := 1
  sleepWindow := 100
  maxInflight := 0
  dryRun := false
  health := some ⟨2, false, 0⟩

/-- The circuit opens and the prober is launched. -/
theorem watched_by_one_prober_launched :
    ∃ w, run (Watch.step checked) (.new checked 0)
        [.traffic (.acquire 1 0 false), .traffic (.failure 2 0), .advance 0 2 true,
          .advance 0 2 true, .advance 0 2 true] = some w ∧
      w.state = .stateOpen ∧ w.threads.countP Thread.running = 1 := by
  obtain ⟨w, hw, hopen, hclosed, hquiet⟩ : ∃ w, run (Watch.step checked) (.new checked 0)
      [.traffic (.acquire 1 0 false), .traffic (.failure 2 0), .advance 0 2 true,
        .advance 0 2 true, .advance 0 2 true] = some w ∧ w.state = .stateOpen ∧
          w.shared.closed = false ∧
            ∀ t ∈ w.threads, t.starting = false ∧ t.leaving = false := by
    decide +kernel
  exact ⟨w, hw, hopen,
    (watched_by_one_prober (by decide) hw).2 (.inl hopen) hclosed hquiet⟩

end Watching

end Breaker
end GoGuard
