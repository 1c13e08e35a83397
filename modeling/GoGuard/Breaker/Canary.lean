import GoGuard.Breaker.Circuit
import Mathlib.Tactic

/-!
# The canary of a half-open circuit

A half-open circuit has one probe slot.  It should be held by the call that was admitted
last, and that call alone should decide what becomes of the circuit.

The slot is freed by operations that do not know who holds it: an `Abandon` of any permit,
and every healthy result once the threshold is reached.  Permits carry no episode, so a
call from before the outage decides like the canary does.  The theorems say when that
cannot happen.
-/

namespace GoGuard
namespace Breaker

open Lib List

section Slots

/-- An operation frees the probe slot for its holder, or while nobody holds it. -/
def Traffic.Steady (cfg : Config) (s : Traffic) : Act → Prop
  | .abandon _ id =>
    s.circuit.state = .stateHalfOpen → s.circuit.probing = true →
      s.permits.head?.map Permit.id = some id
  | .result _ healthy consecutive =>
    ∀ h ∈ cfg.health, healthy = true → h.successThreshold ≤ consecutive →
      h.trustHealth = false → s.circuit.state = .stateHalfOpen → s.circuit.probing = false
  | .setOverride _ _ => False
  | _ => True

instance (cfg : Config) (s : Traffic) (a : Act) : Decidable (s.Steady cfg a) :=
  match a with
  | .abandon _ id => inferInstanceAs (Decidable (s.circuit.state = .stateHalfOpen →
      s.circuit.probing = true → s.permits.head?.map Permit.id = some id))
  | .result _ healthy consecutive => inferInstanceAs (Decidable (∀ h ∈ cfg.health,
      healthy = true → h.successThreshold ≤ consecutive → h.trustHealth = false →
        s.circuit.state = .stateHalfOpen → s.circuit.probing = false))
  | .setOverride _ _ => isFalse id
  | .acquire _ _ _ | .success _ _ _ | .failure _ _ => isTrue trivial

/-- The slot of a half-open circuit is held by the call admitted last, or that call is
done. -/
structure SlotOk (x : Slot) (permits : List Permit) (episode : Nat) : Prop where
  plain : x.override = .none
  idle : x.state ≠ .stateHalfOpen → x.probing = false
  old : ∀ p ∈ permits, p.episode ≤ episode
  held : x.state = .stateHalfOpen → x.probing = true →
    ∃ p, permits.head? = some p ∧ p.episode = episode ∧ x.probeAt = p.admittedAt
  free : x.state = .stateHalfOpen → x.probing = false →
    ∀ p, permits.head? = some p → p.episode = episode → p.done = true

variable {cfg : Config} {s s' : Traffic} {x y : Slot} {permits permits' : List Permit}
variable {episode episode' : Nat} {a : Act}

theorem slotOk_outside (hplain : x.override = .none) (hstate : x.state ≠ .stateHalfOpen)
    (hfree : x.probing = false) (hold : ∀ p ∈ permits, p.episode ≤ episode) :
    SlotOk x permits episode :=
  ⟨hplain, fun _ => hfree, hold, fun h => absurd h hstate, fun h => absurd h hstate⟩

theorem episode_le_after (s : Traffic) (now : Int) (b : Circuit) :
    s.episode ≤ (s.after now b).episode := by
  unfold Traffic.after
  split
  · exact le_refl _
  · exact Nat.le_succ _

variable {b : Circuit} {now : Int} {due room : Bool} {id : Nat}

theorem episode_after_of_eq (now : Int) (h : b.slot.state = s.circuit.slot.state) :
    (s.after now b).episode = s.episode :=
  if_pos h

theorem episode_after_of_ne (now : Int) (h : b.slot.state ≠ s.circuit.slot.state) :
    (s.after now b).episode = s.episode + 1 :=
  if_neg h

theorem old_after (now : Int) (b : Circuit) (hold : ∀ p ∈ s.permits, p.episode ≤ s.episode) :
    ∀ p ∈ s.permits, p.episode ≤ (s.after now b).episode :=
  fun p hp => le_trans (hold p hp) (episode_le_after s now b)

theorem old_admitted (now : Int) (b : Circuit) (hold : ∀ p ∈ s.permits, p.episode ≤ s.episode) :
    ∀ p ∈ (s.admitted now b).permits, p.episode ≤ (s.admitted now b).episode := by
  intro p hp
  rcases mem_cons.mp hp with rfl | hp
  · exact le_refl _
  · exact old_after now b hold p hp

theorem markDone_fields (id : Nat) (p : Permit) :
    (Traffic.markDone id p).id = p.id ∧ (Traffic.markDone id p).episode = p.episode ∧
      (Traffic.markDone id p).admittedAt = p.admittedAt ∧
        (p.done = true → (Traffic.markDone id p).done = true) := by
  unfold Traffic.markDone
  split
  · exact ⟨rfl, rfl, rfl, fun _ => rfl⟩
  · exact ⟨rfl, rfl, rfl, fun h => h⟩

theorem old_finished (now : Int) (id : Nat) (b : Circuit)
    (hold : ∀ p ∈ s.permits, p.episode ≤ s.episode) :
    ∀ p ∈ (s.finished now id b).permits, p.episode ≤ (s.finished now id b).episode := by
  intro p hp
  obtain ⟨q, hq, rfl⟩ := mem_map.mp hp
  rw [(markDone_fields id q).2.1]
  exact old_after now b hold q hq

theorem SlotOk.finished (id : Nat) (h : SlotOk x permits episode)
    (hold : ∀ p ∈ permits.map (Traffic.markDone id), p.episode ≤ episode) :
    SlotOk x (permits.map (Traffic.markDone id)) episode := by
  refine ⟨h.plain, h.idle, hold, ?_, ?_⟩
  · intro hhalf hprobing
    obtain ⟨p, hp, hepisode, hat⟩ := h.held hhalf hprobing
    obtain ⟨-, hep, hadm, -⟩ := markDone_fields id p
    refine ⟨Traffic.markDone id p, ?_, hep.trans hepisode, hat.trans hadm.symm⟩
    rw [List.head?_map, hp]
    rfl
  · intro hhalf hprobing p hp hepisode
    rw [List.head?_map] at hp
    obtain ⟨q, hq, rfl⟩ := Option.map_eq_some_iff.mp hp
    obtain ⟨-, hep, -, hdone⟩ := markDone_fields id q
    exact hdone (h.free hhalf hprobing q hq (hep.symm.trans hepisode))

theorem slotOk_held {p : Permit} (hplain : x.override = .none) (hstate : x.state = .stateHalfOpen)
    (hprobing : x.probing = true) (hhead : permits.head? = some p) (hepisode : p.episode = episode)
    (hat : x.probeAt = p.admittedAt) (hold : ∀ p ∈ permits, p.episode ≤ episode) :
    SlotOk x permits episode := by
  refine ⟨hplain, fun hne => absurd hstate hne, hold, fun _ _ => ⟨p, hhead, hepisode, hat⟩, ?_⟩
  intro _ hfree
  rw [hprobing] at hfree
  cases hfree

/-- What a permit that is admitted in a half-open circuit finds: a new episode, a free
slot, or a holder that has had its time. -/
theorem allow_halfOpen (hdry : cfg.dryRun = false) (hover : x.override = .none)
    (hallow : (.admitted, y) = x.allow cfg now due room) :
    x.state = .stateClosed ∧ y = x ∨
      y = ⟨.stateHalfOpen, true, now, .none⟩ ∧
        (x.state = .stateOpen ∨
          x.state = .stateHalfOpen ∧
            (x.probing = false ∨ x.probing = true ∧ now - x.probeAt > cfg.sleepWindow)) := by
  obtain ⟨state, probing, probeAt, override⟩ := x
  cases hover
  have hverdict : dryVerdict cfg = .rejectedOpen := by
    rw [dryVerdict, hdry]
    rfl
  cases room with
  | false => cases hallow
  | true =>
    cases state with
    | stateClosed =>
      cases hallow
      exact .inl ⟨rfl, rfl⟩
    | stateOpen =>
      simp only [Slot.allow, hverdict] at hallow
      split at hallow
      · cases hallow
      · split at hallow
        · cases hallow
        · split at hallow
          · cases hallow
            exact .inr ⟨rfl, .inl rfl⟩
          · cases hallow
    | stateHalfOpen =>
      simp only [Slot.allow, hverdict] at hallow
      split at hallow
      · cases hallow
      · split at hallow
        · next hfree =>
          cases hallow
          exact .inr ⟨rfl, .inr ⟨rfl, .inl hfree⟩⟩
        · next hheld =>
          have hheld : probing = true := by simpa using hheld
          subst hheld
          split at hallow
          · next hlate =>
            cases hallow
            exact .inr ⟨rfl, .inr ⟨rfl, .inr ⟨rfl, hlate.2⟩⟩⟩
          · cases hallow

theorem allow_refused {v : Circuit.Verdict} (hover : x.override = .none)
    (hidle : x.state ≠ .stateHalfOpen → x.probing = false) (hv : v ≠ .admitted)
    (hallow : (v, y) = x.allow cfg now due room) : y = x := by
  obtain ⟨state, probing, probeAt, override⟩ := x
  cases hover
  cases room with
  | false =>
    cases hallow
    rfl
  | true =>
    cases state with
    | stateClosed =>
      cases hallow
      rfl
    | stateOpen =>
      obtain rfl : probing = false := hidle fun h => nomatch h
      cases due with
      | false =>
        cases hallow
        rfl
      | true =>
        cases hallow
        exact absurd rfl hv
    | stateHalfOpen =>
      simp only [Slot.allow] at hallow
      split at hallow
      · cases hallow
        rfl
      · split at hallow
        · cases hallow
          exact absurd rfl hv
        · split at hallow
          · cases hallow
            exact absurd rfl hv
          · cases hallow
            rfl

def Traffic.SlotOk (s : Traffic) : Prop :=
  Breaker.SlotOk s.circuit.slot s.permits s.episode

/-- The circuit is not half-open, and its slot free. -/
def Slot.Outside (x : Slot) : Prop :=
  x.override = .none ∧ x.state ≠ .stateHalfOpen ∧ x.probing = false

theorem Traffic.SlotOk.after (now : Int) (h : s.SlotOk)
    (hslot : b.slot.Outside ∨ b.slot = s.circuit.slot) : (s.after now b).SlotOk := by
  change Breaker.SlotOk b.slot s.permits (s.after now b).episode
  rcases hslot with ⟨hplain, hstate, hfree⟩ | hsame
  · exact slotOk_outside hplain hstate hfree (old_after now b h.old)
  · rw [hsame, episode_after_of_eq now (congrArg Slot.state hsame)]
    exact h

theorem Traffic.SlotOk.finished (h : s.SlotOk) (hslot : b.slot.Outside ∨ b.slot = s.circuit.slot) :
    (s.finished now id b).SlotOk :=
  Breaker.SlotOk.finished id (h.after now hslot) (old_finished now id b h.old)

theorem succeed_cases (h : SlotOk x permits episode) : x.succeed.Outside ∨ x.succeed = x := by
  unfold Slot.succeed
  split
  · exact .inl ⟨h.plain, fun h => (nomatch h), rfl⟩
  · exact .inr rfl

theorem fail_cases (trips : Bool) (h : SlotOk x permits episode) :
    (x.fail trips).Outside ∨ x.fail trips = x := by
  unfold Slot.fail
  split
  · exact .inl ⟨h.plain, fun h => (nomatch h), rfl⟩
  · next hclosed =>
    split
    · refine .inl ⟨h.plain, fun h => (nomatch h), h.idle ?_⟩
      rw [hclosed]
      decide
    · exact .inr rfl
  · exact .inr rfl

/-- A permit is abandoned: in a half-open circuit it is the holder's, or the slot is free
already. -/
theorem slotOk_abandoned (h : s.SlotOk) (hsteady : s.Steady cfg (.abandon now id))
    (hslot : b.slot = s.circuit.slot.abandon) : (s.finished now id b).SlotOk := by
  unfold Slot.abandon at hslot
  split at hslot
  · next hhalf =>
    have hstate : b.slot.state = s.circuit.slot.state := by rw [hslot]
    have hepisode := episode_after_of_eq now hstate
    have hold := old_finished now id b h.old
    change Breaker.SlotOk b.slot (s.permits.map (Traffic.markDone id)) (s.after now b).episode
    change ∀ p ∈ s.permits.map (Traffic.markDone id), p.episode ≤ (s.after now b).episode at hold
    rw [hepisode] at hold ⊢
    rw [hslot]
    refine ⟨h.plain, fun hne => absurd hhalf hne, hold, fun _ hheld => (nomatch hheld), ?_⟩
    intro _ _ p hp hep
    rw [List.head?_map] at hp
    obtain ⟨q, hq, rfl⟩ := Option.map_eq_some_iff.mp hp
    obtain ⟨-, heq, -, hdone⟩ := markDone_fields id q
    cases hprobing : s.circuit.probing with
    | false => exact hdone (h.free hhalf hprobing q hq (heq.symm.trans hep))
    | true =>
      have hid := hsteady hhalf hprobing
      rw [hq] at hid
      unfold Traffic.markDone
      rw [if_pos (Option.some.inj hid)]
  · exact h.finished (.inr hslot)

theorem slotOk_checked {consecutive : Int} {healthy : Bool} {hc : Health} (h : s.SlotOk)
    (hhealth : cfg.health = some hc) (hsteady : s.Steady cfg (.result now healthy consecutive))
    (hslot : b.slot = s.circuit.slot.result hc healthy consecutive) : (s.after now b).SlotOk := by
  unfold Slot.result at hslot
  split at hslot
  · split at hslot
    · exact h.after now (.inl (hslot ▸ ⟨h.plain, fun h => (nomatch h), rfl⟩))
    · exact h.after now (.inr hslot)
  · next hhealthy =>
    split at hslot
    · exact h.after now (.inr hslot)
    · next hreached =>
      split at hslot
      · exact h.after now (.inl (hslot ▸ ⟨h.plain, fun h => (nomatch h), rfl⟩))
      · next hdistrust =>
        have hfree := hsteady hc hhealth (by simpa using hhealthy) (not_lt.mp hreached)
          (by simpa using hdistrust)
        cases hstate : s.circuit.state with
        | stateClosed =>
          have hst : s.circuit.slot.state = .stateClosed := hstate
          rw [hst, if_neg (by decide)] at hslot
          exact h.after now (.inl (hslot ▸ ⟨h.plain, fun h => (nomatch h), rfl⟩))
        | stateHalfOpen =>
          have hst : s.circuit.slot.state = .stateHalfOpen := hstate
          refine h.after now (.inr (hslot.trans ?_))
          rw [hst, if_neg (by decide), ← hst, ← hfree hstate]
          rfl
        | stateOpen =>
          -- a new episode, in which nobody was admitted yet
          have hst : s.circuit.slot.state = .stateOpen := hstate
          rw [hst, if_pos rfl] at hslot
          have hepisode : (s.after now b).episode = s.episode + 1 := by
            refine episode_after_of_ne now ?_
            rw [hslot, hst]
            exact fun h => nomatch h
          have hold := old_after now b h.old
          change Breaker.SlotOk b.slot s.permits (s.after now b).episode
          rw [hslot]
          refine ⟨h.plain, fun hne => absurd rfl hne, hold, fun _ hheld => (nomatch hheld),
            ?_⟩
          intro _ _ p hp hep
          have hle := h.old p (mem_of_mem_head? hp)
          omega

theorem slotOk_step (hdry : cfg.dryRun = false) (h : s.SlotOk) (hsteady : s.Steady cfg a)
    (hstep : s.step cfg a = some s') : s'.SlotOk := by
  obtain ⟨-, hturn⟩ := Traffic.turn_of_step hstep
  cases hturn with
  | refused hslot hv => exact h.after _ (.inr (allow_refused h.plain h.idle hv hslot))
  | @admitted now rnd vip due room b hslot =>
    have hold := old_admitted now b h.old
    change Breaker.SlotOk b.slot (s.admitted now b).permits (s.after now b).episode
    rcases allow_halfOpen hdry h.plain hslot with ⟨hclosed, hsame⟩ | ⟨hnew, -⟩
    · have hother : s.circuit.slot.state ≠ .stateHalfOpen := by
        rw [hclosed]
        decide
      rw [hsame]
      exact slotOk_outside h.plain hother (h.idle hother) hold
    · rw [hnew]
      exact slotOk_held rfl rfl rfl rfl rfl rfl hold
  | ignored => exact h
  | succeeded hp hlive hslot => exact h.finished (hslot ▸ succeed_cases h)
  | failed hp hlive hslot => exact h.finished (hslot ▸ fail_cases _ h)
  | abandoned hp hlive hslot => exact slotOk_abandoned h hsteady hslot
  | checked hh hslot => exact slotOk_checked h hh hsteady hslot
  | forced => exact absurd hsteady id

theorem slotOk_run {now₀ : Int} {acts : List Act} (hdry : cfg.dryRun = false)
    (hsteady : RunAll (Traffic.step cfg) (Traffic.Steady cfg) (.new cfg now₀) acts)
    (hrun : run (Traffic.step cfg) (.new cfg now₀) acts = some s) : s.SlotOk := by
  refine run_invariant_of (Traffic.step cfg) ?_ hsteady ?_ hrun
  · intro s a s' hok h hstep
    exact slotOk_step hdry h hok hstep
  · exact slotOk_outside rfl (fun h => nomatch h) rfl fun _ hp => nomatch hp

/-- A half-open circuit has one canary at a time: when two calls are admitted one after
the other in one episode of it, the first is done or has had its sleep window. -/
theorem one_canary_at_a_time {now₀ : Int} {acts : List Act} {p q : Permit}
    (hdry : cfg.dryRun = false)
    (hsteady : RunAll (Traffic.step cfg) (Traffic.Steady cfg) (.new cfg now₀) acts)
    (hrun : run (Traffic.step cfg) (.new cfg now₀) acts = some s) (hstep : s.step cfg a = some s')
    (hadmitted : s'.permits = q :: s.permits) (hhalf : s'.circuit.state = .stateHalfOpen)
    (hlast : s.permits.head? = some p) (hepisode : p.episode = q.episode) :
    p.done = true ∨ q.admittedAt - p.admittedAt > cfg.sleepWindow := by
  have h := slotOk_run hdry hsteady hrun
  have hlen := congrArg List.length hadmitted
  obtain ⟨-, hturn⟩ := Traffic.turn_of_step hstep
  cases hturn with
  | @admitted now rnd vip due room b hslot =>
    obtain ⟨rfl, -⟩ := List.cons.inj hadmitted
    rcases allow_halfOpen hdry h.plain hslot with ⟨hclosed, hsame⟩ | ⟨hnew, hwas⟩
    · have hstate : b.slot.state = .stateClosed := by rw [hsame, hclosed]
      exact absurd (hstate.symm.trans hhalf) (by decide)
    · rcases hwas with hopen | ⟨hstate, hslot⟩
      · -- the call that opens the episode is its first
        have hne : b.slot.state ≠ s.circuit.slot.state := by
          rw [hnew, hopen]
          exact fun h => nomatch h
        have hle := h.old p (mem_of_mem_head? hlast)
        have hep := episode_after_of_ne now hne
        change p.episode = (s.after now b).episode at hepisode
        omega
      · have hep : (s.after now b).episode = s.episode := by
          refine episode_after_of_eq now ?_
          rw [hnew, hstate]
        rw [hep] at hepisode
        rcases hslot with hfree | ⟨hheld, hlate⟩
        · exact .inl (h.free hstate hfree p hlast hepisode)
        · obtain ⟨p', hp', -, hat⟩ := h.held hstate hheld
          obtain rfl := Option.some.inj (hlast.symm.trans hp')
          rw [hat] at hlate
          exact .inr hlate
  | ignored => simp at hlen
  | forced => simp at hlen
  | refused => simp [Traffic.after] at hlen
  | succeeded | failed | abandoned => simp [Traffic.finished] at hlen
  | checked => simp [Traffic.after] at hlen

/-- One failure opens the circuit. -/
def touchy : Config where
  failureThreshold := 5000
  minSamples := 1
  samplingWindow := 10
  bucketDuration := 1
  sleepWindow := 100
  maxInflight := 0
  dryRun := false
  health := none

/-- The canary is abandoned before the next call takes its place. -/
theorem one_canary_at_a_time_abandoned :
    ∃ s s', run (Traffic.step touchy) (.new touchy 0)
        [.acquire 1 0 false, .failure 2 0, .acquire 200 0 false, .abandon 201 1] = some s ∧
      s.step touchy (.acquire 202 0 false) = some s' ∧ s'.permits.length = 3 ∧
        ∀ p, s.permits.head? = some p → p.done = true ∨ 202 - p.admittedAt > 100 := by
  obtain ⟨s, s', hs, hs', hadmitted, hhalf, hlast, hlen⟩ : ∃ s s', run (Traffic.step touchy)
      (.new touchy 0)
      [.acquire 1 0 false, .failure 2 0, .acquire 200 0 false, .abandon 201 1] = some s ∧
        s.step touchy (.acquire 202 0 false) = some s' ∧
          s'.permits = ⟨2, 202, 2, false⟩ :: s.permits ∧ s'.circuit.state = .stateHalfOpen ∧
            s.permits.head? = some ⟨1, 200, 2, true⟩ ∧ s'.permits.length = 3 := by
    decide +kernel
  refine ⟨s, s', hs, hs', hlen, fun p hp => ?_⟩
  obtain rfl := Option.some.inj (hlast.symm.trans hp)
  exact one_canary_at_a_time rfl (by decide +kernel) hs hs' hadmitted hhalf hlast rfl

/-- A health check that trusts a real call only. -/
def watched : Config :=
  { touchy with health := some ⟨2, false, 0⟩ }

/-- Two canaries at once.  In the first run a call from before the outage is abandoned; in
the second the health check passes once more. -/
theorem second_canary_is_admitted :
    (∃ s s', run (Traffic.step touchy) (.new touchy 0)
        [.acquire 1 0 false, .acquire 2 0 false, .failure 3 1, .acquire 200 0 false,
          .abandon 201 0] = some s ∧
      s.step touchy (.acquire 202 0 false) = some s' ∧
        s'.permits = ⟨3, 202, 2, false⟩ :: s.permits ∧ s'.circuit.state = .stateHalfOpen ∧
          s.permits.head? = some ⟨2, 200, 2, false⟩) ∧
    ∃ s s', run (Traffic.step watched) (.new watched 0)
        [.acquire 1 0 false, .failure 2 0, .result 50 true 2, .acquire 51 0 false,
          .result 55 true 3] = some s ∧
      s.step watched (.acquire 56 0 false) = some s' ∧
        s'.permits = ⟨2, 56, 2, false⟩ :: s.permits ∧ s'.circuit.state = .stateHalfOpen ∧
          s.permits.head? = some ⟨1, 51, 2, false⟩ := by
  decide +kernel

end Slots

section Deciding

variable {cfg : Config} {s s' : Traffic} {x y : Slot} {a : Act}

/-- When a step makes the circuit half-open, every call admitted before it is done. -/
def Traffic.Drained (cfg : Config) (s : Traffic) (a : Act) : Prop :=
  ∀ s' ∈ s.step cfg a, s.circuit.state = .stateOpen → s'.circuit.state = .stateHalfOpen →
    ∀ p ∈ s.permits, p.done = true

instance (cfg : Config) (s : Traffic) (a : Act) : Decidable (s.Drained cfg a) :=
  inferInstanceAs (Decidable (∀ s' ∈ s.step cfg a, s.circuit.state = .stateOpen →
    s'.circuit.state = .stateHalfOpen → ∀ p ∈ s.permits, p.done = true))

/-- The calls that are not done when the circuit is half-open belong to the episode. -/
def Traffic.EpisodeOk (s : Traffic) : Prop :=
  s.circuit.state = .stateHalfOpen → ∀ p ∈ s.permits, p.done = false → p.episode = s.episode

theorem live_markDone {permits : List Permit} {id : Nat} {p : Permit}
    (hp : p ∈ permits.map (Traffic.markDone id)) (hlive : p.done = false) : p ∈ permits := by
  obtain ⟨q, hq, rfl⟩ := mem_map.mp hp
  unfold Traffic.markDone at hlive ⊢
  split at hlive
  · cases hlive
  · next hne =>
    rw [if_neg hne]
    exact hq

theorem live_before {p : Permit} (hstep : s.step cfg a = some s') (hp : p ∈ s'.permits)
    (hlive : p.done = false) : p ∈ s.permits ∨ p.episode = s'.episode := by
  obtain ⟨-, hturn⟩ := Traffic.turn_of_step hstep
  cases hturn with
  | refused | ignored | checked | forced => exact .inl hp
  | admitted =>
    rcases mem_cons.mp hp with rfl | hp
    · exact .inr rfl
    · exact .inl hp
  | succeeded | failed | abandoned => exact .inl (live_markDone hp hlive)

theorem episode_of_state (hstep : s.step cfg a = some s')
    (hstate : s'.circuit.state = s.circuit.state) : s'.episode = s.episode := by
  obtain ⟨-, hturn⟩ := Traffic.turn_of_step hstep
  cases hturn with
  | refused => exact episode_after_of_eq _ hstate
  | @admitted now | @succeeded now | @failed now | @abandoned now =>
    exact episode_after_of_eq now hstate
  | ignored => rfl
  | checked => exact episode_after_of_eq _ hstate
  | forced => rfl

theorem episodeOk_step (h : s.EpisodeOk) (hdrained : s.Drained cfg a)
    (hstep : s.step cfg a = some s') : s'.EpisodeOk := by
  intro hhalf p hp hlive
  rcases live_before hstep hp hlive with hp | hnew
  · rcases half_before hstep hhalf with hwas | hopen
    · rw [episode_of_state hstep (hhalf.trans hwas.symm)]
      exact h hwas p hp hlive
    · have hdone := hdrained s' hstep hopen hhalf p hp
      rw [hlive] at hdone
      cases hdone
  · exact hnew

theorem episodeOk_run {now₀ : Int} {acts : List Act}
    (hdrained : RunAll (Traffic.step cfg) (Traffic.Drained cfg) (.new cfg now₀) acts)
    (hrun : run (Traffic.step cfg) (.new cfg now₀) acts = some s) : s.EpisodeOk := by
  refine run_invariant_of (Traffic.step cfg) ?_ hdrained ?_ hrun
  · intro s a s' hok h hstep
    exact episodeOk_step h hok hstep
  · intro hhalf
    cases hhalf

/-- The operations of the calls themselves. -/
def Act.byTraffic : Act → Bool
  | .acquire _ _ _ | .success _ _ _ | .failure _ _ | .abandon _ _ => true
  | .result _ _ _ | .setOverride _ _ => false

/-- Only the canary decides: when traffic moves a half-open circuit, it is the outcome of
a call that was admitted in this half-open episode. -/
theorem only_canary_decides {now₀ : Int} {acts : List Act}
    (hdrained : RunAll (Traffic.step cfg) (Traffic.Drained cfg) (.new cfg now₀) acts)
    (hrun : run (Traffic.step cfg) (.new cfg now₀) acts = some s) (hstep : s.step cfg a = some s')
    (htraffic : a.byTraffic = true) (hhalf : s.circuit.state = .stateHalfOpen)
    (hmoved : s'.circuit.state ≠ .stateHalfOpen) :
    ∃ id p, ((∃ now latency, a = .success now id latency) ∨ ∃ now, a = .failure now id) ∧
      s.permit id = some p ∧ p.done = false ∧ p.episode = s.episode := by
  have h := episodeOk_run hdrained hrun
  obtain ⟨-, hturn⟩ := Traffic.turn_of_step hstep
  cases hturn with
  | refused hslot | admitted hslot =>
    rcases allow_state hslot with hstate | ⟨hopen, -⟩
    · exact absurd (hstate.trans hhalf) hmoved
    · exact absurd (hhalf.symm.trans hopen) (fun h => nomatch h)
  | ignored => exact absurd hhalf hmoved
  | @succeeded now latency id p b hp hlive hslot =>
    have hmem := mem_of_find?_eq_some hp
    exact ⟨id, p, .inl ⟨now, latency, rfl⟩, hp, hlive, h hhalf p hmem hlive⟩
  | @failed now id p trips b hp hlive hslot =>
    have hmem := mem_of_find?_eq_some hp
    exact ⟨id, p, .inr ⟨now, rfl⟩, hp, hlive, h hhalf p hmem hlive⟩
  | abandoned hp hlive hslot =>
    have hstate := (congrArg Slot.state hslot).trans (abandon_state s.circuit.slot)
    exact absurd (hstate.trans hhalf) hmoved
  | checked => cases htraffic
  | forced => cases htraffic

/-- The canary succeeds. -/
theorem only_canary_decides_closing :
    ∃ s s', run (Traffic.step touchy) (.new touchy 0)
        [.acquire 1 0 false, .failure 2 0, .acquire 200 0 false] = some s ∧
      s.step touchy (.success 201 1 5) = some s' ∧ s'.circuit.state = .stateClosed ∧
        ∃ p, s.permit 1 = some p ∧ p.episode = s.episode := by
  obtain ⟨s, s', hs, hs', hhalf, hclosed⟩ : ∃ s s', run (Traffic.step touchy) (.new touchy 0)
      [.acquire 1 0 false, .failure 2 0, .acquire 200 0 false] = some s ∧
        s.step touchy (.success 201 1 5) = some s' ∧ s.circuit.state = .stateHalfOpen ∧
          s'.circuit.state = .stateClosed := by
    decide +kernel
  refine ⟨s, s', hs, hs', hclosed, ?_⟩
  have hmoved : s'.circuit.state ≠ .stateHalfOpen := by
    rw [hclosed]
    decide
  obtain ⟨id, p, hact, hp, -, hepisode⟩ :=
    only_canary_decides (by decide +kernel) hs hs' rfl hhalf hmoved
  rcases hact with ⟨_, _, hact⟩ | ⟨_, hact⟩
  · cases hact
    exact ⟨p, hp, hepisode⟩
  · cases hact

/-- A slow call from before the outage ends while the canary is out: its success closes
the circuit. -/
theorem slow_call_closes_the_circuit :
    ∃ s s', run (Traffic.step touchy) (.new touchy 0)
        [.acquire 1 0 false, .acquire 2 0 false, .failure 3 1, .acquire 200 0 false] = some s ∧
      s.step touchy (.success 201 0 200) = some s' ∧
        s.circuit.state = .stateHalfOpen ∧ s'.circuit.state = .stateClosed ∧ s.episode = 2 ∧
          s.permit 0 = some ⟨0, 1, 0, false⟩ := by
  decide +kernel

end Deciding

end Breaker
end GoGuard
