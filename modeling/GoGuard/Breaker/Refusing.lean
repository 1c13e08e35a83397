import GoGuard.Breaker.Canary

/-!
# `Refusing` and the admission of calls

Code that waits for a circuit asks `Refusing`, which reads the clock and changes nothing.
It waits for the longest jitter, so where it says no the circuit admits, unless a probe is
out.  The invariant behind it is that a taken probe slot belongs to a permit of the current
episode.
-/

namespace GoGuard
namespace Breaker

open Lib List

/-- `Refusing`. -/
def Circuit.refusing (cfg : Config) (b : Circuit) (now : Int) : Bool :=
  match b.override with
  | .forceOpen => true
  | .forceClosed => false
  | .none =>
    if cfg.dryRun ∨ b.state ≠ .stateOpen then false
    else if b.gated cfg now then true
    else now - b.lastFailure ≤ cfg.sleepWindow + cfg.sleepWindow.tdiv 10

/-- `applyDefaults`; a threshold of 0 stands for one that was given. -/
def Config.applyDefaults (cfg : Config) : Config :=
  let sampling := if cfg.samplingWindow ≤ 0 then 10 * 10 ^ 9 else cfg.samplingWindow
  let bucket := if cfg.bucketDuration ≤ 0 then sampling.tdiv 10 else cfg.bucketDuration
  { cfg with
    minSamples := if cfg.minSamples ≤ 0 then 10 else cfg.minSamples
    samplingWindow := sampling
    bucketDuration := if bucket ≤ 0 then 10 ^ 9 else bucket
    sleepWindow := if cfg.sleepWindow ≤ 0 then 30 * 10 ^ 9 else cfg.sleepWindow }

/-- A permit of the episode holds the probe slot. -/
def Slot.HeldBy (x : Slot) (episode : Nat) (p : Permit) : Prop :=
  p.episode = episode ∧ p.admittedAt = x.probeAt ∧ 0 < x.probeAt

/-- The clock has started, and a taken probe slot is that of a half-open circuit and of one
of its permits. -/
structure Traffic.Probed (s : Traffic) : Prop where
  clock : 0 < s.clock
  held : s.circuit.probing = true → s.circuit.state = .stateHalfOpen ∧
    ∃ p ∈ s.permits, s.circuit.slot.HeldBy s.episode p

section Slots

variable {cfg : Config} {x y : Slot} {now : Int} {due room : Bool} {v : Circuit.Verdict}

theorem allow_cases (hidle : x.probing = true → x.state = .stateHalfOpen)
    (hallow : (v, y) = x.allow cfg now due room) :
    y = x ∨ v = .admitted ∧ y.state = .stateHalfOpen ∧ y.probeAt = now := by
  unfold Slot.allow at hallow
  split at hallow
  · exact .inl (Prod.mk.inj hallow).2
  · exact .inl (Prod.mk.inj hallow).2
  · split at hallow
    · exact .inl (Prod.mk.inj hallow).2
    · split at hallow
      · exact .inl (Prod.mk.inj hallow).2
      · next hopen =>
        split at hallow
        · exact .inl (Prod.mk.inj hallow).2
        · split at hallow
          · cases hallow
            exact .inr ⟨rfl, rfl, rfl⟩
          · next hprobing =>
            have hhalf := hidle (by simpa using hprobing)
            rw [hopen] at hhalf
            cases hhalf
      · next hhalf =>
        split at hallow
        · cases hallow
          exact .inr ⟨rfl, hhalf, rfl⟩
        · split at hallow
          · cases hallow
            exact .inr ⟨rfl, hhalf, rfl⟩
          · exact .inl (Prod.mk.inj hallow).2

theorem rejectedOpen_cases (h : (x.allow cfg now due room).1 = .rejectedOpen) :
    x.override = .forceOpen ∨ x.override = .none ∧ cfg.dryRun = false ∧
      (x.state = .stateOpen ∧ (due = false ∨ x.probing = true) ∨
        x.state = .stateHalfOpen ∧ x.probing = true ∧
          (x.probeAt = 0 ∨ now - x.probeAt ≤ cfg.sleepWindow)) := by
  have hdry : dryVerdict cfg = .rejectedOpen → cfg.dryRun = false := by
    unfold dryVerdict
    cases cfg.dryRun <;> simp
  obtain ⟨state, probing, probeAt, override⟩ := x
  unfold Slot.allow at h
  split at h
  · next hforced => exact .inl hforced
  · cases h
  · next hnone =>
    split at h
    · cases h
    · split at h
      · cases h
      · next hopen =>
        split at h
        · next hdue => exact .inr ⟨hnone, hdry h, .inl ⟨hopen, .inl hdue⟩⟩
        · split at h
          · cases h
          · next hprobing =>
            exact .inr ⟨hnone, hdry h, .inl ⟨hopen, .inr (by simpa using hprobing)⟩⟩
      · next hhalf =>
        split at h
        · cases h
        · next hprobing =>
          split at h
          · cases h
          · next hlate =>
            refine .inr ⟨hnone, hdry h, .inr ⟨hhalf, by simpa using hprobing, ?_⟩⟩
            simp only [ne_eq, not_and, Int.not_lt] at hlate ⊢
            by_cases hzero : probeAt = 0
            · exact .inl hzero
            · exact .inr (hlate hzero)

theorem succeed_probing (h : x.succeed.probing = true) : x.succeed = x := by
  unfold Slot.succeed at h ⊢
  split at h
  · cases h
  · next hstate => rw [if_neg hstate]

theorem fail_probing (trips : Bool) (hidle : x.probing = true → x.state = .stateHalfOpen)
    (h : (x.fail trips).probing = true) : x.fail trips = x := by
  obtain ⟨state, probing, probeAt, override⟩ := x
  cases state with
  | stateHalfOpen => cases h
  | stateOpen => rfl
  | stateClosed =>
    cases trips with
    | false => rfl
    | true => cases hidle h

theorem abandon_probing (h : x.abandon.probing = true) : x.abandon = x := by
  unfold Slot.abandon at h ⊢
  split at h
  · cases h
  · next hstate => rw [if_neg hstate]

theorem result_probing {hc : Health} {healthy : Bool} {consecutive : Int}
    (h : (x.result hc healthy consecutive).probing = true) :
    x.result hc healthy consecutive = x := by
  unfold Slot.result at h ⊢
  split at h
  · next hbad =>
    rw [if_pos hbad]
    split at h
    · cases h
    · next hstate => rw [if_neg hstate]
  · next hgood =>
    rw [if_neg hgood]
    split at h
    · next hfew => rw [if_pos hfew]
    · split at h <;> cases h

end Slots

section Runs

variable {cfg : Config} {s s' : Traffic} {a : Act} {now : Int} {id : Nat} {b : Circuit}

theorem Slot.HeldBy.markDone {x : Slot} {episode : Nat} {p : Permit} (h : x.HeldBy episode p)
    (id : Nat) : x.HeldBy episode (Traffic.markDone id p) := by
  obtain ⟨-, hepisode, hat, -⟩ := markDone_fields id p
  exact ⟨hepisode.trans h.1, hat.trans h.2.1, h.2.2⟩

theorem Traffic.Probed.after (h : s.Probed) (hnow : s.clock ≤ now)
    (hslot : b.slot.probing = true → b.slot = s.circuit.slot) : (s.after now b).Probed := by
  refine ⟨lt_of_lt_of_le h.clock hnow, fun hprobing => ?_⟩
  have hsame := hslot hprobing
  obtain ⟨hhalf, p, hp, hheld⟩ := h.held ((congrArg Slot.probing hsame).symm.trans hprobing)
  refine ⟨(congrArg Slot.state hsame).trans hhalf, p, hp, ?_⟩
  rw [episode_after_of_eq now (congrArg Slot.state hsame)]
  change b.slot.HeldBy s.episode p
  rw [hsame]
  exact hheld

theorem Traffic.Probed.finished (h : s.Probed) (hnow : s.clock ≤ now)
    (hslot : b.slot.probing = true → b.slot = s.circuit.slot) : (s.finished now id b).Probed := by
  have hafter := h.after hnow hslot
  refine ⟨hafter.clock, fun hprobing => ?_⟩
  obtain ⟨hhalf, p, hp, hheld⟩ := hafter.held hprobing
  exact ⟨hhalf, Traffic.markDone id p, mem_map_of_mem hp, hheld.markDone id⟩

theorem probed_step (h : s.Probed) (hstep : s.step cfg a = some s') : s'.Probed := by
  have hidle : s.circuit.slot.probing = true → s.circuit.slot.state = .stateHalfOpen :=
    fun hprobing => (h.held hprobing).1
  obtain ⟨hnow, hturn⟩ := Traffic.turn_of_step hstep
  cases hturn with
  | refused hslot hv =>
    rcases allow_cases hidle hslot with hsame | ⟨hadmitted, -⟩
    · exact h.after hnow fun _ => hsame
    · exact absurd hadmitted hv
  | @admitted now rnd vip due room b hslot =>
    rcases allow_cases hidle hslot with hsame | ⟨-, hhalf, hat⟩
    · have hafter := h.after hnow fun _ => hsame
      refine ⟨hafter.clock, fun hprobing => ?_⟩
      obtain ⟨hhalf, p, hp, hheld⟩ := hafter.held hprobing
      exact ⟨hhalf, p, mem_cons_of_mem _ hp, hheld⟩
    · have hclock : 0 < now := lt_of_lt_of_le h.clock hnow
      exact ⟨hclock, fun _ => ⟨hhalf, _, mem_cons_self, rfl, hat.symm, hat ▸ hclock⟩⟩
  | ignored | forced => exact ⟨lt_of_lt_of_le h.clock hnow, h.held⟩
  | succeeded hp hlive hslot =>
    exact h.finished hnow fun hprobing => hslot.trans (succeed_probing (hslot ▸ hprobing))
  | failed hp hlive hslot =>
    exact h.finished hnow fun hprobing => hslot.trans (fail_probing _ hidle (hslot ▸ hprobing))
  | abandoned hp hlive hslot =>
    exact h.finished hnow fun hprobing => hslot.trans (abandon_probing (hslot ▸ hprobing))
  | checked hh hslot =>
    exact h.after hnow fun hprobing => hslot.trans (result_probing (hslot ▸ hprobing))

theorem due_of_waited {rnd : Nat} (hsleep : 0 < cfg.sleepWindow) (hgate : b.gated cfg now = false)
    (hwaited : cfg.sleepWindow + cfg.sleepWindow.tdiv 10 < now - b.lastFailure) :
    b.due cfg now rnd = true := by
  have hjitter : Circuit.jitter cfg rnd ≤ cfg.sleepWindow.tdiv 10 := by
    unfold Circuit.jitter
    split
    · next hpos => exact (Int.emod_lt_of_pos _ hpos).le
    · exact Int.tdiv_nonneg hsleep.le (by decide)
  unfold Circuit.due
  rw [hgate]
  simp only [Bool.not_false, Bool.true_and, decide_eq_true_eq]
  omega

end Runs

end Breaker
end GoGuard
