import GoGuard.Breaker.Prober

/-!
# Probes from before a relapse

`Result` should move an open circuit only on healthy probes that were started after it
opened.  The prober looks at the number of openings once, before it sends a probe.  An
opening behind that look, or one that `OnStateChange` has not counted when it happens, is
not seen before the result is delivered.

When no opening falls into either gap, a run of healthy probes is as old as the last
opening at most: the prober that has seen every opening counts only probes behind it, and
one that has not starts afresh at its next look.
-/

namespace GoGuard
namespace Breaker

open Lib List

section Freshness

/-- The prober is between its look at the openings and its `Result`. -/
def Thread.inFlight : Thread → Bool
  | .prober .ready _ | .prober .probing _ | .prober (.probed _) _ | .prober (.reporting _) _ => true
  | _ => false

/-- An opening that is not counted yet. -/
def Thread.uncounted : Thread → Bool
  | .calling .count _ => true
  | _ => false

/-- Traffic opens the circuit while no probe is in flight, and the prober looks at the
openings when all of them are counted. -/
def Watch.Settled (cfg : Config) (w : Watch) : WatchAct → Prop
  | .traffic a =>
    ∀ r ∈ w.traffic.step cfg a, w.state ≠ .stateOpen → r.circuit.state = .stateOpen →
      ∀ t ∈ w.threads, t.inFlight = false
  | .advance k _ _ =>
    w.threads[k]?.any (fun t => t matches .prober .checking _) = true →
      ∀ t ∈ w.threads, t.uncounted = false
  | .close | .cancel => True

instance (cfg : Config) (w : Watch) (a : WatchAct) : Decidable (w.Settled cfg a) :=
  match a with
  | .traffic a => inferInstanceAs (Decidable (∀ r ∈ w.traffic.step cfg a,
      w.state ≠ .stateOpen → r.circuit.state = .stateOpen → ∀ t ∈ w.threads, t.inFlight = false))
  | .advance k _ _ => inferInstanceAs (Decidable (
      w.threads[k]?.any (fun t => t matches .prober .checking _) = true →
        ∀ t ∈ w.threads, t.uncounted = false))
  | .close | .cancel => isTrue trivial

/-- The healthy run has one start for each probe, and the prober has seen no opening that
was not counted. -/
structure Prober.Sound (p : Prober) (opens : Nat) : Prop where
  counts : p.begun.length = p.consecutive
  seen : p.gen ≤ opens

/-- The healthy run started behind the last opening. -/
def Prober.After (p : Prober) (openedAt : Nat) : Prop :=
  ∀ b ∈ p.begun, openedAt < b

/-- A prober that has seen every opening counts only probes behind the last one; one with
a probe in flight does so in any case. -/
def Thread.Fresh (opens uncounted openedAt : Nat) : Thread → Prop
  | .prober .waiting p | .prober .looking p | .prober .checking p =>
    p.Sound opens ∧ (p.gen = opens + uncounted → p.After openedAt)
  | .prober .ready p | .prober (.reporting _) p => p.Sound opens ∧ p.After openedAt
  | .prober .probing p | .prober (.probed _) p =>
    p.Sound opens ∧ p.After openedAt ∧ openedAt < p.started
  | _ => True

variable {cfg : Config} {w w' : Watch} {t t' : Thread} {sh sh' : Shared} {p : Prober}
variable {state : BreakerState} {moment k opens opens' uncounted uncounted' openedAt : Nat}

theorem sound_fresh (opens : Nat) : (Prober.fresh opens).Sound opens :=
  ⟨rfl, le_refl _⟩

theorem after_fresh (opens openedAt : Nat) : (Prober.fresh opens).After openedAt :=
  fun _ hb => nomatch hb

theorem Prober.Sound.mono (h : p.Sound opens) (hle : opens ≤ opens') : p.Sound opens' :=
  ⟨h.counts, le_trans h.seen hle⟩

theorem Prober.Sound.judge (h : p.Sound opens) (ok : Bool) : (p.judge ok).Sound opens := by
  cases ok with
  | false => exact ⟨rfl, h.seen⟩
  | true =>
    refine ⟨?_, h.seen⟩
    change (p.begun ++ [p.started]).length = p.consecutive + 1
    rw [length_append, h.counts]
    rfl

theorem Prober.After.judge (h : p.After openedAt) (hstarted : openedAt < p.started) (ok : Bool) :
    (p.judge ok).After openedAt := by
  cases ok with
  | false => exact fun _ hb => nomatch hb
  | true =>
    intro b hb
    rcases mem_append.mp hb with hb | hb
    · exact h b hb
    · rw [mem_singleton.mp hb]
      exact hstarted

theorem Thread.Fresh.mono (h : t.Fresh opens uncounted openedAt) (hle : opens ≤ opens')
    (hsum : opens' + uncounted' = opens + uncounted) : t.Fresh opens' uncounted' openedAt := by
  cases t with
  | calling stage caller => trivial
  | done => trivial
  | prober phase p =>
    cases phase with
    | waiting | looking | checking => exact ⟨h.1.mono hle, fun hgen => h.2 (hgen.trans hsum)⟩
    | ready | probing | probed | reporting => exact ⟨h.1.mono hle, h.2⟩
    | _ => trivial

theorem Thread.Fresh.opened (h : t.Fresh opens uncounted openedAt) (hflight : t.inFlight = false)
    (moment : Nat) : t.Fresh opens (uncounted + 1) moment := by
  have hunseen {p : Prober} (hp : p.Sound opens) : p.gen ≠ opens + (uncounted + 1) := by
    have hseen := hp.seen
    omega
  cases t with
  | calling stage caller => trivial
  | done => trivial
  | prober phase p =>
    cases phase with
    | waiting | looking | checking => exact ⟨h.1, fun hgen => absurd hgen (hunseen h.1)⟩
    | ready | probing | probed | reporting => cases hflight
    | _ => trivial

theorem Thread.Turn.openings (hturn : t.Turn cfg state moment sh t' sh') :
    sh.opens ≤ sh'.opens ∧ sh'.opens + t'.uncounted.toNat = sh.opens + t.uncounted.toNat := by
  cases hturn with
  | counted => exact ⟨Nat.le_succ _, rfl⟩
  | _ => exact ⟨le_refl _, rfl⟩

/-- A goroutine's step leaves it fresh, when the prober looks at counted openings only. -/
theorem Thread.Turn.fresh (hturn : t.Turn cfg state moment sh t' sh')
    (h : t.Fresh sh.opens uncounted openedAt) (hlater : openedAt < moment)
    (hlook : ∀ p, t = .prober .checking p → uncounted = 0) :
    t'.Fresh sh.opens uncounted openedAt := by
  cases hturn with
  | entered => exact ⟨sound_fresh _, fun _ => after_fresh _ _⟩
  | rang => exact h
  | needed => exact h
  | relapsed => exact ⟨sound_fresh _, after_fresh _ _⟩
  | unchanged hgen =>
    refine ⟨h.1, h.2 ?_⟩
    rw [hlook _ rfl]
    exact hgen.symm
  | sent => exact ⟨⟨h.1.counts, h.1.seen⟩, h.2, hlater⟩
  | answered => exact h
  | @judged p ok => exact ⟨h.1.judge ok, h.2.1.judge h.2.2 ok⟩
  | reported => exact ⟨h.1, fun _ => h.2⟩
  | _ => trivial

/-- Every goroutine is fresh. -/
def Watch.Fresh (w : Watch) : Prop :=
  ∀ t ∈ w.threads, t.Fresh w.shared.opens (w.threads.countP Thread.uncounted) w.openedAt

theorem Watch.Fresh.put (h : w.Fresh) (hlater : w.openedAt < w.moment) (ht : w.threads[k]? = some t)
    (hlook : ∀ p, t = .prober .checking p → ∀ u ∈ w.threads, u.uncounted = false)
    (hturn : t.Turn cfg w.state w.moment w.shared t' sh') : (w.put k t' sh').Fresh := by
  obtain ⟨hle, hopenings⟩ := hturn.openings
  have hcount := countP_set Thread.uncounted t' ht
  have hsum : sh'.opens + (w.threads.set k t').countP Thread.uncounted =
      w.shared.opens + w.threads.countP Thread.uncounted := by
    omega
  intro u hu
  refine Thread.Fresh.mono ?_ hle hsum
  rcases mem_or_eq_of_mem_set hu with hu | rfl
  · exact h u hu
  · refine hturn.fresh (h t (mem_of_getElem? ht)) hlater fun p hp => ?_
    rw [countP_eq_zero]
    intro u hu
    rw [hlook p hp u hu]
    exact Bool.false_ne_true

variable {r : Traffic} {healthy : Bool} {a : WatchAct} {v : Watch}

theorem Watch.Fresh.moved {caller : Option Nat} (h : w.Fresh)
    (hflight : w.state ≠ .stateOpen → r.circuit.state = .stateOpen →
      ∀ t ∈ w.threads, t.inFlight = false) :
    (w.moved r caller).Fresh := by
  unfold Watch.moved
  split
  · next hopened =>
    intro t ht
    rw [countP_append]
    rcases mem_append.mp ht with ht | ht
    · exact (h t ht).opened (hflight hopened.1 hopened.2 t ht) w.moment
    · rw [mem_singleton.mp ht]
      trivial
  · exact h

/-- While one prober delivers a result, no other has a probe in flight. -/
theorem inFlight_put {u : Thread} (h : WatchOk w)
    (ht : w.threads[k]? = some (.prober (.reporting healthy) p))
    (hu : u ∈ (w.put k (.prober .waiting p) w.shared).threads) : u.inFlight = false := by
  have hcount := countP_set Thread.holds .done ht
  have hnone : (w.threads.set k .done).countP Thread.holds = 0 := by
    have hle := Bool.toNat_le w.shared.proberRunning
    rw [h.held] at hcount
    change _ + 1 = _ + 0 at hcount
    omega
  obtain ⟨j, hj⟩ := mem_iff_getElem?.mp hu
  change (w.threads.set k (.prober .waiting p))[j]? = some u at hj
  by_cases hjk : k = j
  · subst hjk
    rw [List.getElem?_set_self (List.getElem?_eq_some_iff.mp ht).1] at hj
    cases hj
    rfl
  · rw [List.getElem?_set_ne hjk] at hj
    have hmem : u ∈ w.threads.set k .done := by
      refine mem_iff_getElem?.mpr ⟨j, ?_⟩
      rw [List.getElem?_set_ne hjk]
      exact hj
    have hfree := countP_eq_zero.mp hnone u hmem
    cases u with
    | calling stage caller => rfl
    | done => rfl
    | prober phase p =>
      cases phase with
      | ready | probing | probed | reporting => exact absurd rfl hfree
      | _ => rfl

theorem Watch.Turn.fresh (hturn : w.Turn cfg a v) (hsettled : w.Settled cfg a) (hok : WatchOk w)
    (hlater : w.openedAt < w.moment) (h : w.Fresh) : v.Fresh := by
  cases hturn with
  | @served a r hkind hstep => exact h.moved (hsettled r hstep)
  | @advanced k now ok t t' sh ht hkind hturn =>
    refine h.put hlater ht (fun p hp => hsettled ?_) hturn
    rw [ht, hp]
    rfl
  | @delivered k now ok healthy p r ht hstep =>
    have hturn : Thread.Turn cfg w.state w.moment w.shared (.prober (.reporting healthy) p)
        (.prober .waiting p) w.shared := .reported
    have hput := h.put hlater ht (fun _ hp => nomatch hp) hturn
    exact hput.moved fun _ _ u hu => inFlight_put hok ht hu
  | closed => exact h
  | cancelled hclosed => exact h

theorem moved_openedAt (w : Watch) (r : Traffic) (caller : Option Nat) :
    (w.moved r caller).moment = w.moment ∧
      ((w.moved r caller).openedAt = w.openedAt ∨ (w.moved r caller).openedAt = w.moment) := by
  unfold Watch.moved
  split
  · exact ⟨rfl, .inr rfl⟩
  · exact ⟨rfl, .inl rfl⟩

theorem Watch.Turn.moments (hturn : w.Turn cfg a v) :
    v.moment = w.moment ∧ (v.openedAt = w.openedAt ∨ v.openedAt = w.moment) := by
  cases hturn with
  | served => exact moved_openedAt w _ _
  | advanced | closed | cancelled => exact ⟨rfl, .inl rfl⟩
  | delivered => exact moved_openedAt (w.put _ _ _) _ _

structure FreshOk (w : Watch) : Prop where
  watch : WatchOk w
  later : w.openedAt < w.moment
  fresh : w.Fresh

theorem freshOk_step (hcheck : cfg.health ≠ none) (hsettled : w.Settled cfg a) (h : FreshOk w)
    (hstep : w.step cfg a = some w') : FreshOk w' := by
  have hwatch := watchOk_step hcheck h.watch hstep
  obtain ⟨v, hturn, rfl⟩ := Watch.turn_of_step hstep
  obtain ⟨hmoment, hopened⟩ := hturn.moments
  have hbefore := h.later
  refine ⟨hwatch, ?_, hturn.fresh hsettled h.watch h.later h.fresh⟩
  change v.openedAt < v.moment + 1
  omega

theorem freshOk_run {now₀ : Int} {acts : List WatchAct} (hcheck : cfg.health ≠ none)
    (hsettled : RunAll (Watch.step cfg) (Watch.Settled cfg) (.new cfg now₀) acts)
    (hrun : run (Watch.step cfg) (.new cfg now₀) acts = some w) : FreshOk w := by
  refine run_invariant_of (Watch.step cfg) ?_ hsettled ?_ hrun
  · intro w a w' hok h hstep
    exact freshOk_step hcheck hok h hstep
  · exact ⟨watchOk_new cfg now₀, Nat.one_pos, fun _ ht => nomatch ht⟩

/-- `Result` moves an open circuit only when the prober has counted its threshold of
healthy probes. -/
theorem result_opens {s : Traffic} {now consecutive : Int}
    (hstep : s.step cfg (.result now healthy consecutive) = some r)
    (hopen : s.circuit.state = .stateOpen) (hmoved : r.circuit.state ≠ .stateOpen) :
    ∃ h, cfg.health = some h ∧ healthy = true ∧ h.successThreshold ≤ consecutive := by
  obtain ⟨-, hturn⟩ := Traffic.turn_of_step hstep
  cases hturn with
  | ignored => exact absurd hopen hmoved
  | @checked _ _ _ h b hh hslot =>
    have hsame (heq : b.slot = s.circuit.slot) : False :=
      hmoved ((congrArg Slot.state heq).trans hopen)
    refine ⟨h, hh, ?_⟩
    unfold Slot.result at hslot
    split at hslot
    · rw [if_neg] at hslot
      · exact absurd hslot hsame
      · rw [show s.circuit.slot.state = .stateOpen from hopen]
        decide
    · next hhealthy =>
      split at hslot
      · exact absurd hslot hsame
      · next hreached => exact ⟨by simpa using hhealthy, not_lt.mp hreached⟩

/-- Only probes started after the circuit opened last make `Result` move it: when it does,
the prober has counted its threshold of healthy probes, one behind the other, and each of
them started after the opening. -/
theorem fresh_probes_reopen {now₀ now : Int} {acts : List WatchAct} {ok healthy : Bool}
    (hsettled : RunAll (Watch.step cfg) (Watch.Settled cfg) (.new cfg now₀) acts)
    (hrun : run (Watch.step cfg) (.new cfg now₀) acts = some w)
    (hreport : w.threads[k]? = some (.prober (.reporting healthy) p))
    (hstep : w.step cfg (.advance k now ok) = some w') (hopen : w.state = .stateOpen)
    (hmoved : w'.state ≠ .stateOpen) :
    ∃ h, cfg.health = some h ∧ healthy = true ∧ h.successThreshold ≤ p.consecutive ∧
      p.begun.length = p.consecutive ∧ ∀ b ∈ p.begun, w.openedAt < b := by
  obtain ⟨v, hturn, rfl⟩ := Watch.turn_of_step hstep
  cases hturn with
  | advanced ht hkind hturn => exact absurd (Option.some.inj (ht.symm.trans hreport)) (hkind _ _)
  | @delivered _ _ _ healthy' p' r ht hserved =>
    cases Option.some.inj (ht.symm.trans hreport)
    have hstate : ((w.put k (.prober .waiting p) w.shared).moved r (some k)).state =
        r.circuit.state := by
      unfold Watch.moved
      split
      · rfl
      · rfl
    obtain ⟨h, hh, hhealthy, hreached⟩ := result_opens hserved hopen (hstate ▸ hmoved)
    have hcheck : cfg.health ≠ none := by
      rw [hh]
      exact fun h => nomatch h
    have hfresh := (freshOk_run hcheck hsettled hrun).fresh _ (mem_of_getElem? hreport)
    exact ⟨h, hh, hhealthy, hreached, hfresh.1.counts, hfresh.2⟩

/-- The circuit opens, the prober is launched and finds it healthy twice. -/
def recovery : List WatchAct :=
  .traffic (.acquire 1 0 false) :: .traffic (.failure 2 0) ::
    List.replicate 17 (.advance 0 2 true)

theorem fresh_probes_reopen_recovery :
    ∃ w w' p, run (Watch.step checked) (.new checked 0) recovery = some w ∧
      w.step checked (.advance 0 2 true) = some w' ∧ w'.state = .stateHalfOpen ∧
        w.threads[0]? = some (.prober (.reporting true) p) ∧ ∀ b ∈ p.begun, w.openedAt < b := by
  obtain ⟨w, w', hw, hw', hreport, hopen, hhalf⟩ : ∃ w w', run (Watch.step checked)
      (.new checked 0) recovery = some w ∧ w.step checked (.advance 0 2 true) = some w' ∧
        w.threads[0]? = some (.prober (.reporting true) ⟨1, 2, 17, [10, 17]⟩) ∧
          w.state = .stateOpen ∧ w'.state = .stateHalfOpen := by
    decide +kernel
  have hmoved : w'.state ≠ .stateOpen := by
    rw [hhalf]
    decide
  obtain ⟨_, -, -, -, -, hafter⟩ :=
    fresh_probes_reopen (by decide +kernel) hw hreport hw' hopen hmoved
  exact ⟨w, w', _, hw, hw', hhalf, hreport, hafter⟩

/-- Then the circuit is half-open, and the third probe is on its way when the canary fails
and the circuit opens again. -/
def relapse : List WatchAct :=
  recovery.append [.advance 0 2 true, .traffic (.acquire 3 0 false), .advance 0 3 true,
    .advance 0 3 true, .advance 0 3 true, .advance 0 3 true, .traffic (.failure 4 1),
    .advance 1 4 true, .advance 1 4 true, .advance 0 4 true, .advance 0 4 true]

/-- The result of the third probe makes the circuit half-open, on probes that are all older
than the opening. -/
theorem stale_probes_reopen :
    ∃ w w' p, run (Watch.step checked) (.new checked 0) relapse = some w ∧
      w.threads[0]? = some (.prober (.reporting true) p) ∧
        w.step checked (.advance 0 4 true) = some w' ∧ w.state = .stateOpen ∧
          w'.state = .stateHalfOpen ∧ p.begun.length = 3 ∧ ∀ b ∈ p.begun, b < w.openedAt := by
  obtain ⟨w, w', hw, hw', hreport, hopen, hhalf, hold⟩ : ∃ w w', run (Watch.step checked)
      (.new checked 0) relapse = some w ∧ w.step checked (.advance 0 4 true) = some w' ∧
        w.threads[0]? = some (.prober (.reporting true) ⟨1, 3, 25, [10, 17, 25]⟩) ∧
          w.state = .stateOpen ∧ w'.state = .stateHalfOpen ∧
            ∀ b ∈ [10, 17, 25], b < w.openedAt := by
    decide +kernel
  exact ⟨w, w', _, hw, hreport, hw', hopen, hhalf, rfl, hold⟩

end Freshness

end Breaker
end GoGuard
