import GoGuard.Kafka.Applied
import GoGuard.Kafka.Pool

/-!
# Leaving `Run`

The way out of `Run`: close the work channel, wait for the workers, drain the
results, commit.  Three situations break it, and `Orderly` names them as
conditions on the result that is about to be applied:

* the final drain applies a result that starts the next message of its key,
  while the work channel is already closed;
* the loop is left by an unstorable message with others waiting behind it, which
  stay counted and never run;
* the final drain stops at an error while results of finished messages are still
  behind it in the channel.

In a run without them nothing is sent on the closed channel, the final drain
always has a result to read or nothing left to wait for, and the final commit
is exactly the finished prefix.
-/

namespace GoGuard
namespace Kafka

open Lib Dlq Consumer List

namespace Consumer

section PoolFrames

/-- The channels and the workers are the same. -/
structure SamePool (c d : Consumer) : Prop where
  work : d.work = c.work
  running : d.running = c.running
  results : d.results = c.results
  closed : d.workClosed = c.workClosed
  stopping : d.stopping = c.stopping

variable {c d e : Consumer} {cfg : Config}

theorem SamePool.trans (h₁ : SamePool c d) (h₂ : SamePool d e) : SamePool c e :=
  ⟨h₂.work.trans h₁.work, h₂.running.trans h₁.running, h₂.results.trans h₁.results,
    h₂.closed.trans h₁.closed, h₂.stopping.trans h₁.stopping⟩

theorem Outside.samePool (h : Outside c d) : SamePool c d :=
  ⟨h.work, h.running, h.results, h.closed, h.stopping⟩

theorem samePool_dropQueued (c : Consumer) (tp : TopicPartition) (only : Option Bytes) :
    SamePool c (c.dropQueued tp only) := by
  obtain ⟨hwork, hrun, hclosed, -⟩ := dropQueued_pool c tp only
  have hquiet := quiet_dropQueued c tp only
  exact ⟨hwork, hrun, hquiet.results, hclosed, hquiet.stopping⟩

theorem samePool_dropFollowers (c : Consumer) (t : Task) : SamePool c (c.dropFollowers t) := by
  unfold dropFollowers
  split
  · exact ⟨rfl, rfl, rfl, rfl, rfl⟩
  · exact (samePool_dropQueued c _ _).trans ⟨rfl, rfl, rfl, rfl, rfl⟩

theorem samePool_onAssigned (c : Consumer) (tps : List TopicPartition) :
    SamePool c (c.onAssigned tps) :=
  List.foldlRecOn (motive := SamePool c) tps newPartition ⟨rfl, rfl, rfl, rfl, rfl⟩
    fun _ hd _ _ => hd.trans ⟨rfl, rfl, rfl, rfl, rfl⟩

theorem samePool_revokeOne (c : Consumer) (tp : TopicPartition) : SamePool c (c.revokeOne tp) := by
  refine SamePool.trans ?_ (samePool_dropQueued _ tp none)
  exact ⟨rfl, rfl, rfl, rfl, rfl⟩

theorem samePool_onRevoked (c : Consumer) (tps : List TopicPartition) (ok : Bool) :
    SamePool c (c.onRevoked tps ok) := by
  have hfold := List.foldlRecOn (motive := SamePool c) tps revokeOne
    (commits_commitOffsets c (c.pending (some tps)) ok).outside.samePool
    fun d hd tp _ => hd.trans (samePool_revokeOne d tp)
  exact hfold.trans ⟨rfl, rfl, rfl, rfl, rfl⟩

theorem workClosed_dispatchOne (c : Consumer) (t : Task) (rest : List Task) (hw : 1 < cfg.workers)
    (ctxDone : Bool) (res : Result) (err : Option Error) (seekOk : Bool) :
    (c.dispatchOne cfg ctxDone t rest res err seekOk).1.workClosed = c.workClosed := by
  refine dispatchOne_keeps (P := fun d => d.workClosed = c.workClosed) rfl ?_ ?_
  · intro p _ _ hone
    omega
  · intro p _ _ _
    obtain ⟨w, qs, heq⟩ := send_frame (c.started t p rest) t
    rw [heq]
    rfl

/-- What `complete` leaves of the pool: only the work channel may grow, and only
while it is open. -/
structure Applies (c d : Consumer) : Prop where
  running : d.running = c.running
  results : d.results = c.results
  closed : d.workClosed = c.workClosed
  stopping : d.stopping = c.stopping
  work : c.workClosed = true → d.work = c.work
  gens : ∀ tp, d.genOf tp = c.genOf tp

theorem Applies.trans (h₁ : Applies c d) (h₂ : Applies d e) : Applies c e :=
  ⟨h₂.running.trans h₁.running, h₂.results.trans h₁.results, h₂.closed.trans h₁.closed,
    h₂.stopping.trans h₁.stopping,
    fun hc => (h₂.work (h₁.closed.trans hc)).trans (h₁.work hc),
    fun tp => (h₂.gens tp).trans (h₁.gens tp)⟩

theorem SamePool.applies (h : SamePool c d) (hgens : ∀ tp, d.genOf tp = c.genOf tp) : Applies c d :=
  ⟨h.running, h.results, h.closed, h.stopping, fun _ => h.work, hgens⟩

theorem applies_released (cfg : Config) (c : Consumer) (t : Task) :
    Applies c (released cfg c t).1 := by
  obtain ⟨w, qs, heq, hwork⟩ := released_frame cfg c t
  rw [heq]
  exact ⟨rfl, rfl, rfl, rfl, hwork, fun _ => rfl⟩

theorem applies_complete
    (cfg : Config) (c : Consumer) (ctxDone : Bool) (r : TaskResult) (seekOk : Bool) :
    Applies c (complete cfg c ctxDone r seekOk).1 := by
  have hout : ∀ d e, Applies c d → Outside d e → Applies c e :=
    fun d e hd ho => hd.trans (ho.samePool.applies ho.gens)
  refine complete_pool (P := Applies c) ?_ ?_ (fun d hd => hd) hout hout
    (fun d hd => hd.trans (applies_released cfg d r.task)) ?_
  · intro _
    exact ⟨rfl, rfl, rfl, rfl, fun _ => rfl, fun _ => rfl⟩
  · intro p hp _
    exact ⟨rfl, rfl, rfl, rfl, fun _ => rfl, genOf_setPart (c := c.landed) hp rfl⟩
  · intro d hd
    exact hd.trans ((samePool_dropFollowers d r.task).applies
      fun tp => genOf_eq_of_core ((quiet_dropFollowers d r.task).core tp))

/-- An error of `complete` while the consumer is stopping comes from the result. -/
theorem stopsRun_of_complete_fatal {ctxDone : Bool} {r : TaskResult} {seekOk : Bool} {e : Fatal}
    (hstop : c.stopping = true) (hret : (complete cfg c ctxDone r seekOk).2 = .fatal e) :
    c.Current r.task ∧ StopsRun cfg r := by
  -- nothing is rewound while the consumer is stopping
  have hrewind : ∀ d : Consumer, d.stopping = true →
      (d.rewindIfDrained r.task.tp seekOk).2 = .ok := by
    intro d hd
    unfold rewindIfDrained
    split
    · rfl
    · rw [if_neg]
      simp [hd]
  have hreleased : ∀ d : Consumer, (released cfg d r.task).2 ≠ .fatal e := by
    intro d
    unfold released pushWork
    split
    · rintro ⟨⟩
    · split
      · rintro ⟨⟩
      · split <;> rintro ⟨⟩
  revert hret
  refine complete_keeps (P := fun d => d.stopping = true ∧ c.Current r.task)
    (Q := fun x => x.2 = .fatal e → c.Current r.task ∧ StopsRun cfg r) (by rintro - ⟨⟩) ?_ ?_
    (fun d hd _ => hd) ?_ ?_
  · intro p hp hgen
    exact ⟨hstop, by simp [Current, genOf, hp, hgen]⟩
  · rintro d ⟨-, hcur⟩ hun hhalt -
    exact ⟨hcur, .inl ⟨hun, hhalt⟩⟩
  · rintro d p ⟨hd, -⟩ - - - hret
    exfalso
    unfold finishSafe andThen at hret
    split at hret
    · have hstop' :
          (released cfg (d.markDone r.task.tp p r.task.m.offset) r.task).1.stopping = true :=
        (quiet_released cfg _ r.task).stopping.trans hd
      rw [hrewind _ hstop'] at hret
      cases hret
    · exact hreleased _ hret
  · rintro d ⟨hd, hcur⟩ hun hbad hret
    refine ⟨hcur, .inr ⟨hun, hbad, ?_⟩⟩
    by_contra hno
    have hstop' : (d.dropFollowers r.task).stopping = true :=
      (quiet_dropFollowers _ r.task).stopping.trans hd
    have hnote : (d.dropFollowers r.task).noteFailure ctxDone r.task.tp r =
        (d.dropFollowers r.task, .ok) := by
      unfold noteFailure
      rw [if_neg hno, if_pos (.inr hstop')]
    unfold finishFailed andThen at hret
    rw [hnote] at hret
    simp only at hret
    rw [hrewind _ hstop'] at hret
    cases hret

end PoolFrames

section LateResults

variable {c : Consumer}

theorem nothingToApply_iff :
    NothingToApply c ↔ ∀ r ∈ c.results, r.res.safe = true → ¬ c.Current r.task := by
  constructor
  · intro h r hr hsafe hcur
    obtain ⟨p, hp, hgen⟩ := Option.map_eq_some_iff.mp hcur
    exact h r hr hsafe p hp hgen
  · intro h r hr hsafe p hp hgen
    exact h r hr hsafe (by simp [Current, genOf, hp, hgen])

/-- Nothing becomes applicable while the results stay and no old generation
comes back. -/
theorem NothingToApply.of_gens {d : Consumer} (h : NothingToApply c)
    (hresults : d.results = c.results)
    (hgens : ∀ r ∈ c.results, d.Current r.task → c.Current r.task) : NothingToApply d := by
  rw [nothingToApply_iff] at h ⊢
  rw [hresults]
  intro r hr hsafe hcur
  exact h r hr hsafe (hgens r hr hcur)

theorem Outside.nothingToApply {d : Consumer} (ho : Outside c d) (h : NothingToApply c) :
    NothingToApply d := by
  refine h.of_gens ho.results ?_
  intro r _ hcur
  exact (ho.gens _).symm.trans hcur

theorem nothingToApply_onAssigned {tps : List TopicPartition} (h : NothingToApply c)
    (hgen : ∀ r ∈ c.results, r.task.gen ≤ c.gen) : NothingToApply (c.onAssigned tps) := by
  induction tps generalizing c with
  | nil => exact h
  | cons tp tps ih =>
    refine ih (c := c.newPartition tp) (h.of_gens rfl ?_) ?_
    · intro r hr hcur
      by_cases heq : r.task.tp = tp
      · -- the new assignment is younger than every result
        have hle := hgen r hr
        simp only [Current, genOf, newPartition, heq, GoMap.get_set, if_true,
          Option.map_some, Option.some.injEq] at hcur
        omega
      · simpa [Current, genOf, newPartition, heq] using hcur
    · intro r hr
      exact Nat.le_succ_of_le (hgen r hr)

theorem genOf_revokeOne (c : Consumer) (tp tp' : TopicPartition) :
    (c.revokeOne tp).genOf tp' = if tp' = tp then none else c.genOf tp' := by
  unfold revokeOne
  rw [genOf_eq_of_core ((quiet_dropQueued _ tp none).core tp')]
  by_cases heq : tp' = tp <;> simp [genOf, heq]

theorem nothingToApply_onRevoked (h : NothingToApply c) (tps : List TopicPartition) (ok : Bool) :
    NothingToApply (c.onRevoked tps ok) := by
  have hoffs := (commits_commitOffsets c (c.pending (some tps)) ok).outside.nothingToApply h
  have hfold := List.foldlRecOn (motive := NothingToApply) tps revokeOne hoffs
    fun d hd tp _ => hd.of_gens (samePool_revokeOne d tp).results fun r _ hcur => by
      unfold Current at hcur
      rw [genOf_revokeOne] at hcur
      split at hcur
      · cases hcur
      · exact hcur
  exact hfold.of_gens rfl fun _ _ hcur => hcur

end LateResults

end Consumer

section Shutdown

/-- The result about to be applied does none of the three things that break the
shutdown. -/
def Orderly (cfg : Config) (s : Sys) : Act → Prop
  | .recv _ =>
    match s.phase, s.c.results with
    | .draining, r :: _ =>
      ¬ (s.c.Current r.task ∧ Halts cfg r ∧ s.c.Waits r.task)
    | .finalDrain _, r :: rest =>
      ¬ (s.c.Current r.task ∧ Releases cfg r ∧ s.c.Waits r.task) ∧
      (s.c.Current r.task ∧ StopsRun cfg r →
        ∀ r' ∈ rest, r'.res.safe = true → ¬ s.c.Current r'.task)
    | _, _ => True
  | _ => True

instance (cfg : Config) (s : Sys) (a : Act) : Decidable (Orderly cfg s a) := by
  unfold Orderly
  split
  · split <;> infer_instance
  · infer_instance

/-- The state of the pool at each point of `Run`. -/
def PoolOk (s : Sys) : Prop :=
  match s.phase with
  | .top | .draining | .tending | .polling | .dispatching =>
    PoolInv True 0 [] s.c ∧ s.c.workClosed = false
  | .left _ => PoolInv False 0 [] s.c
  | .stoppingWorkers =>
    PoolInv False 0 [] s.c ∧ s.c.stopping = true ∧ s.c.workClosed = true
  | .finalDrain stopped =>
    PoolInv False 0 [] s.c ∧ s.c.stopping = true ∧ s.c.workClosed = true ∧
      (stopped = true → s.c.work = [] ∧ s.c.running = [])
  | .finalCommit stopped | .finalPoll stopped =>
    stopped = true → s.c.work = [] ∧ s.c.running = [] ∧ NothingToApply s.c
  | .returned => True
  | .panicked => False

/-- The invariant of `Run` with a pool. -/
structure ShutdownInv (s : Sys) : Prop where
  commit : CommitInv s.c
  applied : AppliedInv noHole s.c
  pool : PoolOk s

theorem shutdownInv_init : ShutdownInv Sys.init :=
  ⟨commitInv_new, appliedInv_new, poolInv_new, rfl⟩

variable {cfg : Config} {s t : Sys}

theorem poolOk_loopAfter {x : Consumer × Ret} {next : Phase} (hpanic : x.2 ≠ .panic)
    (hok : x.2 = .ok → PoolOk { s with c := x.1, phase := next }) (hleft : PoolInv False 0 [] x.1) :
    PoolOk (s.loopAfter x next) := by
  unfold Sys.loopAfter
  split
  · next hret => exact hok hret
  · exact hleft
  · next hret => exact absurd hret hpanic

variable {x : Task} {r : TaskResult} {rest : List TaskResult} {stopped : Bool} {a : Act}

theorem poolOk_recv_draining (hw : 1 < cfg.workers)
    (hpool : PoolInv True 0 [] s.c ∧ s.c.workClosed = false) (hresults : s.c.results = r :: rest)
    (hord : ¬ (s.c.Current r.task ∧ Halts cfg r ∧ s.c.Waits r.task)) (seekOk : Bool) :
    PoolOk (s.loopAfter
      ({ s.c with results := rest }.complete cfg s.ctxDone r seekOk) .draining) := by
  obtain ⟨hpanic, hok, hleft⟩ :=
    (hpool.1.recv hresults).complete hw (.inl hpool.2) s.ctxDone seekOk
  have hframe := applies_complete cfg { s.c with results := rest } s.ctxDone r seekOk
  exact poolOk_loopAfter hpanic
    (fun hret => ⟨hok hret, hframe.closed.trans hpool.2⟩) (hleft hord)

theorem poolOk_recv_finalDrain (hw : 1 < cfg.workers)
    (hpool : PoolInv False 0 [] s.c ∧ s.c.stopping = true ∧ s.c.workClosed = true ∧
      (stopped = true → s.c.work = [] ∧ s.c.running = []))
    (hresults : s.c.results = r :: rest)
    (hrel : ¬ (s.c.Current r.task ∧ Releases cfg r ∧ s.c.Waits r.task))
    (hlate : s.c.Current r.task ∧ StopsRun cfg r →
      ∀ r' ∈ rest, r'.res.safe = true → ¬ s.c.Current r'.task)
    (seekOk : Bool) :
    PoolOk (s.finalAfter
      ({ s.c with results := rest }.complete cfg s.ctxDone r seekOk) stopped) := by
  obtain ⟨hinv, hstop, hclosed, hidle⟩ := hpool
  obtain ⟨hpanic, hok, -⟩ :=
    (hinv.recv hresults).complete hw (.inr hrel) s.ctxDone seekOk
  have hframe := applies_complete cfg { s.c with results := rest } s.ctxDone r seekOk
  have hidle' : stopped = true →
      (({ s.c with results := rest }.complete cfg s.ctxDone r seekOk)).1.work = [] ∧
      (({ s.c with results := rest }.complete cfg s.ctxDone r seekOk)).1.running = [] := by
    intro hs
    exact ⟨(hframe.work hclosed).trans (hidle hs).1, hframe.running.trans (hidle hs).2⟩
  unfold Sys.finalAfter
  split
  · next hret =>
    exact ⟨hok hret, hframe.stopping.trans hstop, hframe.closed.trans hclosed, hidle'⟩
  · next e hret =>
    intro hs
    refine ⟨(hidle' hs).1, (hidle' hs).2, ?_⟩
    rw [nothingToApply_iff]
    have hcause := stopsRun_of_complete_fatal
      (c := { s.c with results := rest }) hstop hret
    intro r' hr' hsafe hcur
    rw [hframe.results] at hr'
    refine hlate hcause r' hr' hsafe ?_
    exact (hframe.gens r'.task.tp).symm.trans hcur
  · next hret => exact absurd hret hpanic

/-- A worker moves on, and so some worker was not idle. -/
theorem poolOk_worker {d : Consumer} (h : PoolOk s)
    (hinv : ∀ strict, PoolInv strict 0 [] s.c → PoolInv strict 0 [] d)
    (hclosed : d.workClosed = s.c.workClosed) (hstop : d.stopping = s.c.stopping)
    (hbusy : ¬ (s.c.work = [] ∧ s.c.running = [])) : PoolOk { s with c := d } := by
  unfold PoolOk at h ⊢
  cases hphase : s.phase <;> simp only [hphase, hclosed, hstop] at h ⊢
  case top | draining | tending | polling | dispatching | stoppingWorkers =>
    exact ⟨hinv _ h.1, h.2⟩
  case left => exact hinv _ h
  case finalDrain stopped =>
    exact ⟨hinv _ h.1, h.2.1, h.2.2.1, fun hs => absurd (h.2.2.2 hs) hbusy⟩
  case finalCommit stopped | finalPoll stopped =>
    exact fun hs => absurd ⟨(h hs).1, (h hs).2.1⟩ hbusy

theorem poolOk_step (hw : 1 < cfg.workers) (hord : Orderly cfg s a) (h : ShutdownInv s)
    (hstep : step cfg s a = some t) : PoolOk t := by
  have hp := h.pool
  cases a with
  | cancel =>
    cases hstep
    exact hp
  | enterLoop =>
    obtain ⟨hphase, rfl⟩ := of_guard hstep
    simp only [PoolOk, hphase] at hp
    cases s.ctxDone with
    | true => exact hp.1.weaken False.elim
    | false => exact hp
  | recv seekOk =>
    simp only [step] at hstep
    split at hstep
    · next hphase hresults =>
      cases hstep
      simp only [Orderly, hphase, hresults] at hord
      simp only [PoolOk, hphase] at hp
      exact poolOk_recv_draining hw hp hresults hord seekOk
    · next stopped r rest hphase hresults =>
      obtain ⟨-, rfl⟩ := of_guard_not hstep
      simp only [Orderly, hphase, hresults] at hord
      simp only [PoolOk, hphase] at hp
      exact poolOk_recv_finalDrain hw hp hresults hord.1 hord.2 seekOk
    · cases hstep
  | drained =>
    simp only [step] at hstep
    split at hstep
    · next hphase =>
      obtain ⟨-, rfl⟩ := of_guard hstep
      simp only [PoolOk, hphase] at hp
      exact hp
    · next hphase =>
      obtain ⟨hzero, rfl⟩ := of_guard hstep
      simp only [PoolOk, hphase] at hp
      obtain ⟨hinv, -, -, hidle⟩ := hp
      obtain ⟨hwork, hrun⟩ := hidle trivial
      -- no task is counted, so no result is left in the channel
      have hresults : s.c.results = [] := by
        have hcount := hinv.count
        rw [hzero, hwork, hrun] at hcount
        simp only [length_nil] at hcount
        exact eq_nil_of_length_eq_zero (by omega)
      exact fun _ => ⟨hwork, hrun, fun r hr => by
        change r ∈ s.c.results at hr
        rw [hresults] at hr
        cases hr⟩
    · obtain ⟨-, rfl⟩ := of_guard hstep
      intro hfalse
      cases hfalse
    · cases hstep
  | tend due commitOk brokersDown =>
    obtain ⟨hphase, rfl⟩ := of_guard hstep
    simp only [PoolOk, hphase] at hp
    have hout := (commits_maybeCommit cfg s.c due commitOk).outside
    have hinv := hp.1.outside hout
    cases brokersDown with
    | true => exact hinv.weaken False.elim
    | false => exact ⟨hinv, hout.closed.trans hp.2⟩
  | assigned tps =>
    obtain ⟨⟨hpoll, hfree⟩, rfl⟩ := of_guard hstep
    have hsame := samePool_onAssigned s.c tps
    unfold PoolOk at hp ⊢
    cases hphase : s.phase <;> simp only [hphase, Phase.inPoll] at hp hpoll ⊢ <;>
      try exact absurd hpoll (by decide)
    case polling =>
      refine ⟨hp.1.onAssigned ?_, hsame.closed.trans hp.2⟩
      intro k q hq hmem
      exact (hp.1.idle hq (hfree k.tp hmem)).elim
    case finalPoll stopped =>
      intro hs
      obtain ⟨hwork, hrun, hnone⟩ := hp hs
      refine ⟨hsame.work.trans hwork, hsame.running.trans hrun,
        nothingToApply_onAssigned hnone ?_⟩
      intro r hr
      exact h.commit.hist_gen _ (h.commit.results r hr).1 _ rfl
  | revoked tps commitOk =>
    obtain ⟨hpoll, rfl⟩ := of_guard hstep
    have hsame := samePool_onRevoked s.c tps commitOk
    unfold PoolOk at hp ⊢
    cases hphase : s.phase <;> simp only [hphase, Phase.inPoll] at hp hpoll ⊢ <;>
      try exact absurd hpoll (by decide)
    case polling =>
      exact ⟨hp.1.onRevoked tps commitOk, hsame.closed.trans hp.2⟩
    case finalPoll stopped =>
      intro hs
      obtain ⟨hwork, hrun, hnone⟩ := hp hs
      exact ⟨hsame.work.trans hwork, hsame.running.trans hrun,
        nothingToApply_onRevoked hnone tps commitOk⟩
  | pollNothing =>
    simp only [step] at hstep
    split at hstep
    · next hphase =>
      cases hstep
      simp only [PoolOk, hphase] at hp
      exact hp
    · next hphase =>
      cases hstep
      simp only [PoolOk, hphase] at hp
      exact hp
    · cases hstep
  | pollFails =>
    simp only [step] at hstep
    split at hstep
    · next hphase =>
      cases hstep
      simp only [PoolOk, hphase] at hp
      exact hp.1.weaken False.elim
    · cases hstep
      exact trivial
    · cases hstep
  | pollMessage m seekOk =>
    simp only [step] at hstep
    split at hstep
    · next hphase =>
      cases hstep
      simp only [PoolOk, hphase] at hp
      have hout := outside_accept cfg s.c m seekOk
      have hinv := hp.1.outside hout
      exact poolOk_loopAfter (accept_ne_panic cfg s.c m seekOk)
        (fun _ => ⟨hinv, hout.closed.trans hp.2⟩) (hinv.weaken False.elim)
    · next hphase =>
      cases hstep
      simp only [PoolOk, hphase] at hp
      exact hp
    · cases hstep
  | dispatch res err seekOk =>
    simp only [step] at hstep
    split at hstep
    · next x rest hphase hbacklog =>
      obtain ⟨-, rfl⟩ := of_guard hstep
      simp only [PoolOk, hphase] at hp
      obtain ⟨hinv, hret⟩ := hp.1.dispatchOne x rest hw trivial hp.2
        s.ctxDone res err seekOk
      refine poolOk_loopAfter (by simp [hret]) (fun _ => ⟨hinv, ?_⟩)
        (hinv.weaken False.elim)
      exact (workClosed_dispatchOne s.c x rest hw s.ctxDone res err seekOk).trans hp.2
    · cases hstep
  | dispatched =>
    obtain ⟨⟨hphase, -⟩, rfl⟩ := of_guard hstep
    simp only [PoolOk, hphase] at hp
    exact hp
  | take =>
    simp only [step] at hstep
    split at hstep
    · next hwork =>
      obtain ⟨-, rfl⟩ := of_guard hstep
      refine poolOk_worker hp (fun _ hinv => hinv.take hwork) rfl rfl ?_
      simp [hwork]
    · cases hstep
  | finish i res err =>
    simp only [step] at hstep
    split at hstep
    · next hrun =>
      obtain ⟨-, rfl⟩ := of_guard hstep
      refine poolOk_worker hp (fun _ hinv => hinv.finish hrun res err) rfl rfl ?_
      exact fun hidle => ne_nil_of_mem (mem_of_getElem? hrun) hidle.2
    · cases hstep
  | shutdown =>
    simp only [step] at hstep
    split at hstep
    · next hphase =>
      cases hstep
      simp only [PoolOk, hphase] at hp
      exact ⟨⟨hp.count, hp.queued, hp.keyed, hp.head⟩, rfl, rfl⟩
    · cases hstep
  | workersStopped =>
    obtain ⟨⟨hphase, hidle⟩, rfl⟩ := of_guard hstep
    simp only [PoolOk, hphase] at hp
    exact ⟨hp.1, hp.2.1, hp.2.2, fun _ => hidle⟩
  | stopTimeout =>
    obtain ⟨hphase, rfl⟩ := of_guard hstep
    simp only [PoolOk, hphase] at hp
    exact ⟨hp.1, hp.2.1, hp.2.2, fun hfalse => by cases hfalse⟩
  | finalCommit commitOk pastDeadline =>
    simp only [step] at hstep
    split at hstep
    · next stopped hphase =>
      cases hstep
      simp only [PoolOk, hphase] at hp
      have hout := (commits_commit s.c commitOk).outside
      by_cases hdone : (s.c.commit commitOk).2 = true ∨ pastDeadline = true
      · simp only [PoolOk, if_pos hdone]
      · simp only [PoolOk, if_neg hdone]
        intro hs
        obtain ⟨hwork, hrun, hnone⟩ := hp hs
        exact ⟨hout.work.trans hwork, hout.running.trans hrun, hout.nothingToApply hnone⟩
    · cases hstep

theorem shutdownInv_step (hw : 1 < cfg.workers) (hord : Orderly cfg s a) (h : ShutdownInv s)
    (hstep : step cfg s a = some t) : ShutdownInv t :=
  ⟨commitInv_move cfg h.commit (move_of_step hstep),
    appliedInv_move h.applied h.commit (move_of_step hstep),
    poolOk_step hw hord h hstep⟩

/-- The final drain reaches the final commit: at every state on the way the
drain can read a result or end, and every way of going on, the workers and the
context included, comes to the commit. -/
inductive ReachesCommit (cfg : Config) : Sys → Prop
  | commit {s : Sys} {stopped : Bool} :
      s.phase = .finalCommit stopped →
      ReachesCommit cfg s
  | move {s : Sys} :
      (∃ t, step cfg s .drained = some t) ∨ (∀ seekOk, ∃ t, step cfg s (.recv seekOk) = some t) →
      (∀ a t, Orderly cfg s a → step cfg s a = some t → t ≠ s → ReachesCommit cfg t) →
      ReachesCommit cfg s

/-- What the final drain still has before it: every task goes from the work
channel to a worker, from there to the result channel and is then applied. -/
def drainWork (s : Sys) : Nat :=
  3 * s.c.work.length + 2 * s.c.running.length + s.c.results.length
    + (if s.ctxDone then 0 else 1)

/-- The final drain never waits for a result that nobody will produce. -/
theorem finalDrain_ready (h : PoolOk s) (hphase : s.phase = .finalDrain stopped) :
    (∃ t, step cfg s .drained = some t) ∨
      (∀ seekOk, ∃ t, step cfg s (.recv seekOk) = some t) := by
  simp only [PoolOk, hphase] at h
  obtain ⟨hinv, -, -, hidle⟩ := h
  cases hresults : s.c.results with
  | cons r rest =>
    by_cases hzero : stopped = true ∧ s.c.inflight = 0
    · obtain ⟨rfl, hzero⟩ := hzero
      exact .inl ⟨_, by simp only [step, hphase]; exact if_pos hzero⟩
    · refine .inr fun seekOk => Option.isSome_iff_exists.mp ?_
      simp [step, hphase, hresults, hzero]
  | nil =>
    cases stopped with
    | false => exact .inl ⟨_, by simp only [step, hphase]; exact if_pos hresults⟩
    | true =>
      -- a waiting message would need one in flight, and nothing is
      obtain ⟨hwork, hrun⟩ := hidle rfl
      have hqueues : s.c.keyQueues.total List.length = 0 := by
        refine GoMap.total_eq_zero ?_
        intro k q hq
        by_contra hne
        obtain ⟨x, (hx | hx | ⟨r, hr, -⟩) | hx, -⟩ :=
          hinv.head k q hq (.inr fun hnil => hne (by simp [hnil]))
        · rw [hwork] at hx
          cases hx
        · rw [hrun] at hx
          cases hx
        · rw [hresults] at hr
          cases hr
        · cases hx
      have hzero : s.c.inflight = 0 := by
        have hcount := hinv.count
        rw [hwork, hrun, hresults, hqueues] at hcount
        simpa using hcount
      exact .inl ⟨_, by simp only [step, hphase]; exact if_pos hzero⟩

/-- Every move out of the final drain ends it or leaves less to do. -/
theorem finalDrain_decreases (h : PoolOk s) (hphase : s.phase = .finalDrain stopped)
    (hinv : PoolOk t) (hstep : step cfg s a = some t) (hne : t ≠ s) :
    (∃ stopped, t.phase = .finalCommit stopped) ∨
      t.phase = .finalDrain stopped ∧ drainWork t < drainWork s := by
  simp only [PoolOk, hphase] at h
  cases a with
  | cancel =>
    cases hstep
    refine .inr ⟨hphase, ?_⟩
    cases hctx : s.ctxDone with
    | true => exact absurd (by rw [← hctx]) hne
    | false => simp [drainWork, hctx]
  | recv seekOk =>
    simp only [step, hphase] at hstep
    split at hstep
    · next heq _ => cases heq
    · next stopped' r rest heq hresults =>
      cases heq
      obtain ⟨-, rfl⟩ := of_guard_not hstep
      have hframe := applies_complete cfg { s.c with results := rest } s.ctxDone r seekOk
      have hwork := hframe.work h.2.2.1
      unfold Sys.finalAfter at hinv ⊢
      split at hinv
      · refine .inr ⟨rfl, ?_⟩
        simp only [drainWork, hwork, hframe.running, hframe.results, hresults,
          length_cons]
        omega
      · exact .inl ⟨_, rfl⟩
      · exact hinv.elim
    · cases hstep
  | drained =>
    simp only [step, hphase] at hstep
    split at hstep
    · next heq => cases heq
    · obtain ⟨-, rfl⟩ := of_guard hstep
      exact .inl ⟨_, rfl⟩
    · obtain ⟨-, rfl⟩ := of_guard hstep
      exact .inl ⟨_, rfl⟩
    · cases hstep
  | take =>
    simp only [step] at hstep
    split at hstep
    · next hwork =>
      obtain ⟨-, rfl⟩ := of_guard hstep
      refine .inr ⟨hphase, ?_⟩
      simp only [drainWork, hwork, length_cons, length_append,
        length_nil]
      omega
    · cases hstep
  | finish i res err =>
    simp only [step] at hstep
    split at hstep
    · next hrun =>
      obtain ⟨-, rfl⟩ := of_guard hstep
      refine .inr ⟨hphase, ?_⟩
      obtain ⟨hi, -⟩ := List.getElem?_eq_some_iff.mp hrun
      have hlen := length_eraseIdx_of_lt hi
      simp only [drainWork, Consumer.logFinished, hlen, length_append,
        length_singleton]
      omega
    · cases hstep
  | enterLoop | tend | assigned | revoked | pollNothing | pollFails | pollMessage
  | dispatch | dispatched | shutdown | workersStopped | stopTimeout | finalCommit =>
    simp [step, hphase, Phase.inPoll] at hstep

theorem reachesCommit_of_finalDrain (hw : 1 < cfg.workers) (h : ShutdownInv s)
    (hphase : s.phase = .finalDrain stopped) : ReachesCommit cfg s := by
  induction hn : drainWork s using Nat.strong_induction_on generalizing s with
  | h n ih =>
    refine .move (finalDrain_ready h.pool hphase) ?_
    intro a t hord hstep hne
    have ht := shutdownInv_step hw hord h hstep
    rcases finalDrain_decreases h.pool hphase ht.pool hstep hne with
      ⟨stopped', hcommit⟩ | ⟨hdrain, hless⟩
    · exact .commit hcommit
    · exact ih (drainWork t) (hn ▸ hless) ht hdrain rfl

/-- Leaving `Run` with a pool, in every run that is orderly: nothing is sent on
the closed work channel, the final drain comes to the final commit, and when
every worker has stopped that commit is exactly the finished prefix. -/
theorem shutdown_commits_finished_prefix (cfg : Config) (hw : 1 < cfg.workers) (acts : List Act)
    (s : Sys) (hrun : Lib.run (step cfg) Sys.init acts = some s)
    (hord : Lib.RunAll (step cfg) (Orderly cfg) Sys.init acts) :
    s.phase ≠ .panicked ∧
    (∀ stopped, s.phase = .finalDrain stopped → ReachesCommit cfg s) ∧
    (s.phase = .finalCommit true → ExactCommit s.c) := by
  have h : ShutdownInv s :=
    Lib.run_invariant_of (step cfg) (fun _ _ _ hok hs hstep => shutdownInv_step hw hok hs hstep)
      hord shutdownInv_init hrun
  refine ⟨?_, ?_, ?_⟩
  · intro hphase
    have hp := h.pool
    simp only [PoolOk, hphase] at hp
  · intro stopped hphase
    exact reachesCommit_of_finalDrain hw h hphase
  · intro hphase
    have hp := h.pool
    simp only [PoolOk, hphase] at hp
    exact exactCommit_of_nothingToApply h.applied h.commit (hp trivial).2.2

end Shutdown

section Example

/-- Two messages are accepted and the first is with a worker. -/
def demoStart (key₁ key₂ : String) : List Act :=
  [.enterLoop, .drained, .tend false true false, .assigned [demoPartition],
    .pollMessage (demoMessage 5 key₁) true, .dispatch .failed none true, .dispatched,
    .enterLoop, .drained, .tend false true false,
    .pollMessage (demoMessage 6 key₂) true, .dispatch .failed none true, .dispatched,
    .take]

/-- The context is cancelled while both messages run; they finish in the wrong
order and are both committed. -/
def demoShutdownRun : List Act :=
  demoStart "a" "b" ++
    [.take, .cancel, .finish 1 .done none, .enterLoop, .shutdown,
      .finish 0 .deferred none, .workersStopped, .recv true, .recv true, .drained]

theorem shutdown_commits_finished_prefix_demo :
    ∃ s p, Lib.run (step demoConfig) Sys.init demoShutdownRun = some s ∧
      s.phase = .finalCommit true ∧ s.c.parts.get demoPartition = some p ∧
      p.frontier = 7 ∧ ¬ SafeIn s.c.hist demoPartition p.gen 7 ∧
      (s.c.commit true).1.committed.get demoPartition = some 7 := by
  obtain ⟨s, hs, hphase, hpart, hfirst⟩ : ∃ s,
      Lib.run (step demoConfig) Sys.init demoShutdownRun = some s ∧ s.phase = .finalCommit true ∧
        s.c.parts.get demoPartition = some ⟨1, 7, 7, ∅, 0, -1⟩ ∧
          firstAccepted s.c.hist demoPartition 1 = some 5 := by
    decide
  obtain ⟨-, -, hexact⟩ := shutdown_commits_finished_prefix demoConfig (by decide)
    demoShutdownRun s hs (by decide)
  obtain ⟨-, hstop, -, hcommit⟩ := hexact hphase demoPartition _ 5 hpart hfirst
  exact ⟨s, _, hs, hphase, hpart, rfl, hstop 7 rfl, hcommit (by decide)⟩

/-- Two messages of one key: the first finishes after the work channel was
closed. -/
def demoClosedSend : List Act :=
  demoStart "a" "a" ++
    [.cancel, .enterLoop, .shutdown, .finish 0 .done none, .workersStopped, .recv true]

/-- Two messages of one key: the store refuses the first one for good. -/
def demoStuckDrain : List Act :=
  demoStart "a" "a" ++
    [.finish 0 .failed (some ⟨[.errInvalidRecord],
        "dlq: invalid record: record is 1048700 bytes, limit is 1048576"⟩),
      .enterLoop, .recv true, .shutdown, .workersStopped]

/-- Two messages: the second one finds the store failed, then the first one
finishes. -/
def demoLateResult : List Act :=
  demoStart "a" "b" ++
    [.take, .finish 1 .failed (some ⟨[.errStoreFailed], "dlq: WAL store failed"⟩),
      .finish 0 .done none, .cancel, .enterLoop, .shutdown, .workersStopped, .recv true]

/-- The three ways the shutdown goes wrong: a send on the closed work channel; a
final drain that waits for a message no worker has; a final commit that leaves
out a finished message. -/
theorem shutdown_fails_when_not_orderly :
    (∃ s, Lib.run (step demoConfig) Sys.init demoClosedSend = some s ∧
      s.phase = .panicked) ∧
    (∃ s, Lib.run (step demoConfig) Sys.init demoStuckDrain = some s ∧
      s.phase = .finalDrain true ∧ s.c.inflight = 1 ∧ s.c.work = [] ∧
      s.c.running = [] ∧ s.c.results = [] ∧
      step demoConfig s .drained = none ∧ ∀ seekOk, step demoConfig s (.recv seekOk) = none) ∧
    ∃ s, Lib.run (step demoConfig) Sys.init demoLateResult = some s ∧
      s.phase = .finalCommit true ∧ ¬ ExactCommit s.c := by
  refine ⟨by decide, ?_, ?_⟩
  · obtain ⟨s, hs, hphase, hcount, hwork, hrun, hresults⟩ : ∃ s,
        Lib.run (step demoConfig) Sys.init demoStuckDrain = some s ∧ s.phase = .finalDrain true ∧
          s.c.inflight = 1 ∧ s.c.work = [] ∧ s.c.running = [] ∧ s.c.results = [] := by
      decide
    refine ⟨s, hs, hphase, hcount, hwork, hrun, hresults, ?_, ?_⟩
    · simp [step, hphase, hcount]
    · intro seekOk
      simp [step, hphase, hresults]
  · obtain ⟨s, hs, hphase, hpart, hfirst, haccepted, hfinished⟩ : ∃ s,
        Lib.run (step demoConfig) Sys.init demoLateResult = some s ∧
          s.phase = .finalCommit true ∧
          s.c.parts.get demoPartition = some ⟨1, 7, 5, ∅, 1, -1⟩ ∧
          firstAccepted s.c.hist demoPartition 1 = some 5 ∧
          .accepted demoPartition 1 5 ∈ s.c.hist ∧
          .finished demoPartition 1 5 .done ∈ s.c.hist := by
      decide
    refine ⟨s, hs, hphase, ?_⟩
    intro hexact
    obtain ⟨-, hstop, -⟩ := hexact demoPartition _ 5 hpart hfirst
    exact hstop 5 rfl ⟨haccepted, .inl ⟨.done, rfl, hfinished⟩⟩

end Example

end Kafka
end GoGuard
