import GoGuard.Kafka.Ledger
import GoGuard.Kafka.Shutdown

/-!
# The counters along a run

Every move of the system before the shutdown keeps the ledger, and only a
dispatch adds to the count, below the limit.  So in every such state the counters
are exact and what the two channels hold fits their buffers.
-/

namespace GoGuard
namespace Kafka

open Lib Dlq List

namespace Consumer

section Bound

variable {cfg : Config}

theorem inflight_dropQueued_le (c : Consumer) (tp : TopicPartition) (only : Option Bytes) :
    (c.dropQueued tp only).inflight ≤ c.inflight := by
  refine List.foldlRecOn (motive := fun d : Consumer => d.inflight ≤ c.inflight) _ _
    (le_refl _) ?_
  intro d hd k _
  refine le_trans ?_ hd
  change d.inflight - ((d.keyQueues.get k).getD []).length ≤ d.inflight
  omega

/-- Applying a result takes at least one task out of the count. -/
theorem inflight_complete_lt (c : Consumer) (ctxDone : Bool) (r : TaskResult) (seekOk : Bool) :
    (complete cfg c ctxDone r seekOk).1.inflight < c.inflight := by
  have hland : c.landed.inflight < c.inflight := by
    change c.inflight - 1 < c.inflight
    omega
  have hout : ∀ d e : Consumer, d.inflight < c.inflight → Outside d e → e.inflight < c.inflight :=
    fun d e hd ho => ho.inflight ▸ hd
  refine complete_pool (P := fun d => d.inflight < c.inflight)
    (Q := fun d => d.inflight < c.inflight) (fun _ => hland) (fun _ _ _ => hland)
    (fun _ hd => hd) hout hout ?_ ?_
  · intro d hd
    obtain ⟨w, qs, heq, -⟩ := released_frame cfg d r.task
    rw [heq]
    exact hd
  · intro d hd
    unfold dropFollowers
    split
    · exact hd
    · exact lt_of_le_of_lt (inflight_dropQueued_le _ _ _) hd

theorem inflight_dispatchOne_le (c : Consumer) (ctxDone : Bool) (t : Task) (rest : List Task)
    (res : Result) (err : Option Error) (seekOk : Bool) :
    (c.dispatchOne cfg ctxDone t rest res err seekOk).1.inflight ≤ c.inflight + 1 := by
  refine dispatchOne_keeps (P := fun d => d.inflight ≤ c.inflight + 1) ?_ ?_ ?_
  · change c.inflight ≤ c.inflight + 1
    omega
  · intro p _ _ _
    exact le_of_lt (inflight_complete_lt _ _ _ _)
  · intro p _ _ _
    obtain ⟨w, qs, heq⟩ := send_frame (c.started t p rest) t
    rw [heq]
    exact le_refl _

theorem inflight_onRevoked_le (c : Consumer) (tps : List TopicPartition) (ok : Bool) :
    (c.onRevoked tps ok).inflight ≤ c.inflight := by
  have hfold := List.foldlRecOn tps revokeOne
    (motive := fun d : Consumer => d.inflight ≤ c.inflight)
    (le_of_eq (commits_commitOffsets c (c.pending (some tps)) ok).outside.inflight)
    fun d hd tp _ => (inflight_dropQueued_le _ tp none).trans hd
  exact hfold

theorem inflight_onAssigned (c : Consumer) (tps : List TopicPartition) :
    (c.onAssigned tps).inflight = c.inflight :=
  List.foldlRecOn (motive := fun d : Consumer => d.inflight = c.inflight) tps newPartition
    rfl fun _ hd _ _ => hd

end Bound

end Consumer

section Runs

open Consumer

variable {cfg : Config} {s t : Sys} {a : Act}

/-- Only a dispatch adds to the count, and only below the limit. -/
theorem inflight_step (hstep : step cfg s a = some t) :
    t.c.inflight ≤ s.c.inflight ∨
      s.c.inflight < cfg.maxInFlight ∧ t.c.inflight ≤ s.c.inflight + 1 := by
  have hturn := turn_of_step hstep
  generalize t.c = d at hturn ⊢
  cases hturn with
  | stay => exact .inl (le_refl _)
  | recv r rest seekOk _ => exact .inl (le_of_lt (inflight_complete_lt _ _ _ _))
  | tend due ok _ => exact .inl (le_of_eq (commits_maybeCommit _ _ _ _).outside.inflight)
  | commit ok _ => exact .inl (le_of_eq (commits_commit _ _).outside.inflight)
  | assigned tps _ => exact .inl (le_of_eq (inflight_onAssigned _ _))
  | revoked tps ok => exact .inl (inflight_onRevoked_le _ _ _)
  | accept m seekOk => exact .inl (le_of_eq (outside_accept _ _ _ _).inflight)
  | dispatch x rest res err seekOk _ hroom =>
    exact .inr ⟨hroom, inflight_dispatchOne_le _ _ _ _ _ _ _⟩
  | take | finish | close => exact .inl (le_refl _)

/-- The work channel is closed exactly when the consumer stops. -/
theorem closed_move {c d : Consumer} (h : c.workClosed = c.stopping) (hmove : Move cfg c d) :
    d.workClosed = d.stopping ∧ (d.stopping = false → c.stopping = false) := by
  have hsame : ∀ {e : Consumer}, SamePool c e →
      e.workClosed = e.stopping ∧ (e.stopping = false → c.stopping = false) := by
    intro e he
    rw [he.closed, he.stopping]
    exact ⟨h, id⟩
  cases hmove with
  | stay => exact ⟨h, id⟩
  | recv r rest ctxDone seekOk hresults =>
    have happ := applies_complete cfg { c with results := rest } ctxDone r seekOk
    rw [happ.closed, happ.stopping]
    exact ⟨h, id⟩
  | tend due ok => exact hsame (commits_maybeCommit cfg c due ok).outside.samePool
  | commit ok => exact hsame (commits_commit c ok).outside.samePool
  | assigned tps hfree => exact hsame (samePool_onAssigned c tps)
  | revoked tps ok => exact hsame (samePool_onRevoked c tps ok)
  | accept m seekOk => exact hsame (outside_accept cfg c m seekOk).samePool
  | dispatch x rest ctxDone res err seekOk hbacklog =>
    refine dispatchOne_keeps (P := fun e => e.workClosed = e.stopping ∧
      (e.stopping = false → c.stopping = false)) ⟨h, id⟩ ?_ ?_
    · intro p _ _ _
      have happ := applies_complete cfg
        ((c.started x p rest).logFinished x res) ctxDone ⟨x, res, err⟩ seekOk
      rw [happ.closed, happ.stopping]
      exact ⟨h, id⟩
    · intro p _ _ _
      obtain ⟨w, qs, heq⟩ := send_frame (c.started x p rest) x
      rw [heq]
      exact ⟨h, id⟩
  | take x rest hwork => exact ⟨h, id⟩
  | finish i x res err hrun => exact ⟨h, id⟩
  | close => exact ⟨rfl, fun hno => nomatch hno⟩

theorem Consumer.Ledger.move {c d : Consumer} (h : Ledger [] none c) (hc : CommitInv c)
    (hopen : c.workClosed = false) (hup : d.stopping = false) (hmove : Move cfg c d) :
    Ledger [] none d := by
  cases hmove with
  | stay => exact h
  | recv r rest ctxDone seekOk hresults =>
    exact (h.recv hresults).complete hopen cfg ctxDone seekOk
  | tend due ok => exact h.outside (commits_maybeCommit cfg c due ok).outside
  | commit ok => exact h.outside (commits_commit c ok).outside
  | assigned tps hfree =>
    refine h.onAssigned ?_ ?_
    · intro k q hq hmem
      refine eq_nil_iff_forall_not_mem.mpr ?_
      intro x hx
      have hgen := (h.queued k q hq x hx).2
      simp [genOf, hfree k.tp hmem] at hgen
    · intro x hx
      exact hc.hist_gen _ (hc.tasks x hx) x.gen rfl
  | revoked tps ok => exact h.onRevoked tps ok
  | accept m seekOk => exact h.outside (outside_accept cfg c m seekOk)
  | dispatch x rest ctxDone res err seekOk hbacklog =>
    exact h.dispatchOne hopen cfg ctxDone x rest res err seekOk
  | take x rest hwork => exact h.take hwork
  | finish i x res err hrun => exact h.finish hrun res err
  | close => cases hup

/-- The accounts of `Run` before the shutdown. -/
structure Accounted (cfg : Config) (s : Sys) : Prop where
  commit : CommitInv s.c
  closed : s.c.workClosed = s.c.stopping
  ledger : s.c.stopping = false → Ledger [] none s.c
  bound : s.c.stopping = false → s.c.inflight ≤ cfg.maxInFlight

theorem accounted_init : Accounted cfg Sys.init := by
  refine ⟨commitInv_new, rfl, fun _ => ledger_new, ?_⟩
  intro _
  change (0 : Int) ≤ cfg.maxInFlight
  omega

theorem Accounted.step (h : Accounted cfg s) (hstep : step cfg s a = some t) : Accounted cfg t := by
  have hmove := move_of_step hstep
  obtain ⟨hclosed, hback⟩ := closed_move h.closed hmove
  refine ⟨commitInv_move cfg h.commit hmove, hclosed, ?_, ?_⟩
  · intro hup
    have hopen : s.c.workClosed = false := h.closed.trans (hback hup)
    exact (h.ledger (hback hup)).move h.commit hopen hup hmove
  · intro hup
    have hbound := h.bound (hback hup)
    rcases inflight_step hstep with hle | ⟨hroom, hle⟩
    · exact hle.trans hbound
    · omega

theorem accounted_run {acts : List Act} (hrun : run (step cfg) Sys.init acts = some s) :
    Accounted cfg s :=
  run_invariant (step cfg) (I := Accounted cfg) (fun _ _ _ h hs => h.step hs)
    accounted_init hrun

/-- In every state before the shutdown the counters are exact: `inflight` counts
the tasks in the work channel, with the workers, in the result channel and in
line, of all assignments, the counter of a partition counts those of its current
assignment, neither is negative, and no more than `maxInFlight` are in flight.  So
what was sent on the two channels has always fitted their buffers.  A result of
an older assignment changes nothing but the total. -/
theorem inflight_counters_are_exact {acts : List Act} (hrun : run (step cfg) Sys.init acts = some s)
    (hup : s.c.stopping = false) :
    s.c.inflight = s.c.work.length + s.c.running.length + s.c.results.length
        + s.c.keyQueues.total List.length ∧
    (∀ tp p, s.c.parts.get tp = some p →
      p.inflight = s.c.work.countP (ofAssignment tp p.gen)
        + s.c.running.countP (ofAssignment tp p.gen)
        + s.c.results.countP (fun r => ofAssignment tp p.gen r.task)
        + s.c.keyQueues.total (List.countP (ofAssignment tp p.gen)) ∧
      0 ≤ p.inflight) ∧
    0 ≤ s.c.inflight ∧ s.c.inflight ≤ cfg.maxInFlight ∧
    s.c.work.length ≤ cfg.maxInFlight ∧
    s.c.results.length ≤ cfg.maxInFlight + cfg.workers ∧
    ∀ r rest, s.c.results = r :: rest → ¬ s.c.Current r.task → ∀ ctxDone seekOk,
      complete cfg { s.c with results := rest } ctxDone r seekOk
        = ({ s.c with results := rest, inflight := s.c.inflight - 1 }, .ok) := by
  have hacc := accounted_run hrun
  have hledger := hacc.ledger hup
  have hbound := hacc.bound hup
  have htotal : s.c.inflight = s.c.work.length + s.c.running.length + s.c.results.length
      + s.c.keyQueues.total List.length := by
    have hsum := hledger.total
    have hlength : (List.countP fun _ : Task => true) = List.length := countP_true
    simp only [pooled, flights, countP_true, hlength, length_nil] at hsum
    push_cast at hsum
    omega
  refine ⟨htotal, ?_, by omega, hbound, by omega, by omega, ?_⟩
  · intro tp p hp
    have hpart := hledger.part tp p hp
    simp only [pooled, flights, countP_nil] at hpart
    push_cast at hpart
    exact ⟨by omega, by omega⟩
  · intro r rest _ hstale ctxDone seekOk
    unfold complete
    split
    · rfl
    · next p hp =>
      rw [if_pos]
      · rfl
      · intro hgen
        refine hstale ?_
        have hp' : s.c.parts.get r.task.tp = some p := hp
        simp [Current, genOf, hp', hgen]

end Runs

section Example

open Consumer

/-- One message is with a worker and one in line behind it when the partition is
taken away and given again; then the first one finishes. -/
def demoRebalance : List Act :=
  demoStart "a" "a" ++
    [.enterLoop, .drained, .tend false true false, .revoked [demoPartition] true,
      .assigned [demoPartition], .finish 0 .done none]

/-- The old result is all that is in flight, and applying it leaves the new
assignment as it is. -/
theorem inflight_counters_are_exact_demo :
    ∃ s p r, run (step demoConfig) Sys.init demoRebalance = some s ∧
      s.c.parts.get demoPartition = some p ∧ s.c.results = [r] ∧
      s.c.inflight = 1 ∧ p.inflight = 0 ∧ p.gen = 2 ∧ r.task.gen = 1 ∧
      complete demoConfig { s.c with results := [] } false r true
        = ({ s.c with results := [], inflight := s.c.inflight - 1 }, .ok) := by
  obtain ⟨s, hs, hup, hpart, hgens, htps, hwork, hrunning, hqueued⟩ : ∃ s,
      run (step demoConfig) Sys.init demoRebalance = some s ∧ s.c.stopping = false ∧
        s.c.parts.get demoPartition = some ⟨2, -1, -1, ∅, 0, -1⟩ ∧
        (s.c.results.map fun r => r.task.gen) = [1] ∧
        (∀ r ∈ s.c.results, r.task.tp = demoPartition) ∧ s.c.work.length = 0 ∧
        s.c.running.length = 0 ∧ s.c.keyQueues.total List.length = 0 := by
    decide
  obtain ⟨r, hr, hgen⟩ := map_eq_singleton_iff.mp hgens
  have htp : r.task.tp = demoPartition := htps r (by rw [hr]; exact mem_cons_self)
  obtain ⟨htotal, hcount, -, -, -, -, hstale⟩ := inflight_counters_are_exact hs hup
  refine ⟨s, _, r, hs, hpart, hr, ?_, rfl, rfl, hgen, ?_⟩
  · rw [htotal, hwork, hrunning, hqueued, hr]
    rfl
  · refine hstale r [] hr ?_ false true
    simp [Current, genOf, htp, hpart, hgen]

end Example

end Kafka
end GoGuard
