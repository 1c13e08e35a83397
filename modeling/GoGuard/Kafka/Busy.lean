import GoGuard.Kafka.Held

/-!
# One message of a key at a time

`keyQueues` has an entry for a key exactly while a message with that key is in a
channel or with a worker; later ones wait in the line of the entry.  So of the
messages with one key of the current assignment at most one is executing.  With
one worker there is no pool, and the channels stay empty.
-/

namespace GoGuard
namespace Kafka

open Lib Dlq List

namespace Consumer

/-- The tasks with one key of an assignment. -/
def ofKey (k : FailedKey) (gen : Nat) (t : Task) : Bool :=
  keyOf t = k && t.gen = gen

@[simp] theorem ofKey_iff {k : FailedKey} {gen : Nat} {t : Task} :
    ofKey k gen t = true ↔ keyOf t = k ∧ t.gen = gen := by
  simp [ofKey]

section Keys

variable {cfg : Config} {extra : List Task} {c d : Consumer} {t : Task}

/-- Of the messages with one key of a current assignment at most one is in a
channel or with a worker, or among `extra`, and then the key is busy. -/
def Busy (extra : List Task) (c : Consumer) : Prop :=
  ∀ k gen, k.key ≠ [] → c.genOf k.tp = some gen →
    c.flights (ofKey k gen) + extra.countP (ofKey k gen)
      ≤ if (c.keyQueues.get k).isSome then 1 else 0

theorem Busy.frame (h : Busy extra c) (hflights : ∀ P, d.flights P = c.flights P)
    (hqueues : ∀ k, (d.keyQueues.get k).isSome = (c.keyQueues.get k).isSome)
    (hgen : ∀ tp, d.genOf tp = c.genOf tp) : Busy extra d := by
  intro k gen hkey hcur
  rw [hflights, hqueues]
  exact h k gen hkey ((hgen k.tp).symm.trans hcur)

theorem Busy.outside (h : Busy extra c) (ho : Outside c d) : Busy extra d := by
  refine h.frame ?_ (fun k => by rw [ho.queues]) ho.gens
  intro P
  unfold flights
  rw [ho.work, ho.running, ho.results]

theorem Busy.forget (h : Busy extra c) : Busy [] c := by
  intro k gen hkey hcur
  have hle := h k gen hkey hcur
  rw [countP_nil]
  omega

/-- The key of a counted task of the current assignment has nobody else in the
channels, and is freed with it. -/
theorem Busy.free (h : Busy [t] c) (hcur : c.Current t) (hflights : ∀ P, d.flights P = c.flights P)
    (hself : d.keyQueues.get (keyOf t) = none)
    (hother : ∀ k, k ≠ keyOf t → d.keyQueues.get k = c.keyQueues.get k)
    (hgen : ∀ tp, d.genOf tp = c.genOf tp) : Busy [] d := by
  intro k gen hkey hk
  rw [hgen] at hk
  have hle := h k gen hkey hk
  rw [hflights, countP_nil]
  by_cases heq : k = keyOf t
  · subst heq
    have hsame : t.gen = gen := Option.some.inj (hcur.symm.trans hk)
    have hof : ofKey (keyOf t) gen t = true := ofKey_iff.mpr ⟨rfl, hsame⟩
    rw [countP_singleton, hof] at hle
    rw [hself]
    have hone : (if (c.keyQueues.get (keyOf t)).isSome = true then 1 else 0) ≤ 1 := by
      split <;> omega
    simp only [if_true] at hle
    omega
  · rw [hother k heq]
    omega

theorem flights_snoc (c : Consumer) (t : Task) (P : Task → Bool) :
    flights { c with work := c.work ++ [t] } P = c.flights P + [t].countP P := by
  simp only [flights, countP_append]
  omega

theorem Busy.released (h : Busy [t] c) (hl : Ledger extra none c) (hopen : c.workClosed = false)
    (hcur : c.Current t) : Busy [] (Consumer.released cfg c t).1 := by
  unfold Consumer.released
  split
  · exact h.forget
  · next hkeyed =>
    split
    · refine h.free hcur (fun _ => rfl) (by simp) ?_ fun _ => rfl
      intro k hne
      simp [hne]
    · next next q hq =>
      have hget := line_of_getD hq
      have hnext := (hl.inLine hget next mem_cons_self).1
      rw [pushWork_open (by exact hopen)]
      intro k gen hkey hk
      have hle := h k gen hkey hk
      rw [flights_snoc { c with keyQueues := c.keyQueues.set (keyOf t) q }, countP_nil,
        countP_singleton, GoMap.get_set]
      change c.flights (ofKey k gen) + _ + 0 ≤ _
      by_cases heq : k = keyOf t
      · subst heq
        have hsame : t.gen = gen := Option.some.inj (hcur.symm.trans hk)
        have hof : ofKey (keyOf t) gen t = true := ofKey_iff.mpr ⟨rfl, hsame⟩
        rw [countP_singleton, hof, hget] at hle
        simp only [if_true, Option.isSome_some] at hle ⊢
        have hone : (if ofKey (keyOf t) gen next = true then 1 else 0) ≤ 1 := by
          split <;> omega
        omega
      · have hof : ofKey k gen next = false := by
          rw [Bool.eq_false_iff]
          intro hof
          exact heq ((ofKey_iff.mp hof).1.symm.trans hnext)
        rw [if_neg heq]
        simp only [hof, Bool.false_eq_true, if_false]
        omega

theorem Busy.dropFollowers (h : Busy [t] c) (hcur : c.Current t) : Busy [] (c.dropFollowers t) := by
  unfold Consumer.dropFollowers
  split
  · exact h.forget
  · obtain ⟨hwork, hrun, -, -⟩ := dropQueued_pool c t.tp (some t.inp.orderKey)
    have hquiet := quiet_dropQueued c t.tp (some t.inp.orderKey)
    refine h.free hcur ?_ (by simp) ?_ ?_
    · intro P
      simp only [flights, hwork, hrun, hquiet.results]
    · intro k hne
      simp only [GoMap.get_del, hne, if_false]
      exact get_dropQueued_some c t.tp t.inp.orderKey k hne
    · intro tp
      exact genOf_eq_of_core (hquiet.core tp)

theorem Busy.complete {r : TaskResult} (h : Busy [r.task] c) (hl : Ledger [r.task] none c)
    (hopen : c.workClosed = false) (ctxDone seekOk : Bool) :
    Busy [] (Consumer.complete cfg c ctxDone r seekOk).1 := by
  have hland : Busy [r.task] c.landed := h.frame (fun _ => rfl) (fun _ => rfl) fun _ => rfl
  refine complete_pool
    (P := fun d => (Busy [r.task] d ∧ Ledger [] none d) ∧ d.workClosed = false ∧ d.Current r.task)
    (fun _ => hland.forget) ?_ (fun d hd => hd.1.1.forget) ?_ (fun d e hd ho => hd.outside ho)
    (fun d hd => hd.1.1.released hd.1.2 hd.2.1 hd.2.2)
    (fun d hd => hd.1.1.dropFollowers hd.2.2)
  · intro p hp hgen
    have hgens := genOf_setPart (c := c.landed) (q := p.landed) hp rfl
    refine ⟨⟨hland.frame (fun _ => rfl) (fun _ => rfl) hgens, hl.landed_current hp hgen⟩, hopen, ?_⟩
    refine (hgens r.task.tp).trans ?_
    change (c.parts.get r.task.tp).map Partition.gen = _
    simp [hp, hgen]
  · rintro d e ⟨⟨hd, hdl⟩, hdopen, hcur⟩ ho
    exact ⟨⟨hd.outside ho, hdl.outside ho⟩, ho.closed.trans hdopen, (ho.gens _).trans hcur⟩

theorem Busy.send (h : Busy [] c) (hopen : c.workClosed = false) : Busy [] (c.send t).1 := by
  have hone : ∀ k gen, [t].countP (ofKey k gen) ≤ 1 := by
    intro k gen
    rw [countP_singleton]
    split <;> omega
  have hnone : ∀ k gen, k ≠ keyOf t → [t].countP (ofKey k gen) = 0 := by
    intro k gen hne
    rw [countP_singleton, if_neg]
    intro hof
    exact hne (ofKey_iff.mp hof).1.symm
  unfold Consumer.send
  split
  · next hunkeyed =>
    rw [pushWork_open hopen]
    intro k gen hkey hk
    have hne : k ≠ keyOf t := by
      rintro rfl
      exact hkey hunkeyed
    rw [flights_snoc, hnone k gen hne]
    exact h k gen hkey hk
  · split
    · next q hq =>
      refine h.frame (fun _ => rfl) ?_ fun _ => rfl
      intro k
      rw [GoMap.get_set]
      split
      · next heq => simp [heq, hq]
      · rfl
    · next hfree =>
      rw [pushWork_open (by exact hopen)]
      intro k gen hkey hk
      have hle := h k gen hkey hk
      rw [flights_snoc { c with keyQueues := c.keyQueues.set (keyOf t) [] }, GoMap.get_set]
      change c.flights (ofKey k gen) + _ + 0 ≤ _
      by_cases heq : k = keyOf t
      · subst heq
        have hle' := hone (keyOf t) gen
        rw [hfree] at hle
        simp only [Option.isSome_none, Bool.false_eq_true, if_false] at hle
        simp only [if_true, Option.isSome_some]
        omega
      · rw [hnone k gen heq, if_neg heq]
        omega

theorem Busy.dispatchOne {rest : List Task} (h : Busy [] c) (hw : 1 < cfg.workers)
    (hopen : c.workClosed = false)
    (ctxDone : Bool) (res : Result) (err : Option Error) (seekOk : Bool) :
    Busy [] (c.dispatchOne cfg ctxDone t rest res err seekOk).1 := by
  refine dispatchOne_keeps (h.outside (outside_rest c _ _ _ _ _ _)) ?_ ?_
  · intro p _ _ hone
    omega
  · intro p hp _ _
    have hstart : Busy [] (c.started t p rest) :=
      h.frame (fun _ => rfl) (fun _ => rfl)
        (genOf_setPart (q := { p with inflight := p.inflight + 1 }) hp rfl)
    exact hstart.send hopen

theorem Busy.onAssigned (h : Busy [] c) (hfresh : ∀ t, c.Holds t → t.gen ≤ c.gen)
    (tps : List TopicPartition) : Busy [] (c.onAssigned tps) := by
  have hfold := List.foldlRecOn
    (motive := fun d : Consumer => Busy [] d ∧ ∀ t, d.Holds t → t.gen ≤ d.gen)
    tps newPartition ⟨h, hfresh⟩ ?_
  · exact hfold.1
  · rintro d ⟨hd, hdfresh⟩ tp -
    refine ⟨?_, fun t ht => (hdfresh t ht).trans (Nat.le_succ _)⟩
    intro k gen hkey hk
    by_cases heq : k.tp = tp
    · -- nothing in the channels is of the new assignment
      obtain rfl : d.gen + 1 = gen := by
        simpa [genOf, newPartition, heq] using hk
      have hzero : d.pooled (ofKey k (d.gen + 1)) = 0 := by
        refine pooled_eq_zero ?_
        intro t ht
        rw [Bool.eq_false_iff]
        intro hof
        have hle := hdfresh t ht
        have hgen := (ofKey_iff.mp hof).2
        omega
      unfold pooled at hzero
      change d.flights (ofKey k (d.gen + 1)) + 0 ≤ _
      omega
    · exact hd k gen hkey (by simpa [genOf, newPartition, heq] using hk)

theorem Busy.revokeOne (h : Busy [] c) (tp : TopicPartition) : Busy [] (c.revokeOne tp) := by
  have hsame := samePool_revokeOne c tp
  intro k gen hkey hk
  have hne : k.tp ≠ tp := by
    intro heq
    rw [genOf_revokeOne, if_pos heq] at hk
    cases hk
  rw [genOf_revokeOne, if_neg hne] at hk
  have hget : (c.revokeOne tp).keyQueues.get k = c.keyQueues.get k := by
    unfold Consumer.revokeOne
    rw [get_dropQueued_none, if_neg hne]
  rw [hget]
  unfold flights
  rw [hsame.work, hsame.running, hsame.results]
  exact h k gen hkey hk

/-- Every move before the shutdown keeps one message of a key in the channels. -/
theorem Busy.move (h : Busy [] c) (hl : Ledger [] none c) (hc : CommitInv c) (hw : 1 < cfg.workers)
    (hopen : c.workClosed = false) (hmove : Move cfg c d) : Busy [] d := by
  cases hmove with
  | stay => exact h
  | recv r rest ctxDone seekOk hresults =>
    have hrecv : Busy [r.task] { c with results := rest } := by
      intro k gen hkey hk
      have hle := h k gen hkey hk
      simp only [flights, hresults, countP_cons, countP_nil] at hle
      simp only [flights, countP_cons, countP_nil]
      omega
    exact hrecv.complete (hl.recv hresults) hopen ctxDone seekOk
  | tend due ok => exact h.outside (commits_maybeCommit cfg c due ok).outside
  | commit ok => exact h.outside (commits_commit c ok).outside
  | assigned tps hfree =>
    refine h.onAssigned ?_ tps
    intro x hx
    exact hc.hist_gen _ (hc.tasks x hx) x.gen rfl
  | revoked tps ok =>
    have hfold := List.foldlRecOn (motive := Busy []) tps Consumer.revokeOne
      (h.outside (commits_commitOffsets c (c.pending (some tps)) ok).outside)
      fun d hd tp _ => hd.revokeOne tp
    exact hfold.frame (fun _ => rfl) (fun _ => rfl) fun _ => rfl
  | accept m seekOk => exact h.outside (outside_accept cfg c m seekOk)
  | dispatch x rest ctxDone res err seekOk hbacklog =>
    exact h.dispatchOne hw hopen ctxDone res err seekOk
  | take x rest hwork =>
    refine h.frame ?_ (fun _ => rfl) fun _ => rfl
    simp only [flights, hwork, countP_cons, countP_append, countP_nil]
    omega
  | finish i x res err hrun =>
    refine h.frame ?_ (fun _ => rfl) fun _ => rfl
    intro P
    have hpool := pooled_finish hrun res err P
    exact Nat.add_right_cancel hpool
  | close => exact h.frame (fun _ => rfl) (fun _ => rfl) fun _ => rfl

end Keys

section Inline

variable {cfg : Config} {c d : Consumer}

/-- Without a pool the channels stay empty. -/
structure NoPool (c : Consumer) : Prop where
  work : c.work = []
  running : c.running = []
  results : c.results = []

theorem NoPool.samePool (h : NoPool c) (hsame : SamePool c d) : NoPool d :=
  ⟨hsame.work.trans h.work, hsame.running.trans h.running, hsame.results.trans h.results⟩

theorem samePool_complete (hw : cfg.workers ≤ 1) (ctxDone : Bool) (r : TaskResult) (seekOk : Bool) :
    SamePool c (complete cfg c ctxDone r seekOk).1 := by
  have hout : ∀ d e, SamePool c d → Outside d e → SamePool c e :=
    fun d e hd ho => hd.trans ho.samePool
  refine complete_pool (P := SamePool c) (fun _ => ⟨rfl, rfl, rfl, rfl, rfl⟩)
    (fun _ _ _ => ⟨rfl, rfl, rfl, rfl, rfl⟩) (fun _ hd => hd) hout hout ?_
    (fun d hd => hd.trans (samePool_dropFollowers d r.task))
  intro d hd
  unfold released
  rw [if_pos (.inr hw)]
  exact hd

theorem NoPool.move (h : NoPool c) (hw : cfg.workers ≤ 1) (hmove : Move cfg c d) : NoPool d := by
  cases hmove with
  | stay => exact h
  | recv r rest ctxDone seekOk hresults =>
    rw [h.results] at hresults
    cases hresults
  | tend due ok => exact h.samePool (commits_maybeCommit cfg c due ok).outside.samePool
  | commit ok => exact h.samePool (commits_commit c ok).outside.samePool
  | assigned tps hfree => exact h.samePool (samePool_onAssigned c tps)
  | revoked tps ok => exact h.samePool (samePool_onRevoked c tps ok)
  | accept m seekOk => exact h.samePool (outside_accept cfg c m seekOk).samePool
  | dispatch x rest ctxDone res err seekOk hbacklog =>
    refine dispatchOne_keeps (h.samePool ⟨rfl, rfl, rfl, rfl, rfl⟩) ?_ ?_
    · intro p _ _ _
      have hstart : SamePool c ((c.started x p rest).logFinished x res) :=
        ⟨rfl, rfl, rfl, rfl, rfl⟩
      exact h.samePool (hstart.trans (samePool_complete hw ctxDone _ seekOk))
    · intro p _ _ hmany
      omega
  | take x rest hwork =>
    rw [h.work] at hwork
    cases hwork
  | finish i x res err hrun =>
    rw [h.running] at hrun
    cases hrun
  | close => exact ⟨h.work, h.running, h.results⟩

end Inline

end Consumer

end Kafka
end GoGuard
