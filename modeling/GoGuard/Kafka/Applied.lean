import GoGuard.Kafka.Commit

/-!
# Every finished message is accounted for

The converse of commit safety.  A message of a current assignment that finished
safely is below the frontier, remembered above it, or its result is still in
the result channel; a skipped message is below the frontier or remembered.  So
when the channel holds no more results to apply, the frontier is exactly the
end of the finished prefix, and committing the safe offsets commits exactly
that prefix.

A result that has been received and not yet applied is a hole in this
statement, which the invariant therefore names.
-/

namespace GoGuard
namespace Kafka

open Lib Dlq List

namespace Consumer

/-- The offset of the message is below the frontier or remembered above it. -/
def Core.Has (p : Core) (o : Nat) : Prop :=
  (o : Int) < p.frontier ∨ (o : Int) ∈ p.completed

/-- The result finished safely, for this message of this assignment. -/
def SafeResult (r : TaskResult) (tp : TopicPartition) (gen o : Nat) : Prop :=
  r.res.safe = true ∧ r.task.tp = tp ∧ r.task.gen = gen ∧ r.task.m.offset = o

/-- Finished messages are applied or have their result in the channel, except
where `hole` holds. -/
structure AppliedInv (hole : TopicPartition → Nat → Nat → Prop) (c : Consumer) :
    Prop where
  finished : ∀ tp g o res, .finished tp g o res ∈ c.hist → .accepted tp g o ∈ c.hist
  skipped : ∀ tp g o, .skipped tp g o ∈ c.hist → .accepted tp g o ∈ c.hist
  applied : ∀ tp p, c.coreOf tp = some p → ∀ o (res : Result), res.safe = true →
    .finished tp p.gen o res ∈ c.hist →
    Core.Has p o ∨ (∃ r ∈ c.results, SafeResult r tp p.gen o) ∨ hole tp p.gen o
  passed : ∀ tp p, c.coreOf tp = some p → ∀ o, .skipped tp p.gen o ∈ c.hist →
    Core.Has p o ∨ hole tp p.gen o
  committed : ∀ tp l, c.committed.get tp = some l →
    ∃ o, c.safe.get tp = some o ∧ l ≤ o

/-- No hole. -/
def noHole : TopicPartition → Nat → Nat → Prop :=
  fun _ _ _ => False

/-- The hole a received result leaves. -/
def holeOf (t : Task) (tp : TopicPartition) (gen o : Nat) : Prop :=
  t.tp = tp ∧ t.gen = gen ∧ t.m.offset = o

theorem appliedInv_new : AppliedInv noHole Consumer.new := by
  refine ⟨?_, ?_, ?_, ?_, ?_⟩
  · intro tp g o res he
    simp [Consumer.new] at he
  · intro tp g o he
    simp [Consumer.new] at he
  · intro tp p hp
    simp [coreOf, Consumer.new] at hp
  · intro tp p hp
    simp [coreOf, Consumer.new] at hp
  · intro tp l hl
    simp [Consumer.new] at hl

section Frames

variable {hole : TopicPartition → Nat → Nat → Prop} {c d : Consumer}

/-- Nothing has ended since: it is enough to know again what has been accepted. -/
theorem AppliedInv.keep {hole' : TopicPartition → Nat → Nat → Prop} (h : AppliedInv hole c)
    (hhist : d.hist = c.hist) (hresults : d.results = c.results)
    (hcore : ∀ tp q, d.coreOf tp = some q → ∀ o, .accepted tp q.gen o ∈ c.hist →
      ∃ p, c.coreOf tp = some p ∧ p.gen = q.gen ∧
        (Core.Has p o ∨ hole tp q.gen o → Core.Has q o ∨ hole' tp q.gen o))
    (hcommitted : ∀ tp l, d.committed.get tp = some l → ∃ o, d.safe.get tp = some o ∧ l ≤ o) :
    AppliedInv hole' d := by
  refine ⟨hhist ▸ h.finished, hhist ▸ h.skipped, ?_, ?_, hcommitted⟩
  · intro tp q hq o res hres hfin
    rw [hhist] at hfin
    obtain ⟨p, hp, hgen, himp⟩ := hcore tp q hq o (h.finished _ _ _ _ hfin)
    rw [← hgen] at hfin himp ⊢
    rw [hresults]
    rcases h.applied tp p hp o res hres hfin with hhas | hr | hhole
    · exact (himp (.inl hhas)).imp id .inr
    · exact .inr (.inl hr)
    · exact (himp (.inr hhole)).imp id .inr
  · intro tp q hq o hskip
    rw [hhist] at hskip
    obtain ⟨p, hp, hgen, himp⟩ := hcore tp q hq o (h.skipped _ _ _ hskip)
    rw [← hgen] at hskip himp ⊢
    exact himp (h.passed tp p hp o hskip)

theorem AppliedInv.frame (h : AppliedInv hole c) (hhist : d.hist = c.hist)
    (hresults : d.results = c.results) (hsafe : d.safe = c.safe)
    (hcommitted : d.committed = c.committed)
    (hcore : ∀ tp q, d.coreOf tp = some q → ∃ p, c.coreOf tp = some p ∧
      q.gen = p.gen ∧ q.frontier = p.frontier ∧ q.completed = p.completed) :
    AppliedInv hole d := by
  refine h.keep hhist hresults ?_ (by rw [hcommitted, hsafe]; exact h.committed)
  intro tp q hq o _
  obtain ⟨p, hp, hgen, hfront, hdone⟩ := hcore tp q hq
  refine ⟨p, hp, hgen.symm, ?_⟩
  unfold Core.Has
  rw [hfront, hdone]
  exact id

theorem AppliedInv.quiet (h : AppliedInv hole c) (hq : Quiet c d) : AppliedInv hole d := by
  refine h.frame hq.hist hq.results hq.safe hq.committed ?_
  intro tp q hcore
  exact ⟨q, (hq.core tp) ▸ hcore, rfl, rfl, rfl⟩

/-- What ends here has been accepted, and is in a hole. -/
theorem AppliedInv.log (h : AppliedInv hole c) (es : List Event)
    (hfin : ∀ tp g o res, .finished tp g o res ∈ es →
      .accepted tp g o ∈ c.hist ∧ (res.safe = true → hole tp g o))
    (hskip : ∀ tp g o, .skipped tp g o ∈ es → .accepted tp g o ∈ c.hist ∧ hole tp g o) :
    AppliedInv hole { c with hist := c.hist ++ es } := by
  refine ⟨?_, ?_, ?_, ?_, h.committed⟩
  · intro tp g o res he
    refine mem_append_left _ ((mem_append.mp he).elim (h.finished tp g o res) ?_)
    exact fun he => (hfin tp g o res he).1
  · intro tp g o he
    refine mem_append_left _ ((mem_append.mp he).elim (h.skipped tp g o) ?_)
    exact fun he => (hskip tp g o he).1
  · intro tp p hp o res hres he
    rcases mem_append.mp he with he | he
    · exact h.applied tp p hp o res hres he
    · exact .inr (.inr ((hfin tp p.gen o res he).2 hres))
  · intro tp p hp o he
    rcases mem_append.mp he with he | he
    · exact h.passed tp p hp o he
    · exact .inr (hskip tp p.gen o he).2

/-- A hole in no current assignment is no hole. -/
theorem AppliedInv.close {t : Task} (h : AppliedInv (holeOf t) c)
    (hstale : ∀ p, c.coreOf t.tp = some p → p.gen ≠ t.gen) : AppliedInv noHole c := by
  refine h.keep rfl rfl ?_ h.committed
  intro tp p hp o _
  refine ⟨p, hp, rfl, Or.imp id ?_⟩
  rintro ⟨rfl, hgen, -⟩
  exact absurd hgen.symm (hstale p hp)

theorem AppliedInv.mono {hole' : TopicPartition → Nat → Nat → Prop} (h : AppliedInv hole c)
    (himp : ∀ tp g o, hole tp g o → hole' tp g o) : AppliedInv hole' c :=
  h.keep rfl rfl (fun _ p hp _ _ => ⟨p, hp, rfl, Or.imp id (himp _ _ _)⟩) h.committed

end Frames

section Results

variable {c : Consumer}

/-- Offsets the frontier passes are below it, the others stay remembered. -/
theorem has_advance (n : Nat) (p : Partition) (x : Int) (hx : x < p.frontier ∨ x ∈ p.completed) :
    x < (advance n p).frontier ∨ x ∈ (advance n p).completed := by
  induction n generalizing p with
  | zero => exact hx
  | succ n ih =>
    unfold advance
    split
    · refine ih _ ?_
      rcases hx with hx | hx
      · exact .inl (by simp only; omega)
      · by_cases heq : x = p.frontier
        · exact .inl (by simp only; omega)
        · exact .inr (Finset.mem_erase.mpr ⟨heq, hx⟩)
    · exact hx

variable {p : Partition} {t : Task} {hole : TopicPartition → Nat → Nat → Prop} {cfg : Config}
  {r : TaskResult} {ctxDone : Bool}

theorem has_advanced {offset o : Nat} (h : Core.Has p.core o ∨ o = offset) :
    Core.Has (advanced p offset).core o := by
  refine has_advance _ _ _ ?_
  rcases h with (h | h) | rfl
  · exact .inl h
  · exact .inr (Finset.mem_insert_of_mem h)
  · exact .inr (Finset.mem_insert_self _ _)

theorem appliedInv_markDone (h : AppliedInv (holeOf t) c) (hc : CommitInv c)
    (hget : c.parts.get t.tp = some p) : AppliedInv noHole (c.markDone t.tp p t.m.offset) := by
  have hcore : c.coreOf t.tp = some p.core := by simp [coreOf, hget]
  have hcore' : (c.markDone t.tp p t.m.offset).coreOf t.tp =
      some (advanced p t.m.offset).core := by
    simp [coreOf, markDone]
  have hother : ∀ tp, tp ≠ t.tp →
      (c.markDone t.tp p t.m.offset).coreOf tp = c.coreOf tp := by
    intro tp hne
    simp [coreOf, markDone, hne]
  have hgen : (advanced p t.m.offset).core.gen = p.core.gen := (advance_spec _ _).1
  have hle : p.frontier ≤ (advanced p t.m.offset).frontier := (advance_spec _ _).2.2.1
  refine h.keep rfl rfl ?_ ?_
  · intro tp q hq o _
    by_cases heq : tp = t.tp
    · subst heq
      cases hcore'.symm.trans hq
      refine ⟨p.core, hcore, hgen.symm, ?_⟩
      rintro (hhas | ⟨-, -, ho⟩)
      · exact .inl (has_advanced (.inl hhas))
      · exact .inl (has_advanced (.inr ho.symm))
    · refine ⟨q, (hother tp heq).symm.trans hq, rfl, Or.imp id ?_⟩
      rintro ⟨htp, -⟩
      exact absurd htp.symm heq
  · intro tp l hl
    obtain ⟨o, ho, hlo⟩ := h.committed tp l hl
    have hsafe : (c.markDone t.tp p t.m.offset).safe =
        if (advanced p t.m.offset).frontier ≠ p.frontier
          then c.safe.set t.tp (advanced p t.m.offset).frontier else c.safe := rfl
    rw [hsafe]
    split
    · by_cases heq : tp = t.tp
      · subst heq
        refine ⟨(advanced p t.m.offset).frontier, by simp, ?_⟩
        -- the old safe offset was the old frontier
        rcases hc.part t.tp p.core hcore with hfresh | ⟨f, hstart⟩
        · cases hfresh.noSafe.symm.trans ho
        · have hofr : o ≤ p.frontier := (hstart.safe_le ho).2
          omega
      · exact ⟨o, by simpa [heq] using ho, hlo⟩
    · exact ⟨o, ho, hlo⟩

theorem appliedInv_rewindIfDrained (h : AppliedInv hole c) (tp : TopicPartition) (seekOk : Bool) :
    AppliedInv hole (c.rewindIfDrained tp seekOk).1 := by
  refine rewindIfDrained_keeps h (h.quiet (quiet_dropBacklog c [tp])) ?_ seekOk
  intro p hp _ _
  refine h.frame rfl rfl rfl rfl ?_
  intro tp' q hq
  by_cases heq : tp' = tp
  · subst heq
    cases (coreOf_setPart_self _ _ _).symm.trans hq
    exact ⟨p.core, by simp [coreOf, hp], rfl, rfl, rfl⟩
  · exact ⟨q, (coreOf_setPart_ne heq).symm.trans hq, rfl, rfl, rfl⟩

theorem appliedInv_finishSafe (h : AppliedInv (holeOf t) c) (hc : CommitInv c)
    (hget : c.parts.get t.tp = some p) (seekOk : Bool) :
    AppliedInv noHole (finishSafe cfg c p t seekOk).1 :=
  andThen_keeps
    ((appliedInv_markDone h hc hget).quiet (quiet_released cfg _ t))
    fun _ hd => appliedInv_rewindIfDrained hd t.tp seekOk

theorem appliedInv_finishFailed (h : AppliedInv hole c)
    (ctxDone : Bool) (r : TaskResult) (seekOk : Bool) :
    AppliedInv hole (c.finishFailed ctxDone r seekOk).1 :=
  andThen_keeps
    (h.quiet ((quiet_dropFollowers c r.task).trans (quiet_noteFailure _ ctxDone _ r)))
    fun _ hd => appliedInv_rewindIfDrained hd r.task.tp seekOk

theorem appliedInv_logSkipped (h : AppliedInv noHole c) (ht : TaskOk c.hist t) :
    AppliedInv (holeOf t)
      { c with hist := c.hist ++ [.skipped t.tp t.gen t.m.offset] } := by
  have hopen : AppliedInv (holeOf t) c := h.mono fun _ _ _ => False.elim
  refine hopen.log _ (by simp) ?_
  intro tp g o he
  cases mem_singleton.mp he
  exact ⟨ht, rfl, rfl, rfl⟩

/-- The hole of a received result: only a safe one leaves one. -/
def resultHole (r : TaskResult) (tp : TopicPartition) (gen o : Nat) : Prop :=
  r.res.safe = true ∧ holeOf r.task tp gen o

theorem appliedInv_recv {rest : List TaskResult} (h : AppliedInv noHole c)
    (hresults : c.results = r :: rest) : AppliedInv (resultHole r) { c with results := rest } := by
  refine ⟨h.finished, h.skipped, ?_, ?_, h.committed⟩
  · intro tp p hp o res hres hfin
    rcases h.applied tp p hp o res hres hfin with hhas | ⟨r', hr', hsafe⟩ | hno
    · exact .inl hhas
    · rw [hresults] at hr'
      rcases mem_cons.mp hr' with rfl | hr'
      · exact .inr (.inr ⟨hsafe.1, hsafe.2⟩)
      · exact .inr (.inl ⟨r', hr', hsafe⟩)
    · exact hno.elim
  · intro tp p hp o hskip
    exact (h.passed tp p hp o hskip).imp id False.elim

theorem appliedInv_complete (h : AppliedInv (resultHole r) c) (hc : CommitInv c)
    (hr : ResultOk c.hist r) (seekOk : Bool) :
    AppliedInv noHole (complete cfg c ctxDone r seekOk).1 := by
  have hbad : ∀ {d}, AppliedInv (resultHole r) d → r.res.safe = false → AppliedInv noHole d := by
    intro d hd hsafe
    refine hd.mono ?_
    rintro tp g o ⟨hs, -⟩
    rw [hsafe] at hs
    cases hs
  have hnotSafe : r.unstorable = true → r.res.safe = false := by
    intro hun
    simp only [TaskResult.unstorable, Bool.and_eq_true, Bool.not_eq_true'] at hun
    exact hun.1
  refine complete_cases
    (P := fun d => AppliedInv (resultHole r) d ∧ CommitInv d ∧ ResultOk d.hist r)
    (Q := fun x => AppliedInv noHole x.1) ?_ ?_ (fun d hd hun _ => hbad hd.1 (hnotSafe hun)) ?_ ?_
    (fun d hd _ hsafe => appliedInv_finishFailed (hbad hd.1 hsafe) ctxDone r seekOk)
  · intro hstale
    have hland : AppliedInv (resultHole r) c.landed := h.quiet (quiet_inflight c _)
    refine (hland.mono fun _ _ _ hh => hh.2).close ?_
    intro p hp
    obtain ⟨q, hq, rfl⟩ := Option.map_eq_some_iff.mp hp
    exact hstale q hq
  · intro p hp _
    have hq : Quiet c (c.landed.setPart r.task.tp p.landed) :=
      (quiet_inflight c _).trans (quiet_setPart (c := c.landed) hp rfl)
    exact ⟨h.quiet hq, hc.quiet hq, hr⟩
  · intro d p hd _ hp _ hun _
    exact appliedInv_finishSafe (appliedInv_logSkipped (hbad hd.1 (hnotSafe hun)) hd.2.2.1)
      (commitInv_logEnd hd.2.1 hd.2.2.1 (.inl rfl)) hp seekOk
  · intro d p hd hp _ _
    exact appliedInv_finishSafe (hd.1.mono fun _ _ _ hh => hh.2) hd.2.1 hp seekOk

end Results

section Moves

variable {c : Consumer}

variable {cfg : Config} {t : Task}

section

variable (h : AppliedInv noHole c)
include h

theorem appliedInv_reach {m : Message} {p : Partition} (hc : CommitInv c)
    (hp : c.parts.get m.tp = some p) :
    AppliedInv noHole (c.setPart m.tp (p.reach m.offset)) := by
  have hcore : c.coreOf m.tp = some p.core := by simp [coreOf, hp]
  refine h.keep rfl rfl ?_ h.committed
  intro tp q hq o hacc
  by_cases heq : tp = m.tp
  · subst heq
    cases (coreOf_setPart_self c _ _).symm.trans hq
    refine ⟨p.core, hcore, rfl, Or.imp (fun hhas => ?_) id⟩
    -- a message of this assignment was accepted, so the partition has started and
    -- taking another message does not move its frontier
    obtain ⟨f, hstart⟩ := (hc.part m.tp p.core hcore).started hacc
    have hfront : (p.reach m.offset).frontier = p.frontier := if_neg (not_lt.mpr hstart.next)
    change (o : Int) < (p.reach m.offset).frontier ∨ (o : Int) ∈ p.completed
    rw [hfront]
    exact hhas
  · exact ⟨q, (coreOf_setPart_ne heq).symm.trans hq, rfl, id⟩

theorem appliedInv_accept {m : Message} (hc : CommitInv c)
    (seekOk : Bool) : AppliedInv noHole (accept cfg c m seekOk).1 := by
  refine accept_keeps h (fun _ hp _ _ _ => appliedInv_reach h hc hp) ?_ seekOk
  intro p hp _ _ _
  have hlog := (appliedInv_reach h hc hp).log [.accepted m.tp p.gen m.offset] (by simp) (by simp)
  exact hlog.frame rfl rfl rfl rfl fun tp q hq => ⟨q, hq, rfl, rfl, rfl⟩

theorem appliedInv_newPartition (hc : CommitInv c) (tp : TopicPartition) :
    AppliedInv noHole (c.newPartition tp) := by
  refine h.keep rfl rfl ?_ ?_
  · intro tp' q hq o hacc
    rw [coreOf_newPartition] at hq
    split at hq
    · cases hq
      exact absurd rfl (hc.fresh hacc)
    · exact ⟨q, hq, rfl, id⟩
  · intro tp' l hl
    have hl' : (c.committed.del tp).get tp' = some l := hl
    rw [GoMap.get_del] at hl'
    split at hl'
    · cases hl'
    · exact h.committed tp' l hl'

theorem appliedInv_onAssigned {tps : List TopicPartition}
    (hc : CommitInv c) (hfree : ∀ tp ∈ tps, c.parts.get tp = none) :
    AppliedInv noHole (c.onAssigned tps) := by
  have hfold : AppliedInv noHole (c.onAssigned tps) ∧ CommitInv (c.onAssigned tps) ∧
      ∀ tp ∈ tps, (c.onAssigned tps).safe.get tp = none :=
    List.foldlRecOn
      (motive := fun d =>
        AppliedInv noHole d ∧ CommitInv d ∧ ∀ tp ∈ tps, d.safe.get tp = none)
      tps newPartition ⟨h, hc, fun tp htp => hc.noSafe (hfree tp htp)⟩
      fun d hd tp htp => ⟨appliedInv_newPartition hd.1 hd.2.1 tp,
        commitInv_newPartition hd.2.1 (hd.2.2 tp htp), hd.2.2⟩
  exact hfold.1

theorem appliedInv_revokeOne (tp : TopicPartition) : AppliedInv noHole (c.revokeOne tp) := by
  have hdel : AppliedInv noHole { c with
      parts := c.parts.del tp
      safe := c.safe.del tp
      committed := c.committed.del tp } := by
    refine h.keep rfl rfl ?_ ?_
    · intro tp' q hq o _
      refine ⟨q, ?_, rfl, id⟩
      unfold coreOf at hq ⊢
      rw [GoMap.get_del] at hq
      split at hq
      · cases hq
      · exact hq
    · intro tp' l hl
      simp only [GoMap.get_del] at hl ⊢
      obtain ⟨hne, hl⟩ := of_unless hl
      rw [if_neg hne]
      exact h.committed tp' l hl
  exact hdel.quiet (quiet_dropQueued _ tp none)

theorem appliedInv_commitOffsets (only : Option (List TopicPartition)) (ok : Bool) :
    AppliedInv noHole (c.commitOffsets (c.pending only) ok).1 := by
  have hlog : AppliedInv noHole (c.logCommits (c.pending only) ok) := by
    refine h.log _ ?_ ?_
    · intro tp g o res he
      obtain ⟨x, -, hx⟩ := mem_map.mp he
      cases hx
    · intro tp g o he
      obtain ⟨x, -, hx⟩ := mem_map.mp he
      cases hx
  unfold commitOffsets
  split
  · exact h
  · split
    · refine ⟨hlog.finished, hlog.skipped, hlog.applied, hlog.passed, ?_⟩
      exact List.foldlRecOn
        (motive := fun m : GoMap TopicPartition Int => ∀ tp l, m.get tp = some l →
          ∃ o, c.safe.get tp = some o ∧ l ≤ o)
        (c.pending only) (fun m o => m.set o.1 o.2) h.committed
        fun m hm x hx tp l hl => by
          rw [GoMap.get_set] at hl
          split at hl
          · next heq =>
            cases hl
            subst heq
            exact ⟨x.2, safe_of_mem_pending hx, le_refl _⟩
          · exact hm tp l hl
    · exact hlog

theorem appliedInv_commit (ok : Bool) : AppliedInv noHole (c.commit ok).1 := by
  have hoffs := appliedInv_commitOffsets h none ok
  unfold commit
  split
  · exact hoffs.frame rfl rfl rfl rfl fun tp q hq => ⟨q, hq, rfl, rfl, rfl⟩
  · exact hoffs

theorem appliedInv_maybeCommit (due ok : Bool) : AppliedInv noHole (maybeCommit cfg c due ok) := by
  unfold maybeCommit
  split
  · exact h
  · split
    · exact appliedInv_commit h ok
    · exact h

theorem appliedInv_onRevoked (tps : List TopicPartition) (ok : Bool) :
    AppliedInv noHole (c.onRevoked tps ok) := by
  have hfold : AppliedInv noHole
      (tps.foldl revokeOne (c.commitOffsets (c.pending (some tps)) ok).1) :=
    List.foldlRecOn (motive := AppliedInv noHole) tps revokeOne
      (appliedInv_commitOffsets h (some tps) ok)
      fun _ hd tp _ => appliedInv_revokeOne hd tp
  exact hfold.quiet (quiet_dropBacklog _ tps)

theorem appliedInv_logFinished (ht : TaskOk c.hist t) (res : Result) (err : Option Error) :
    AppliedInv (resultHole ⟨t, res, err⟩) (c.logFinished t res) := by
  have hopen : AppliedInv (resultHole ⟨t, res, err⟩) c := h.mono fun _ _ _ => False.elim
  refine hopen.log _ ?_ (by simp)
  intro tp g o res' he
  cases mem_singleton.mp he
  exact ⟨ht, fun hsafe => ⟨hsafe, rfl, rfl, rfl⟩⟩

theorem appliedInv_finish {i : Nat} (ht : TaskOk c.hist t) (res : Result) (err : Option Error) :
    AppliedInv noHole { c.logFinished t res with
      results := c.results ++ [⟨t, res, err⟩]
      running := c.running.eraseIdx i } := by
  have hlog := appliedInv_logFinished h ht res err
  refine ⟨hlog.finished, hlog.skipped, ?_, ?_, hlog.committed⟩
  · intro tp p hp o res' hres he
    rcases hlog.applied tp p hp o res' hres he with hhas | ⟨r, hr, hsafe⟩ | hhole
    · exact .inl hhas
    · exact .inr (.inl ⟨r, mem_append_left _ hr, hsafe⟩)
    · exact .inr (.inl
        ⟨⟨t, res, err⟩, mem_append_right _ (mem_singleton.mpr rfl), hhole⟩)
  · intro tp p hp o he
    rcases hlog.passed tp p hp o he with hhas | hhole
    · exact .inl hhas
    · -- a skip is logged while its result is applied, never before it is queued
      refine (h.passed tp p hp o ?_).imp id False.elim
      rcases mem_append.mp he with he | he
      · exact he
      · cases mem_singleton.mp he

theorem appliedInv_dispatchOne {rest : List Task} (hc : CommitInv c)
    (hbacklog : c.backlog = t :: rest)
    (ctxDone : Bool) (res : Result) (err : Option Error) (seekOk : Bool) :
    AppliedInv noHole (c.dispatchOne cfg ctxDone t rest res err seekOk).1 := by
  have ht : TaskOk c.hist t :=
    hc.tasks t (.inl (hbacklog ▸ mem_cons_self))
  have hstart : ∀ p, c.parts.get t.tp = some p → AppliedInv noHole (c.started t p rest) := by
    intro p hp
    have hcore : ∀ tp, (c.started t p rest).coreOf tp = c.coreOf tp :=
      coreOf_setPart_same (q := { p with inflight := p.inflight + 1 }) hp rfl
    exact h.frame rfl rfl rfl rfl fun tp q hq => ⟨q, (hcore tp) ▸ hq, rfl, rfl, rfl⟩
  refine dispatchOne_keeps ?_ ?_ ?_
  · exact h.frame rfl rfl rfl rfl fun tp q hq => ⟨q, hq, rfl, rfl, rfl⟩
  · intro p hp _ _
    refine appliedInv_complete (appliedInv_logFinished (hstart p hp) ht res err)
      (commitInv_logEnd (commitInv_started hc hbacklog hp) ht (.inr ⟨res, rfl⟩)) ⟨?_, ?_⟩ seekOk
    · exact mem_append_left _ ht
    · intro _
      exact mem_append_right _ (mem_singleton.mpr rfl)
  · intro p hp _ _
    obtain ⟨w, qs, heq⟩ := send_frame (c.started t p rest) t
    rw [heq]
    exact (hstart p hp).frame rfl rfl rfl rfl fun tp q hq => ⟨q, hq, rfl, rfl, rfl⟩

end

end Moves

section Exactness

variable {c : Consumer}

/-- Both invariants hold together along every run. -/
theorem appliedInv_move {cfg : Config} {d : Consumer} (h : AppliedInv noHole c) (hc : CommitInv c)
    (hmove : Move cfg c d) : AppliedInv noHole d := by
  cases hmove with
  | stay => exact h
  | recv r rest ctxDone seekOk hresults =>
    have hr : ResultOk c.hist r := hc.results r (hresults ▸ mem_cons_self)
    exact appliedInv_complete (appliedInv_recv h hresults)
      (commitInv_dropResult hc hresults) hr seekOk
  | tend due ok => exact appliedInv_maybeCommit h due ok
  | commit ok => exact appliedInv_commit h ok
  | assigned tps hfree => exact appliedInv_onAssigned h hc hfree
  | revoked tps ok => exact appliedInv_onRevoked h tps ok
  | accept m seekOk => exact appliedInv_accept h hc seekOk
  | dispatch t rest ctxDone res err seekOk hbacklog =>
    exact appliedInv_dispatchOne h hc hbacklog ctxDone res err seekOk
  | take t rest hwork =>
    exact h.frame rfl rfl rfl rfl fun tp q hq => ⟨q, hq, rfl, rfl, rfl⟩
  | finish i t res err hrun =>
    have hmem : t ∈ c.running := mem_of_getElem? hrun
    exact appliedInv_finish h (hc.tasks t (.inr (.inr (.inr (.inr hmem))))) res err
  | close => exact h.frame rfl rfl rfl rfl fun tp q hq => ⟨q, hq, rfl, rfl, rfl⟩

/-- A commit now commits exactly the finished prefix: for each partition that
has accepted a message, every offset below the frontier is safe and the one at
it is not, no other offset is handed over for the partition, and a commit that
succeeds leaves the frontier committed. -/
def ExactCommit (c : Consumer) : Prop :=
  ∀ tp p f, c.parts.get tp = some p → firstAccepted c.hist tp p.gen = some f →
    (∀ i : Nat, f ≤ i → (i : Int) < p.frontier → SafeIn c.hist tp p.gen i) ∧
    (∀ i : Nat, (i : Int) = p.frontier → ¬ SafeIn c.hist tp p.gen i) ∧
    (∀ o, (tp, o) ∈ c.pending none → o = p.frontier) ∧
    ((f : Int) < p.frontier → (c.commit true).1.committed.get tp = some p.frontier)

/-- No waiting result would still move a commit point. -/
def NothingToApply (c : Consumer) : Prop :=
  ∀ r ∈ c.results, r.res.safe = true → ∀ p, c.parts.get r.task.tp = some p →
    p.gen ≠ r.task.gen

theorem get_foldl_set {offs : List (TopicPartition × Int)} {tp : TopicPartition} {o : Int}
    (m : GoMap TopicPartition Int) (hall : ∀ o', (tp, o') ∈ offs → o' = o) :
    (offs.foldl (fun m x => m.set x.1 x.2) m).get tp =
      if (tp, o) ∈ offs then some o else m.get tp := by
  induction offs generalizing m with
  | nil => simp
  | cons x offs ih =>
    rw [foldl_cons, ih _ fun o' ho' => hall o' (mem_cons_of_mem _ ho')]
    by_cases hmem : (tp, o) ∈ offs
    · simp [hmem]
    · rw [if_neg hmem, GoMap.get_set]
      by_cases heq : tp = x.1
      · have hx : x = (tp, o) := by
          have ho : x.2 = o := hall x.2 (by simp [heq])
          rw [heq, ← ho]
        simp [hx]
      · have hne : (tp, o) ≠ x := by
          rintro rfl
          exact heq rfl
        simp [heq, hmem, hne]

theorem committed_commit {tp : TopicPartition} {o : Int} (h : AppliedInv noHole c)
    (hsafe : c.safe.get tp = some o) : (c.commit true).1.committed.get tp = some o := by
  have hall : ∀ o', (tp, o') ∈ c.pending none → o' = o := by
    intro o' ho'
    exact Option.some.inj ((safe_of_mem_pending ho').symm.trans hsafe)
  have hmem : uncommitted (c.committed.get tp) o = true → (tp, o) ∈ c.pending none := by
    intro hun
    refine mem_filterMap.mpr ⟨tp, GoMap.mem_keys_iff.mpr ⟨o, hsafe⟩, ?_⟩
    simp [hsafe, wanted, hun]
  have hold : uncommitted (c.committed.get tp) o = false → c.committed.get tp = some o := by
    intro hun
    cases hlast : c.committed.get tp with
    | none =>
      rw [hlast] at hun
      cases hun
    | some l =>
      obtain ⟨o', ho', hlo⟩ := h.committed tp l hlast
      obtain rfl : o = o' := Option.some.inj (hsafe.symm.trans ho')
      rw [hlast] at hun
      simp only [uncommitted, gt_iff_lt, decide_eq_false_iff_not] at hun
      rw [le_antisymm hlo (not_lt.mp hun)]
  have hget : (c.commit true).1.committed =
      (c.pending none).foldl (fun m x => m.set x.1 x.2) c.committed := by
    unfold commit commitOffsets
    by_cases hnil : c.pending none = []
    · simp [hnil]
    · simp [hnil]
  rw [hget, get_foldl_set c.committed hall]
  split
  · rfl
  · next hno =>
    cases hun : uncommitted (c.committed.get tp) o with
    | true => exact absurd (hmem hun) hno
    | false => exact hold hun

theorem exactCommit_of_nothingToApply (h : AppliedInv noHole c) (hc : CommitInv c)
    (hnone : NothingToApply c) : ExactCommit c := by
  intro tp p f hget hfirst
  have hcore : c.coreOf tp = some p.core := by simp [coreOf, hget]
  obtain ⟨f', hstart⟩ : ∃ f', Started c.hist (c.safe.get tp) tp p.core f' := by
    rcases hc.part tp p.core hcore with hfresh | hstart
    · have hnil := filterMap_acceptedOffset_eq_nil hfresh.accepted
      unfold firstAccepted at hfirst
      change c.hist.filterMap (acceptedOffset tp p.gen) = [] at hnil
      rw [hnil] at hfirst
      cases hfirst
    · exact hstart
  obtain rfl : f = f' := Option.some.inj (hfirst.symm.trans hstart.first)
  have hnotHas : ∀ i : Nat, (i : Int) = p.frontier → ¬ Core.Has p.core i := by
    rintro i hi (hlt | hmem)
    · change (i : Int) < p.frontier at hlt
      omega
    · rw [hi] at hmem
      exact hstart.stops hmem
  refine ⟨hstart.below, ?_, ?_, ?_⟩
  · rintro i hi ⟨-, ⟨res, hres, hfin⟩ | hskip⟩
    · rcases h.applied tp p.core hcore i res hres hfin with
        hhas | ⟨r, hr, hsafe, rfl, hgen, -⟩ | hno
      · exact hnotHas i hi hhas
      · exact hnone r hr hsafe p hget hgen.symm
      · exact hno
    · exact (h.passed tp p.core hcore i hskip).elim (hnotHas i hi) id
  · intro o ho
    have hsafe := safe_of_mem_pending ho
    have heq := hstart.safe_eq
    rw [hsafe] at heq
    split at heq
    · exact Option.some.inj heq
    · cases heq
  · intro hlt
    have hsafe : c.safe.get tp = some p.frontier := by
      rw [hstart.safe_eq]
      exact if_pos hlt
    exact committed_commit h hsafe

end Exactness

end Consumer

end Kafka
end GoGuard
