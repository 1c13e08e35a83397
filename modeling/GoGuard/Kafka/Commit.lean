import GoGuard.Kafka.CommitPoint

/-!
# The consumer never commits past an unsafe message

Every offset handed to `Client.Commit` is the end of a run of offsets that were
all accepted in the current assignment and all finished safely: done, stored,
or skipped because they can never be stored.

The proof carries one statement per assigned partition (`Started`): from the
first accepted offset up to the frontier everything is safe, and so is every
offset remembered above it.  The frontier only moves over such offsets, the
safe offset of a partition never passes its frontier, and a new assignment
starts from nothing because its generation has never been used.
-/

namespace GoGuard
namespace Kafka

open Lib Dlq List

namespace Consumer

/-- The task was accepted in its assignment. -/
def TaskOk (hist : List Event) (t : Task) : Prop :=
  .accepted t.tp t.gen t.m.offset ∈ hist

/-- The result belongs to an accepted task, and a safe one is on record. -/
def ResultOk (hist : List Event) (r : TaskResult) : Prop :=
  TaskOk hist r.task ∧
    (r.res.safe = true → .finished r.task.tp r.task.gen r.task.m.offset r.res ∈ hist)

/-- The invariant behind the commit point. -/
structure CommitInv (c : Consumer) : Prop where
  part : ∀ tp p, c.coreOf tp = some p → PartOk c.hist (c.safe.get tp) tp p
  owned : ∀ tp o, c.safe.get tp = some o → ∃ p, c.coreOf tp = some p
  gen_le : ∀ tp p, c.coreOf tp = some p → p.gen ≤ c.gen
  hist_gen : ∀ e ∈ c.hist, ∀ g, e.gen? = some g → g ≤ c.gen
  tasks : ∀ t, c.Holds t → TaskOk c.hist t
  results : ∀ r ∈ c.results, ResultOk c.hist r
  commits : CommitsOk c.hist

variable {hist : List Event} {c d : Consumer}

theorem TaskOk.mono {t : Task} (h : TaskOk hist t) (more : List Event) : TaskOk (hist ++ more) t :=
  mem_append_left _ h

theorem ResultOk.mono {r : TaskResult} (h : ResultOk hist r) (more : List Event) :
    ResultOk (hist ++ more) r :=
  ⟨h.1.mono more, fun hs => mem_append_left _ (h.2 hs)⟩

theorem commitInv_new : CommitInv Consumer.new := by
  refine ⟨?_, ?_, ?_, ?_, ?_, ?_, ?_⟩
  · intro tp p hp
    simp [coreOf, Consumer.new] at hp
  · intro tp o ho
    simp [Consumer.new] at ho
  · intro tp p hp
    simp [coreOf, Consumer.new] at hp
  · intro e he
    simp [Consumer.new] at he
  · intro t ht
    simp [Holds, Consumer.new] at ht
  · intro r hr
    simp [Consumer.new] at hr
  · intro older newer tp gen o ok heq
    simp [Consumer.new] at heq

/-- The history goes on, and every partition is as the new history has it. -/
theorem CommitInv.grow (h : CommitInv c) {es : List Event} (hhist : d.hist = c.hist ++ es)
    (hgen : c.gen ≤ d.gen) (hes : ∀ e ∈ es, ∀ g, e.gen? = some g → g ≤ d.gen)
    (hpart : ∀ tp q, d.coreOf tp = some q → PartOk d.hist (d.safe.get tp) tp q ∧ q.gen ≤ d.gen)
    (howned : ∀ tp o, d.safe.get tp = some o → ∃ q, d.coreOf tp = some q)
    (htasks : ∀ t, d.Holds t → c.Holds t ∨ TaskOk d.hist t)
    (hresults : ∀ r ∈ d.results, r ∈ c.results) (hcommits : CommitsOk d.hist) : CommitInv d := by
  refine ⟨fun tp q hq => (hpart tp q hq).1, howned, fun tp q hq => (hpart tp q hq).2, ?_, ?_, ?_,
    hcommits⟩
  · intro e he g hg
    rw [hhist] at he
    rcases mem_append.mp he with he | he
    · exact (h.hist_gen e he g hg).trans hgen
    · exact hes e he g hg
  · intro t ht
    refine (htasks t ht).elim (fun ht => ?_) id
    rw [hhist]
    exact (h.tasks t ht).mono es
  · intro r hr
    rw [hhist]
    exact (h.results r (hresults r hr)).mono es

theorem CommitInv.quiet (h : CommitInv c) (hq : Quiet c d) : CommitInv d := by
  refine h.grow (hq.hist.trans (append_nil _).symm) hq.gen.ge nofun ?_ ?_
    (fun t ht => .inl (hq.holds t ht)) (fun r hr => hq.results ▸ hr) (hq.hist ▸ h.commits)
  · intro tp p hp
    rw [hq.core] at hp
    rw [hq.hist, hq.safe, hq.gen]
    exact ⟨h.part tp p hp, h.gen_le tp p hp⟩
  · intro tp o ho
    rw [hq.safe] at ho
    rw [hq.core]
    exact h.owned tp o ho

theorem CommitInv.log (h : CommitInv c) {e : Event} (hgen : ∀ g, e.gen? = some g → g ≤ c.gen)
    (he : ∀ tp gen, ¬ e.touches tp gen) (hcommit : ∀ tp gen o ok, e ≠ .commit tp gen o ok) :
    CommitInv { c with hist := c.hist ++ [e] } := by
  refine h.grow rfl le_rfl (by simpa using hgen) ?_ h.owned (fun _ => .inl) (fun _ => id)
    (h.commits.snoc fun tp gen o ok heq => absurd heq (hcommit tp gen o ok))
  exact fun tp p hp => ⟨(h.part tp p hp).mono (he tp p.gen), h.gen_le tp p hp⟩

theorem CommitInv.update (h : CommitInv c) (tp : TopicPartition) (hhist : d.hist = c.hist)
    (hgen : d.gen = c.gen) (hresults : d.results = c.results) (hholds : ∀ t, d.Holds t → c.Holds t)
    (hcore : ∀ tp', tp' ≠ tp → d.coreOf tp' = c.coreOf tp')
    (hsafe : ∀ tp', tp' ≠ tp → d.safe.get tp' = c.safe.get tp')
    (hpart : ∀ q, d.coreOf tp = some q →
      PartOk c.hist (d.safe.get tp) tp q ∧ q.gen ≤ c.gen)
    (howned : ∀ o, d.safe.get tp = some o → ∃ q, d.coreOf tp = some q) :
    CommitInv d := by
  refine h.grow (hhist.trans (append_nil _).symm) hgen.ge nofun ?_ ?_
    (fun t ht => .inl (hholds t ht)) (fun r hr => hresults ▸ hr) (hhist ▸ h.commits)
  · intro tp' p hp
    rw [hhist, hgen]
    by_cases heq : tp' = tp
    · subst heq
      exact hpart p hp
    · rw [hcore tp' heq] at hp
      rw [hsafe tp' heq]
      exact ⟨h.part tp' p hp, h.gen_le tp' p hp⟩
  · intro tp' o ho
    by_cases heq : tp' = tp
    · subst heq
      exact howned o ho
    · rw [hcore tp' heq]
      exact h.owned tp' o (hsafe tp' heq ▸ ho)

section Advancing

theorem commitInv_markDone {c : Consumer} {tp : TopicPartition} {p : Partition} {offset : Nat}
    (h : CommitInv c) (hget : c.parts.get tp = some p) (hoff : SafeIn c.hist tp p.gen offset) :
    CommitInv (c.markDone tp p offset) := by
  have hcore : c.coreOf tp = some p.core := by simp [coreOf, hget]
  obtain ⟨f, hstart⟩ := (h.part tp p.core hcore).started hoff.1
  have hnew := started_advanced hstart hoff
  have hcore' : (c.markDone tp p offset).coreOf tp = some (advanced p offset).core := by
    simp [coreOf, markDone, advanced]
  have hsafe' : (c.markDone tp p offset).safe.get tp =
      if (advanced p offset).frontier ≠ p.frontier
        then some (advanced p offset).frontier else c.safe.get tp := by
    change (if (advanced p offset).frontier ≠ p.frontier
      then c.safe.set tp (advanced p offset).frontier else c.safe).get tp = _
    split <;> simp
  refine h.update tp rfl rfl rfl (fun _ ht => ht) ?_ ?_ ?_ ?_
  · intro tp' hne
    simp [coreOf, markDone, hne]
  · intro tp' hne
    change (if (advanced p offset).frontier ≠ p.frontier
      then c.safe.set tp (advanced p offset).frontier else c.safe).get tp' = _
    split <;> simp [hne]
  · intro q hq
    rw [hcore'] at hq
    cases hq
    rw [hsafe']
    refine ⟨.inr ⟨f, hnew⟩, ?_⟩
    have hgen : (advanced p offset).core.gen = p.gen := (advance_spec _ _).1
    rw [hgen]
    exact h.gen_le tp p.core hcore
  · intro o _
    exact ⟨_, hcore'⟩

end Advancing

section Results

theorem quiet_dropBacklog (c : Consumer) (tps : List TopicPartition) :
    Quiet c (c.dropBacklog tps) := by
  refine ⟨rfl, rfl, rfl, rfl, rfl, rfl, fun _ => rfl, ?_⟩
  rintro t (ht | ht)
  · exact .inl (mem_of_mem_filter ht)
  · exact .inr ht

theorem coreOf_setPart_self (c : Consumer) (tp : TopicPartition) (p : Partition) :
    (c.setPart tp p).coreOf tp = some p.core := by
  simp [coreOf, setPart]

variable {c : Consumer} {tp : TopicPartition} {p : Partition} {cfg : Config} {ctxDone : Bool}
  {r : TaskResult}

theorem coreOf_setPart_ne {tp' : TopicPartition} (hne : tp' ≠ tp) :
    (c.setPart tp p).coreOf tp' = c.coreOf tp' := by
  simp [coreOf, setPart, hne]

theorem commitInv_rewound (h : CommitInv c) (hget : c.parts.get tp = some p) :
    CommitInv ((c.dropBacklog [tp]).setPart tp { p with next := p.frontier, failedAt := -1 }) := by
  have hcore : c.coreOf tp = some p.core := by simp [coreOf, hget]
  refine h.update tp rfl rfl rfl (quiet_dropBacklog c [tp]).holds
    (fun tp' hne => coreOf_setPart_ne hne) (fun _ _ => rfl) ?_ ?_
  · intro q hq
    cases (coreOf_setPart_self _ _ _).symm.trans hq
    refine ⟨?_, h.gen_le tp p.core hcore⟩
    rcases h.part tp p.core hcore with hfresh | ⟨f, hstart⟩
    · exact .inl ⟨hfresh.frontier, hfresh.frontier, hfresh.completed,
        hfresh.noSafe, hfresh.accepted, hfresh.commits⟩
    · have hle : (f : Int) ≤ p.frontier := hstart.le
      have hnext : 0 ≤ p.frontier := by omega
      exact .inr ⟨f, hstart.first, hnext, hstart.le, hstart.below,
        hstart.done, hstart.stops, hstart.safe_eq, hstart.commits⟩
  · intro o _
    exact ⟨_, coreOf_setPart_self _ _ _⟩

theorem commitInv_rewindIfDrained (h : CommitInv c) (tp : TopicPartition) (seekOk : Bool) :
    CommitInv (c.rewindIfDrained tp seekOk).1 :=
  rewindIfDrained_keeps h (h.quiet (quiet_dropBacklog c [tp]))
    (fun _ hp _ _ => commitInv_rewound h hp) seekOk

theorem commitInv_finishSafe {t : Task} (h : CommitInv c) (hget : c.parts.get t.tp = some p)
    (hoff : SafeIn c.hist t.tp p.gen t.m.offset) (seekOk : Bool) :
    CommitInv (finishSafe cfg c p t seekOk).1 :=
  andThen_keeps
    ((commitInv_markDone h hget hoff).quiet (quiet_released cfg _ t))
    fun _ hc => commitInv_rewindIfDrained hc t.tp seekOk

theorem commitInv_finishFailed (h : CommitInv c) (ctxDone : Bool) (r : TaskResult) (seekOk : Bool) :
    CommitInv (c.finishFailed ctxDone r seekOk).1 :=
  andThen_keeps
    (h.quiet ((quiet_dropFollowers c r.task).trans (quiet_noteFailure _ ctxDone _ r)))
    fun _ hc => commitInv_rewindIfDrained hc r.task.tp seekOk

/-- The end of an accepted task goes into the history. -/
theorem commitInv_logEnd {t : Task} {e : Event} (h : CommitInv c) (ht : TaskOk c.hist t)
    (he : e = .skipped t.tp t.gen t.m.offset ∨ ∃ res, e = .finished t.tp t.gen t.m.offset res) :
    CommitInv { c with hist := c.hist ++ [e] } := by
  have hgen := h.hist_gen _ ht t.gen rfl
  rcases he with rfl | ⟨res, rfl⟩
  all_goals
    refine h.log (fun g hg => Option.some.inj hg ▸ hgen) ?_ nofun
    rintro tp gen (⟨o, ho⟩ | ⟨o, ok, ho⟩) <;> cases ho

theorem commitInv_complete (h : CommitInv c) (hr : ResultOk c.hist r) (seekOk : Bool) :
    CommitInv (complete cfg c ctxDone r seekOk).1 := by
  have hquiet : ∀ {d}, Quiet c d → CommitInv d ∧ d.hist = c.hist := fun hq => ⟨h.quiet hq, hq.hist⟩
  refine complete_cases (P := fun d => CommitInv d ∧ d.hist = c.hist) (Q := fun x => CommitInv x.1)
    (fun _ => h.quiet (quiet_inflight c _)) ?_ (fun d hd _ _ => hd.1) ?_ ?_
    (fun d hd _ _ => commitInv_finishFailed hd.1 ctxDone r seekOk)
  · exact fun p hp _ => hquiet ((quiet_inflight c _).trans (quiet_setPart (c := c.landed) hp rfl))
  · -- skipped: the history gains the event that makes the offset safe
    intro d p hd hhist hp hgen _ _
    have ht : TaskOk d.hist r.task := hhist ▸ hr.1
    refine commitInv_finishSafe (commitInv_logEnd hd.1 ht (.inl rfl)) hp ?_ seekOk
    rw [hgen]
    exact ⟨mem_append_left _ ht, .inr (mem_append_right _ (mem_singleton.mpr rfl))⟩
  · intro d p hd hp hgen hsafe
    refine commitInv_finishSafe hd.1 hp ?_ seekOk
    rw [hgen, hd.2]
    exact ⟨hr.1, .inl ⟨r.res, hsafe, hr.2 hsafe⟩⟩

end Results

section Accepting

theorem commitInv_accepted {cfg : Config} {c : Consumer} {m : Message} {p : Partition}
    (h : CommitInv c) (hget : c.parts.get m.tp = some p) :
    CommitInv (taken cfg c m p) := by
  have hcore : c.coreOf m.tp = some p.core := by simp [coreOf, hget]
  have hgen := h.gen_le m.tp p.core hcore
  refine h.grow rfl le_rfl ?_ ?_ ?_ ?_ (fun _ => id) (h.commits.snoc (by rintro _ _ _ _ ⟨⟩))
  · intro e he g hg
    rw [mem_singleton.mp he] at hg
    cases hg
    exact hgen
  · intro tp q hq
    by_cases heq : tp = m.tp
    · subst heq
      cases (coreOf_setPart_self c _ _).symm.trans hq
      refine ⟨.inr ?_, hgen⟩
      rcases h.part m.tp p.core hcore with hfresh | ⟨f, hstart⟩
      · exact ⟨m.offset, fresh_reach hfresh m.offset⟩
      · exact ⟨f, (started_reach hstart m.offset).mono _ (by simp)⟩
    · have hq' := (coreOf_setPart_ne heq).symm.trans hq
      refine ⟨(h.part tp q hq').mono ?_, h.gen_le tp q hq'⟩
      rintro (⟨o, ho⟩ | ⟨o, ok, ho⟩)
      · simp only [Event.accepted.injEq] at ho
        exact heq ho.1.symm
      · cases ho
  · intro tp o ho
    by_cases heq : tp = m.tp
    · subst heq
      exact ⟨_, coreOf_setPart_self c _ _⟩
    · obtain ⟨q, hq⟩ := h.owned tp o ho
      exact ⟨q, (coreOf_setPart_ne heq).trans hq⟩
  · rintro t (ht | ht)
    · rcases mem_append.mp ht with hold | hnew
      · exact .inl (.inl hold)
      · rw [mem_singleton.mp hnew]
        exact .inr (mem_append_right _ (mem_singleton.mpr rfl))
    · exact .inl (.inr ht)

theorem commitInv_accept {cfg : Config} {c : Consumer} {m : Message} (h : CommitInv c)
    (seekOk : Bool) : CommitInv (accept cfg c m seekOk).1 := by
  refine accept_keeps h ?_ (fun _ hp _ _ _ => commitInv_accepted h hp) seekOk
  intro p hp _ _ hmem
  -- a finished offset again: the partition must have started
  have hcore : c.coreOf m.tp = some p.core := by simp [coreOf, hp]
  refine h.update m.tp rfl rfl rfl (fun _ ht => ht)
    (fun tp' hne => coreOf_setPart_ne hne) (fun _ _ => rfl) ?_ ?_
  · intro q hq
    cases (coreOf_setPart_self c _ _).symm.trans hq
    refine ⟨?_, h.gen_le m.tp p.core hcore⟩
    rcases h.part m.tp p.core hcore with hfresh | ⟨f, hstart⟩
    · have hempty : p.completed = ∅ := hfresh.completed
      simp [hempty] at hmem
    · exact .inr ⟨f, started_reach hstart m.offset⟩
  · intro o _
    exact ⟨_, coreOf_setPart_self c _ _⟩

end Accepting

section Rebalancing

theorem coreOf_newPartition (c : Consumer) (tp tp' : TopicPartition) :
    (c.newPartition tp).coreOf tp' =
      if tp' = tp then some ⟨c.gen + 1, -1, -1, ∅⟩ else c.coreOf tp' := by
  by_cases heq : tp' = tp <;> simp [coreOf, newPartition, Partition.core, heq]

theorem CommitInv.fresh {c : Consumer} {e : Event} (h : CommitInv c) (he : e ∈ c.hist) :
    e.gen? ≠ some (c.gen + 1) := by
  intro heq
  have hle := h.hist_gen e he _ heq
  omega

theorem commitInv_newPartition {c : Consumer} {tp : TopicPartition} (h : CommitInv c)
    (hsafe : c.safe.get tp = none) : CommitInv (c.newPartition tp) := by
  refine h.grow (append_nil _).symm (Nat.le_succ _) nofun ?_ ?_ (fun _ => .inl) (fun _ => id)
    h.commits
  · intro tp' p hp
    rw [coreOf_newPartition] at hp
    split at hp
    · next heq =>
      subst heq
      cases hp
      exact ⟨.inl ⟨rfl, rfl, rfl, hsafe, fun o hmem => h.fresh hmem rfl,
        fun o ok hmem => h.fresh hmem rfl⟩, le_refl _⟩
    · exact ⟨h.part tp' p hp, Nat.le_succ_of_le (h.gen_le tp' p hp)⟩
  · intro tp' o ho
    rw [coreOf_newPartition]
    split
    · exact ⟨_, rfl⟩
    · exact h.owned tp' o ho

theorem CommitInv.noSafe {c : Consumer} {tp : TopicPartition} (h : CommitInv c)
    (hfree : c.parts.get tp = none) : c.safe.get tp = none := by
  cases ho : c.safe.get tp with
  | none => rfl
  | some o =>
    obtain ⟨p, hp⟩ := h.owned tp o ho
    simp [coreOf, hfree] at hp

theorem commitInv_onAssigned {c : Consumer} {tps : List TopicPartition} (h : CommitInv c)
    (hfree : ∀ tp ∈ tps, c.parts.get tp = none) : CommitInv (c.onAssigned tps) := by
  have hfold : CommitInv (c.onAssigned tps) ∧
      ∀ tp ∈ tps, (c.onAssigned tps).safe.get tp = none :=
    List.foldlRecOn
      (motive := fun d => CommitInv d ∧ ∀ tp ∈ tps, d.safe.get tp = none)
      tps newPartition ⟨h, fun tp htp => h.noSafe (hfree tp htp)⟩
      fun d hd tp htp => ⟨commitInv_newPartition hd.1 (hd.2 tp htp), hd.2⟩
  exact hfold.1

theorem commitInv_revokeOne {c : Consumer} (h : CommitInv c) (tp : TopicPartition) :
    CommitInv (c.revokeOne tp) := by
  have hdel : CommitInv { c with
      parts := c.parts.del tp
      safe := c.safe.del tp
      committed := c.committed.del tp } := by
    refine h.update tp rfl rfl rfl (fun _ ht => ht) ?_ ?_ ?_ ?_
    · intro tp' hne
      simp [coreOf, hne]
    · intro tp' hne
      simp [hne]
    · intro q hq
      simp [coreOf] at hq
    · intro o ho
      simp at ho
  exact hdel.quiet (quiet_dropQueued _ tp none)

end Rebalancing

section Commits

variable {c : Consumer} {x : TopicPartition × Int}

/-- What `pending` lists is the safe offset of its partition. -/
theorem safe_of_mem_pending {only : Option (List TopicPartition)} (hx : x ∈ c.pending only) :
    c.safe.get x.1 = some x.2 := by
  obtain ⟨tp, -, htp⟩ := mem_filterMap.mp hx
  cases hoff : c.safe.get tp with
  | none => simp [hoff] at htp
  | some off =>
    simp only [hoff, Option.ite_none_right_eq_some, Option.some.injEq] at htp
    obtain ⟨-, rfl⟩ := htp
    exact hoff

section

variable (h : CommitInv c)
include h

theorem commitInv_logCommit (hx : c.safe.get x.1 = some x.2) (ok : Bool) :
    CommitInv (c.logCommits [x] ok) := by
  obtain ⟨tp, o⟩ := x
  obtain ⟨q, hq⟩ := h.owned tp o hx
  have hgen : (c.parts.get tp).map Partition.gen = some q.gen := by
    obtain ⟨p, hp, rfl⟩ := Option.map_eq_some_iff.mp hq
    rw [hp]
    rfl
  obtain ⟨f, hstart⟩ : ∃ f, Started c.hist (c.safe.get tp) tp q f := by
    rcases h.part tp q hq with hfresh | hstart
    · cases hfresh.noSafe.symm.trans hx
    · exact hstart
  have hlog : c.logCommits [(tp, o)] ok =
      { c with hist := c.hist ++ [.commit tp (some q.gen) o ok] } := by
    simp only [logCommits, map_cons, map_nil, hgen]
  rw [hlog]
  refine h.grow rfl le_rfl ?_ ?_ h.owned (fun _ => .inl) (fun _ => id) ?_
  · intro e he g hg
    rw [mem_singleton.mp he] at hg
    cases hg
    exact h.gen_le tp q hq
  · intro tp' p hp
    refine ⟨?_, h.gen_le tp' p hp⟩
    by_cases heq : tp' = tp
    · subst heq
      cases hq.symm.trans hp
      refine .inr ⟨f, hstart.mono _ ?_⟩
      intro o' ok' he
      simp only [Event.commit.injEq] at he
      exact ⟨o, hx, by omega⟩
    · refine (h.part tp' p hp).mono ?_
      rintro (⟨o', ho'⟩ | ⟨o', ok', ho'⟩)
      · cases ho'
      · simp only [Event.commit.injEq] at ho'
        exact heq ho'.1.symm
  · refine h.commits.snoc ?_
    intro tp' gen o' ok' he
    obtain ⟨rfl, rfl, rfl, -⟩ := he
    obtain ⟨hf, ho⟩ := hstart.safe_le hx
    refine ⟨q.gen, f, rfl, hstart.first, hf, ?_, ?_⟩
    · intro i hi hlt
      exact hstart.below i hi (lt_of_lt_of_le hlt ho)
    · intro o' ok' hmem
      obtain ⟨s, hs, hle⟩ := hstart.commits o' ok' hmem
      cases hs.symm.trans hx
      exact hle

theorem commitInv_logCommits {offs : List (TopicPartition × Int)}
    (hoffs : ∀ x ∈ offs, c.safe.get x.1 = some x.2) (ok : Bool) :
    CommitInv (c.logCommits offs ok) := by
  induction offs generalizing c with
  | nil =>
    have hnil : c.logCommits [] ok = c := by simp [logCommits]
    rw [hnil]
    exact h
  | cons x xs ih =>
    have hcons : c.logCommits (x :: xs) ok = (c.logCommits [x] ok).logCommits xs ok := by
      simp [logCommits]
    rw [hcons]
    refine ih (commitInv_logCommit h (hoffs x mem_cons_self) ok) ?_
    intro y hy
    exact hoffs y (mem_cons_of_mem _ hy)

theorem commitInv_committed (m : GoMap TopicPartition Int) (n : Nat) :
    CommitInv { c with committed := m, sinceCommit := n } :=
  ⟨h.part, h.owned, h.gen_le, h.hist_gen, h.tasks, h.results, h.commits⟩

theorem commitInv_commitOffsets (only : Option (List TopicPartition)) (ok : Bool) :
    CommitInv (c.commitOffsets (c.pending only) ok).1 := by
  have hlog : CommitInv (c.logCommits (c.pending only) ok) :=
    commitInv_logCommits h (fun x hx => safe_of_mem_pending hx) ok
  unfold commitOffsets
  split
  · exact h
  · split
    · exact commitInv_committed hlog _ _
    · exact hlog

theorem commitInv_commit (ok : Bool) : CommitInv (c.commit ok).1 := by
  have hoffs := commitInv_commitOffsets h none ok
  unfold commit
  split
  · exact commitInv_committed hoffs _ _
  · exact hoffs

theorem commitInv_maybeCommit {cfg : Config} (due ok : Bool) :
    CommitInv (maybeCommit cfg c due ok) := by
  unfold maybeCommit
  split
  · exact h
  · split
    · exact commitInv_commit h ok
    · exact h

theorem commitInv_onRevoked (tps : List TopicPartition) (ok : Bool) :
    CommitInv (c.onRevoked tps ok) := by
  have hfold :
      CommitInv (tps.foldl revokeOne (c.commitOffsets (c.pending (some tps)) ok).1) :=
    List.foldlRecOn (motive := CommitInv) tps revokeOne
      (commitInv_commitOffsets h (some tps) ok)
      fun _ hd tp _ => commitInv_revokeOne hd tp
  exact hfold.quiet (quiet_dropBacklog _ tps)

end

end Commits

section Dispatching

variable {c : Consumer} {t : Task} {rest : List Task}

theorem commitInv_started {p : Partition} (h : CommitInv c) (hbacklog : c.backlog = t :: rest)
    (hget : c.parts.get t.tp = some p) : CommitInv (c.started t p rest) := by
  refine h.quiet ⟨rfl, rfl, rfl, rfl, rfl, rfl, ?_, ?_⟩
  · exact coreOf_setPart_same (q := { p with inflight := p.inflight + 1 }) hget rfl
  · rintro x (hx | hx)
    · refine .inl ?_
      rw [hbacklog]
      exact mem_cons_of_mem _ hx
    · exact .inr hx

theorem commitInv_send (h : CommitInv c) (ht : TaskOk c.hist t) : CommitInv (c.send t).1 := by
  have htasks : ∀ x, (c.send t).1.Holds x → TaskOk c.hist x := by
    intro x hx
    rcases holds_send hx with hx | rfl
    · exact h.tasks x hx
    · exact ht
  obtain ⟨w, qs, heq⟩ := send_frame c t
  rw [heq] at htasks ⊢
  exact ⟨h.part, h.owned, h.gen_le, h.hist_gen, htasks, h.results, h.commits⟩

theorem commitInv_dispatchOne {cfg : Config} (h : CommitInv c) (hbacklog : c.backlog = t :: rest)
    (ctxDone : Bool) (res : Result) (err : Option Error) (seekOk : Bool) :
    CommitInv (c.dispatchOne cfg ctxDone t rest res err seekOk).1 := by
  have ht : TaskOk c.hist t :=
    h.tasks t (.inl (hbacklog ▸ mem_cons_self))
  refine dispatchOne_keeps ?_ ?_ ?_
  · refine h.quiet ⟨rfl, rfl, rfl, rfl, rfl, rfl, fun _ => rfl, ?_⟩
    rintro x (hx | hx)
    · refine .inl ?_
      rw [hbacklog]
      exact mem_cons_of_mem _ hx
    · exact .inr hx
  · intro p hp _ _
    refine commitInv_complete
      (commitInv_logEnd (commitInv_started h hbacklog hp) ht (.inr ⟨res, rfl⟩)) ⟨?_, ?_⟩ seekOk
    · exact mem_append_left _ ht
    · intro _
      exact mem_append_right _ (mem_singleton.mpr rfl)
  · intro p hp _ _
    exact commitInv_send (commitInv_started h hbacklog hp) ht

end Dispatching

section Workers

variable {c : Consumer} {t : Task} {rest : List TaskResult} {r : TaskResult}

theorem commitInv_take {rest : List Task} (h : CommitInv c) (hwork : c.work = t :: rest) :
    CommitInv { c with work := rest, running := c.running ++ [t] } := by
  refine h.quiet ⟨rfl, rfl, rfl, rfl, rfl, rfl, fun _ => rfl, ?_⟩
  rintro x (hx | hx | hx | hx | hx)
  · exact .inl hx
  · exact .inr (.inl (hwork ▸ mem_cons_of_mem _ hx))
  · exact .inr (.inr (.inl hx))
  · exact .inr (.inr (.inr (.inl hx)))
  · rcases mem_append.mp hx with hx | hx
    · exact .inr (.inr (.inr (.inr hx)))
    · exact .inr (.inl (hwork ▸ mem_singleton.mp hx ▸ mem_cons_self))

theorem commitInv_finish {i : Nat} (h : CommitInv c) (hrun : c.running[i]? = some t)
    (res : Result) (err : Option Error) :
    CommitInv { c.logFinished t res with
      results := c.results ++ [⟨t, res, err⟩]
      running := c.running.eraseIdx i } := by
  have hmem : t ∈ c.running := mem_of_getElem? hrun
  have ht : TaskOk c.hist t := h.tasks t (.inr (.inr (.inr (.inr hmem))))
  have hlog := commitInv_logEnd h ht (.inr ⟨res, rfl⟩)
  refine ⟨hlog.part, hlog.owned, hlog.gen_le, hlog.hist_gen, ?_, ?_, hlog.commits⟩
  · rintro x (hx | hx | hx | ⟨r, hr, hx⟩ | hx)
    · exact hlog.tasks x (.inl hx)
    · exact hlog.tasks x (.inr (.inl hx))
    · exact hlog.tasks x (.inr (.inr (.inl hx)))
    · rcases mem_append.mp hr with hr | hr
      · exact hlog.tasks x (.inr (.inr (.inr (.inl ⟨r, hr, hx⟩))))
      · cases mem_singleton.mp hr
        subst hx
        exact ht.mono _
    · exact hlog.tasks x (.inr (.inr (.inr (.inr (mem_of_mem_eraseIdx hx)))))
  · intro r hr
    rcases mem_append.mp hr with hr | hr
    · exact hlog.results r hr
    · cases mem_singleton.mp hr
      exact ⟨ht.mono _, fun _ => mem_append_right _ (mem_singleton.mpr rfl)⟩

theorem commitInv_dropResult (h : CommitInv c) (hresults : c.results = r :: rest) :
    CommitInv { c with results := rest } := by
  have hmem : ∀ r' ∈ rest, r' ∈ c.results := by
    intro r' hr'
    rw [hresults]
    exact mem_cons_of_mem _ hr'
  refine ⟨h.part, h.owned, h.gen_le, h.hist_gen, ?_, ?_, h.commits⟩
  · rintro x (hx | hx | hx | ⟨r', hr', hx⟩ | hx)
    · exact h.tasks x (.inl hx)
    · exact h.tasks x (.inr (.inl hx))
    · exact h.tasks x (.inr (.inr (.inl hx)))
    · exact h.tasks x (.inr (.inr (.inr (.inl ⟨r', hmem r' hr', hx⟩))))
    · exact h.tasks x (.inr (.inr (.inr (.inr hx))))
  · intro r' hr'
    exact h.results r' (hmem r' hr')

theorem commitInv_recv {cfg : Config} (h : CommitInv c) (hresults : c.results = r :: rest)
    (ctxDone seekOk : Bool) :
    CommitInv (complete cfg { c with results := rest } ctxDone r seekOk).1 := by
  have hr : ResultOk c.hist r := h.results r (hresults ▸ mem_cons_self)
  exact commitInv_complete (commitInv_dropResult h hresults) hr seekOk

end Workers

end Consumer

section Runs

open Consumer

variable (cfg : Config)

/-- Every move of the system keeps the invariant of the commit point. -/
theorem commitInv_move {c d : Consumer} (h : CommitInv c) (hmove : Move cfg c d) : CommitInv d := by
  cases hmove with
  | stay => exact h
  | recv r rest ctxDone seekOk hresults => exact commitInv_recv h hresults ctxDone seekOk
  | tend due ok => exact commitInv_maybeCommit h due ok
  | commit ok => exact commitInv_commit h ok
  | assigned tps hfree => exact commitInv_onAssigned h hfree
  | revoked tps ok => exact commitInv_onRevoked h tps ok
  | accept m seekOk => exact commitInv_accept h seekOk
  | dispatch t rest ctxDone res err seekOk hbacklog =>
    exact commitInv_dispatchOne h hbacklog ctxDone res err seekOk
  | take t rest hwork => exact commitInv_take h hwork
  | finish i t res err hrun => exact commitInv_finish h hrun res err
  | close => exact ⟨h.part, h.owned, h.gen_le, h.hist_gen, h.tasks, h.results, h.commits⟩

theorem commitInv_run {as : List Act} {s : Sys} (hrun : Lib.run (step cfg) Sys.init as = some s) :
    CommitInv s.c :=
  Lib.run_invariant (I := fun s : Sys => CommitInv s.c) (step cfg)
    (fun _ _ _ h hstep => commitInv_move cfg h (move_of_step hstep)) commitInv_new hrun

/--
**The consumer never commits past an unsafe message.**  In every run, an offset
`o` handed to `Client.Commit` belongs to the current assignment of its
partition; every offset from the first one accepted in that assignment up to
`o` was by then accepted in it and had finished as done, deferred or parked, or
was skipped as unstorable; and no offset committed earlier in the assignment
was higher.
-/
theorem commit_covers_safe_prefix (as : List Act) (s : Sys)
    (hrun : Lib.run (step cfg) Sys.init as = some s)
    (older newer : List Event) (tp : TopicPartition) (gen : Option Nat) (o : Int) (ok : Bool)
    (hist : s.c.hist = older ++ .commit tp gen o ok :: newer) :
    ∃ g f, gen = some g ∧ firstAccepted older tp g = some f ∧ (f : Int) ≤ o ∧
      (∀ i : Nat, f ≤ i → (i : Int) < o → SafeIn older tp g i) ∧
      ∀ o' ok', .commit tp (some g) o' ok' ∈ older → o' ≤ o :=
  (commitInv_run cfg hrun).commits older newer tp gen o ok hist

end Runs

section Example

open Consumer

/-- Partition 0 of the topic `t`. -/
def demoPartition : TopicPartition := ⟨str "t", 0⟩

/-- The digests of the two messages of the example. -/
def demoSha256 (bs : Bytes) : Bytes :=
  if bs = idPreimage [str "kafka", str "t", str "0", str "5"] then
    [188, 223, 224, 38, 138, 109, 201, 226, 183, 169, 161, 244, 37, 121, 119, 152,
      219, 210, 149, 76, 147, 146, 28, 240, 111, 167, 224, 48, 241, 53, 143, 147]
  else
    [117, 9, 150, 249, 112, 84, 207, 198, 161, 97, 51, 15, 109, 45, 132, 33, 252,
      159, 238, 12, 205, 45, 29, 78, 166, 165, 232, 21, 22, 217, 172, 205]

/-- Two workers on one topic, committing after every message. -/
def demoConfig : Config where
  topics := [str "t"]
  workers := 2
  maxInFlight := 8
  commitBatch := 1
  ignoreKeyOrder := false
  onUnstorable := .halt
  idNamespace := []
  sha256 := demoSha256
  workers_pos := by decide
  workers_le := by decide
  commitBatch_pos := by decide

/-- The message at an offset of the example partition. -/
def demoMessage (offset : Nat) (key : String) : Message :=
  ⟨demoPartition, offset, some (str key), none, []⟩

/-- Two messages are accepted, the second finishes first, and only when the
first is stored are both committed. -/
def demoCommitRun : List Act :=
  [.enterLoop, .drained, .tend false true false, .assigned [demoPartition],
    .pollMessage (demoMessage 5 "a") true, .dispatch .failed none true, .dispatched,
    .enterLoop, .drained, .tend false true false,
    .pollMessage (demoMessage 6 "b") true, .dispatch .failed none true, .dispatched,
    .take, .take, .finish 1 .done none,
    .enterLoop, .recv true, .finish 0 .deferred none, .recv true, .drained,
    .tend false true false]

theorem commit_covers_safe_prefix_demo :
    ∃ s older newer,
      Lib.run (step demoConfig) Sys.init demoCommitRun = some s ∧
      s.c.hist = older ++ .commit demoPartition (some 1) 7 true :: newer ∧
      firstAccepted older demoPartition 1 = some 5 ∧
      SafeIn older demoPartition 1 5 ∧ SafeIn older demoPartition 1 6 := by
  obtain ⟨s, hs, hhist⟩ : ∃ s, Lib.run (step demoConfig) Sys.init demoCommitRun = some s ∧
      s.c.hist = [.accepted demoPartition 1 5, .accepted demoPartition 1 6,
        .finished demoPartition 1 6 .done, .finished demoPartition 1 5 .deferred] ++
        .commit demoPartition (some 1) 7 true :: [] := by
    decide
  obtain ⟨g, f, hg, hf, -, hsafe, -⟩ :=
    commit_covers_safe_prefix demoConfig demoCommitRun s hs _ _ _ _ _ _ hhist
  cases hg
  obtain rfl : 5 = f := Option.some.inj hf
  exact ⟨s, _, _, hs, hhist, rfl, hsafe 5 (by decide) (by decide),
    hsafe 6 (by decide) (by decide)⟩

end Example

end Kafka
end GoGuard
