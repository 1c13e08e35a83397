import GoGuard.Kafka.Accounting

/-!
# No message is held twice

A message is accepted only at the next offset of its partition, everything held
of the current assignment is below it, and the partition is pointed back only
when nothing of its assignment is left: the counter that `rewind` waits for is
exact, and the backlog is dropped.  So in every run before the shutdown no
message of an assignment is held twice.

`Eases` is what every move but the acceptance of a message does: no task is new,
and a next offset goes back only with nothing held.
-/

namespace GoGuard
namespace Kafka

open Lib Dlq List

namespace Consumer

/-- The tasks for one message of an assignment. -/
def ofMessage (tp : TopicPartition) (gen offset : Nat) (t : Task) : Bool :=
  ofAssignment tp gen t && t.m.offset = offset

variable {tp : TopicPartition} {gen : Nat} {t : Task} {c : Consumer} {P : Task → Bool}

@[simp] theorem ofMessage_iff {offset : Nat} :
    ofMessage tp gen offset t = true ↔ (t.tp = tp ∧ t.gen = gen) ∧ t.m.offset = offset := by
  simp [ofMessage]

/-- How many tasks of a kind have no result yet. -/
def awaiting (c : Consumer) (P : Task → Bool) : Nat :=
  c.backlog.countP P + c.work.countP P + c.running.countP P
    + c.keyQueues.total (List.countP P)

/-- How many tasks of a kind the consumer holds. -/
def holding (c : Consumer) (P : Task → Bool) : Nat :=
  c.backlog.countP P + c.pooled P

theorem holding_eq (c : Consumer) (P : Task → Bool) :
    c.holding P = c.awaiting P + c.results.countP fun r => P r.task := by
  unfold holding awaiting pooled flights
  omega

theorem holding_pos (h : c.Holds t) (ht : P t = true) : 0 < c.holding P := by
  have hpos : ∀ xs : List Task, t ∈ xs → 0 < xs.countP P :=
    fun xs hx => countP_pos_iff.mpr ⟨t, hx, ht⟩
  unfold holding pooled flights
  rcases h with h | h | ⟨k, q, hq, h⟩ | ⟨r, hr, rfl⟩ | h
  · have hback := hpos _ h
    omega
  · have hwork := hpos _ h
    omega
  · have hline := hpos _ h
    have hdel := GoMap.total_del (List.countP P) c.keyQueues k
    rw [hq, Option.map_some, Option.getD_some] at hdel
    omega
  · have hres : 0 < c.results.countP fun r => P r.task :=
      countP_pos_iff.mpr ⟨r, hr, ht⟩
    omega
  · have hrun := hpos _ h
    omega

theorem holding_eq_zero (h : ∀ t, c.Holds t → P t = false) : c.holding P = 0 := by
  have hback : c.backlog.countP P = 0 := by
    rw [countP_eq_zero]
    intro t ht
    simp [h t (.inl ht)]
  have hpool := pooled_eq_zero h
  unfold holding
  omega

theorem holding_ofMessage_le (h : c.holding (ofAssignment tp gen) = 0) (offset : Nat) :
    c.holding (ofMessage tp gen offset) = 0 := by
  refine holding_eq_zero ?_
  intro t ht
  rw [Bool.eq_false_iff]
  intro hof
  have hpos := holding_pos ht (ofAssignment_iff.mpr (ofMessage_iff.mp hof).1)
  omega

/-- No message is held twice, and those of a current assignment are below its
next offset. -/
structure Distinct (c : Consumer) : Prop where
  once : ∀ tp gen offset, c.holding (ofMessage tp gen offset) ≤ 1
  below : ∀ tp p, c.parts.get tp = some p → ∀ offset : Nat, p.next ≤ offset →
    c.holding (ofMessage tp p.gen offset) = 0

/-- What a move leaves of the messages: none is new, and the next offset of a
partition only goes back when nothing of its assignment is held. -/
structure Eases (c d : Consumer) : Prop where
  awaiting : ∀ P, d.awaiting P ≤ c.awaiting P
  results : d.results = c.results
  next : ∀ tp q, d.parts.get tp = some q → d.holding (ofAssignment tp q.gen) = 0 ∨
    ∃ p, c.parts.get tp = some p ∧ q.gen = p.gen ∧ p.next ≤ q.next

section Easing

variable {c d e : Consumer}

theorem Eases.holding (h : Eases c d) (P : Task → Bool) : d.holding P ≤ c.holding P := by
  have hle := h.awaiting P
  rw [holding_eq, holding_eq, h.results]
  omega

theorem Eases.trans (h₁ : Eases c d) (h₂ : Eases d e) : Eases c e := by
  refine ⟨fun P => (h₂.awaiting P).trans (h₁.awaiting P), h₂.results.trans h₁.results, ?_⟩
  intro tp q hq
  rcases h₂.next tp q hq with hzero | ⟨p, hp, hgen, hnext⟩
  · exact .inl hzero
  · rcases h₁.next tp p hp with hzero | ⟨o, ho, hgen', hnext'⟩
    · have hle := h₂.holding (ofAssignment tp q.gen)
      rw [hgen] at hle ⊢
      exact .inl (by omega)
    · exact .inr ⟨o, ho, hgen.trans hgen', hnext'.trans hnext⟩

theorem Eases.of_parts (hawaiting : ∀ P, d.awaiting P ≤ c.awaiting P)
    (hresults : d.results = c.results)
    (hparts : ∀ tp, (d.parts.get tp).map (fun p => (p.gen, p.next)) =
      (c.parts.get tp).map fun p => (p.gen, p.next)) :
    Eases c d := by
  refine ⟨hawaiting, hresults, ?_⟩
  intro tp q hq
  have hsame := hparts tp
  rw [hq, Option.map_some] at hsame
  obtain ⟨p, hp, heq⟩ := Option.map_eq_some_iff.mp hsame.symm
  rw [Prod.mk.injEq] at heq
  exact .inr ⟨p, hp, heq.1.symm, le_of_eq heq.2⟩

theorem Eases.refl (c : Consumer) : Eases c c :=
  .of_parts (fun _ => le_refl _) rfl fun _ => rfl

theorem Eases.setPart {tp : TopicPartition} {p q : Partition} (hget : c.parts.get tp = some p)
    (hgen : q.gen = p.gen) (hnext : p.next ≤ q.next) : Eases c (c.setPart tp q) := by
  refine ⟨fun _ => le_refl _, rfl, ?_⟩
  intro tp' q' hq'
  unfold Consumer.setPart at hq'
  rw [GoMap.get_set] at hq'
  split at hq'
  · next heq =>
    cases hq'
    exact .inr ⟨p, heq ▸ hget, hgen, hnext⟩
  · exact .inr ⟨q', hq', rfl, le_refl _⟩

theorem Distinct.eases (h : Distinct c) (he : Eases c d) : Distinct d := by
  refine ⟨fun tp gen offset => (he.holding _).trans (h.once tp gen offset), ?_⟩
  intro tp q hq offset hle
  rcases he.next tp q hq with hzero | ⟨p, hp, hgen, hnext⟩
  · exact holding_ofMessage_le hzero offset
  · have hbelow := h.below tp p hp offset (hnext.trans hle)
    have hless := he.holding (ofMessage tp q.gen offset)
    rw [hgen] at hless ⊢
    omega

end Easing

section Methods

variable {c : Consumer}

theorem awaiting_setKey_le {k : FailedKey} {q : List Task}
    (hq : ∀ P, q.countP P ≤ ((c.keyQueues.get k).getD []).countP P) (P : Task → Bool) :
    awaiting { c with keyQueues := c.keyQueues.set k q } P ≤ c.awaiting P := by
  have hset := pooled_setKey c k q P
  have hle := hq P
  unfold pooled flights at hset
  unfold awaiting
  dsimp only at hset ⊢
  omega

theorem awaiting_delKey_le (c : Consumer) (k : FailedKey) (P : Task → Bool) :
    awaiting { c with keyQueues := c.keyQueues.del k } P ≤ c.awaiting P := by
  have hdel := pooled_delKey c k P
  unfold pooled flights at hdel
  unfold awaiting
  dsimp only at hdel ⊢
  omega

theorem eases_dropKey (c : Consumer) (tp : TopicPartition) (keep : Bool) (k : FailedKey) :
    Eases c (dropKey tp keep c k) := by
  refine .of_parts ?_ rfl ?_
  · intro P
    cases keep with
    | true => exact awaiting_setKey_le (q := []) (fun _ => Nat.zero_le _) P
    | false => exact awaiting_delKey_le c k P
  · intro tp'
    unfold dropKey
    cases hp : c.parts.get tp with
    | none => rfl
    | some p =>
      simp only [GoMap.get_set]
      split
      · next heq => rw [heq, hp, Option.map_some, Option.map_some]
      · rfl

theorem eases_dropQueued (c : Consumer) (tp : TopicPartition) (only : Option Bytes) :
    Eases c (c.dropQueued tp only) :=
  List.foldlRecOn _ _ (Eases.refl c)
    fun d hd k _ => hd.trans (eases_dropKey d tp only.isSome k)

theorem eases_delKey (c : Consumer) (k : FailedKey) :
    Eases c { c with keyQueues := c.keyQueues.del k } :=
  .of_parts (awaiting_delKey_le c k) rfl fun _ => rfl

theorem eases_dropFollowers (c : Consumer) (t : Task) : Eases c (c.dropFollowers t) := by
  unfold dropFollowers
  split
  · exact Eases.refl c
  · exact (eases_dropQueued c _ _).trans (eases_delKey _ _)

theorem awaiting_pushWork_le (c : Consumer) (t : Task) (P : Task → Bool) :
    (c.pushWork t).1.awaiting P ≤ c.awaiting P + [t].countP P := by
  unfold pushWork
  split
  · exact Nat.le_add_right _ _
  · unfold awaiting
    rw [countP_append]
    dsimp only
    omega

theorem eases_released (cfg : Config) (c : Consumer) (t : Task) : Eases c (released cfg c t).1 := by
  unfold released
  split
  · exact Eases.refl c
  · split
    · exact eases_delKey c _
    · next next q hq =>
      refine .of_parts ?_ ?_ ?_
      · intro P
        have hset := pooled_setKey c (keyOf t) q P
        have hpush := awaiting_pushWork_le
          { c with keyQueues := c.keyQueues.set (keyOf t) q } next P
        rw [hq, countP_cons] at hset
        rw [countP_singleton] at hpush
        unfold pooled flights at hset
        unfold awaiting at hpush ⊢
        dsimp only at hset hpush ⊢
        omega
      · unfold pushWork
        split <;> rfl
      · intro tp
        unfold pushWork
        split <;> rfl

variable {p : Partition} {t : Task} {rest : List Task}

theorem eases_markDone {tp : TopicPartition} (hget : c.parts.get tp = some p) (offset : Nat) :
    Eases c (c.markDone tp p offset) := by
  have hgen : (advanced p offset).gen = p.gen := (advance_spec _ _).1
  have hnext : (advanced p offset).next = p.next := (advance_spec _ _).2.1
  have hset : Eases c (c.setPart tp (advanced p offset)) :=
    .setPart hget hgen (le_of_eq hnext.symm)
  exact hset.trans (.of_parts (fun _ => le_refl _) rfl fun _ => rfl)

theorem eases_noteFailure (c : Consumer) (ctxDone : Bool) (tp : TopicPartition) (r : TaskResult) :
    Eases c (c.noteFailure ctxDone tp r).1 :=
  noteFailure_keeps (Eases.refl c) (fun _ hp => .setPart hp rfl (le_refl _)) ctxDone

theorem eases_dropBacklog (c : Consumer) (tps : List TopicPartition) :
    Eases c (c.dropBacklog tps) := by
  refine .of_parts ?_ rfl fun _ => rfl
  intro P
  have hle := (filter_sublist (p := fun t : Task => !tps.contains t.tp)
    (l := c.backlog)).countP_le (p := P)
  unfold awaiting dropBacklog
  dsimp only
  omega

/-- The partition is pointed back when its counter says that nothing of it is in
the pool, and its backlog is dropped. -/
theorem eases_rewindIfDrained (h : Ledger [] none c) (tp : TopicPartition) (seekOk : Bool) :
    Eases c (c.rewindIfDrained tp seekOk).1 := by
  have hdrop := eases_dropBacklog c [tp]
  refine rewindIfDrained_keeps (Eases.refl c) hdrop ?_ seekOk
  intro p hp _ hdrained
  refine ⟨hdrop.awaiting, rfl, ?_⟩
  intro tp' q hq
  change ((c.parts.set tp { p with next := p.frontier, failedAt := -1 }).get tp')
    = some q at hq
  rw [GoMap.get_set] at hq
  split at hq
  · next heq =>
    cases hq
    subst heq
    left
    have hpart := h.part tp' p hp
    rw [hdrained, countP_nil] at hpart
    have hback : (c.backlog.filter fun t => !List.contains [tp'] t.tp).countP
        (ofAssignment tp' p.gen) = 0 := by
      rw [countP_eq_zero]
      intro t ht hof
      have hne := (mem_filter.mp ht).2
      simp [(ofAssignment_iff.mp hof).1] at hne
    change (c.backlog.filter fun t => !List.contains [tp'] t.tp).countP
        (ofAssignment tp' p.gen) + c.pooled (ofAssignment tp' p.gen) = 0
    omega
  · exact .inr ⟨q, hq, rfl, le_refl _⟩

theorem eases_complete {r : TaskResult} (h : Ledger [r.task] none c) (hopen : c.workClosed = false)
    (cfg : Config) (ctxDone seekOk : Bool) : Eases c (complete cfg c ctxDone r seekOk).1 := by
  have hland : Eases c c.landed := .of_parts (fun _ => le_refl _) rfl fun _ => rfl
  have hrewind : ∀ d : Consumer, Eases c d ∧ Ledger [] none d →
      Eases c (d.rewindIfDrained r.task.tp seekOk).1 ∧
        Ledger [] none (d.rewindIfDrained r.task.tp seekOk).1 :=
    fun d hd => ⟨hd.1.trans (eases_rewindIfDrained hd.2 _ seekOk),
      hd.2.outside (outside_rewindIfDrained d _ seekOk)⟩
  refine complete_keeps (Q := fun x => Eases c x.1)
    (P := fun d => (Eases c d ∧ Ledger [] none d) ∧ d.workClosed = false) (fun _ => hland) ?_
    (fun d hd _ _ => hd.1.1) ?_ ?_ ?_
  · intro p hp hgen
    exact ⟨⟨hland.trans (.setPart (c := c.landed) hp rfl (le_refl _)), h.landed_current hp hgen⟩,
      hopen⟩
  · rintro d ⟨⟨hd, hl⟩, hdopen⟩ -
    exact ⟨⟨hd.trans (.of_parts (fun _ => le_refl _) rfl fun _ => rfl),
      hl.outside (outside_rest d _ _ _ _ _ _)⟩, hdopen⟩
  · rintro d p ⟨⟨hd, hl⟩, hdopen⟩ hp - -
    have hmark := hl.outside (outside_markDone hp r.task.m.offset)
    exact (andThen_keeps (P := fun e => Eases c e ∧ Ledger [] none e)
      ⟨(hd.trans (eases_markDone hp _)).trans (eases_released cfg _ _),
        hmark.released hdopen cfg r.task⟩ hrewind).1
  · rintro d ⟨⟨hd, hl⟩, -⟩ - -
    exact (andThen_keeps (P := fun e => Eases c e ∧ Ledger [] none e)
      ⟨(hd.trans (eases_dropFollowers _ _)).trans (eases_noteFailure _ _ _ _),
        (hl.dropFollowers r.task).outside (outside_noteFailure _ ctxDone _ r)⟩ hrewind).1

theorem Commits.eases {d : Consumer} (h : Commits c d) : Eases c d := by
  obtain ⟨es, m, n, -⟩ := h
  exact .of_parts (fun _ => le_refl _) rfl fun _ => rfl

theorem eases_revokeOne (c : Consumer) (tp : TopicPartition) : Eases c (c.revokeOne tp) := by
  have hdel : Eases c { c with
      parts := c.parts.del tp
      safe := c.safe.del tp
      committed := c.committed.del tp } := by
    refine ⟨fun _ => le_refl _, rfl, ?_⟩
    intro tp' q hq
    simp only [GoMap.get_del] at hq
    split at hq
    · cases hq
    · exact .inr ⟨q, hq, rfl, le_refl _⟩
  exact hdel.trans (eases_dropQueued _ tp none)

theorem eases_onRevoked (c : Consumer) (tps : List TopicPartition) (ok : Bool) :
    Eases c (c.onRevoked tps ok) := by
  have hfold := List.foldlRecOn (motive := Eases c) tps revokeOne
    (commits_commitOffsets c (c.pending (some tps)) ok).eases
    fun d hd tp _ => hd.trans (eases_revokeOne d tp)
  exact hfold.trans (eases_dropBacklog _ tps)

theorem eases_onAssigned (hfresh : ∀ t, c.Holds t → t.gen ≤ c.gen) (tps : List TopicPartition) :
    Eases c (c.onAssigned tps) := by
  have hfold := List.foldlRecOn
    (motive := fun d : Consumer => Eases c d ∧ ∀ t, d.Holds t → t.gen ≤ d.gen)
    tps newPartition ⟨Eases.refl c, hfresh⟩ ?_
  · exact hfold.1
  · rintro d ⟨hd, hdfresh⟩ tp -
    refine ⟨hd.trans ⟨fun _ => le_refl _, rfl, ?_⟩,
      fun t ht => (hdfresh t ht).trans (Nat.le_succ _)⟩
    intro tp' q hq
    simp only [newPartition, GoMap.get_set] at hq
    split at hq
    · cases hq
      left
      refine holding_eq_zero ?_
      intro t ht
      rw [Bool.eq_false_iff]
      intro hof
      have hle := hdfresh t ht
      have heq := (ofAssignment_iff.mp hof).2
      simp only at heq
      omega
    · exact .inr ⟨q, hq, rfl, le_refl _⟩

theorem awaiting_started (hbacklog : c.backlog = t :: rest) (p : Partition) (P : Task → Bool) :
    (c.started t p rest).awaiting P + [t].countP P = c.awaiting P := by
  simp only [awaiting, started, hbacklog, countP_cons, countP_nil]
  omega

theorem eases_started (hbacklog : c.backlog = t :: rest) (hget : c.parts.get t.tp = some p) :
    Eases c (c.started t p rest) := by
  have hset : Eases c (c.setPart t.tp { p with inflight := p.inflight + 1 }) :=
    .setPart hget rfl (le_refl _)
  refine hset.trans (.of_parts ?_ rfl fun _ => rfl)
  intro P
  have hcount := awaiting_started hbacklog p P
  change (c.started t p rest).awaiting P ≤ c.awaiting P
  omega

theorem eases_dispatchOne (h : Ledger [] none c) (hopen : c.workClosed = false)
    (hbacklog : c.backlog = t :: rest)
    (cfg : Config) (ctxDone : Bool) (res : Result) (err : Option Error) (seekOk : Bool) :
    Eases c (c.dispatchOne cfg ctxDone t rest res err seekOk).1 := by
  refine dispatchOne_keeps ?_ ?_ ?_
  · refine .of_parts ?_ rfl fun _ => rfl
    intro P
    unfold awaiting
    rw [hbacklog, countP_cons]
    dsimp only
    omega
  · intro p hp hgen _
    have hlog : Ledger [t] none ((c.started t p rest).logFinished t res) :=
      (h.started hp hgen rest).outside (outside_rest _ _ _ _ _ _ _)
    have heases : Eases c ((c.started t p rest).logFinished t res) :=
      (eases_started hbacklog hp).trans
        (.of_parts (fun _ => le_refl _) rfl fun _ => rfl)
    exact heases.trans
      (eases_complete (r := ⟨t, res, err⟩) hlog hopen cfg ctxDone seekOk)
  · intro p hp _ _
    have hset : Eases c (c.setPart t.tp { p with inflight := p.inflight + 1 }) :=
      .setPart hp rfl (le_refl _)
    have hsend := pooled_send (c := c.started t p rest) hopen t
    obtain ⟨w, qs, heq⟩ := send_frame (c.started t p rest) t
    rw [heq] at hsend ⊢
    refine hset.trans (.of_parts ?_ rfl fun _ => rfl)
    intro P
    have hcount := awaiting_started hbacklog p P
    have hpool := hsend P
    unfold pooled flights at hpool
    change _ ≤ c.awaiting P
    unfold awaiting at hcount ⊢
    dsimp only at hpool ⊢
    omega

end Methods

section Moves

variable {cfg : Config} {c d : Consumer}

/-- The message that is taken is new: everything held of its assignment is below
the next offset. -/
theorem Distinct.accept (h : Distinct c) (cfg : Config) (m : Message) (seekOk : Bool) :
    Distinct (Consumer.accept cfg c m seekOk).1 := by
  have hreach : ∀ p, c.parts.get m.tp = some p → p.next ≤ m.offset →
      Distinct (c.setPart m.tp (p.reach m.offset)) := by
    intro p hp hle
    refine h.eases (.setPart hp rfl ?_)
    change p.next ≤ (m.offset : Int) + 1
    omega
  refine accept_keeps h (fun p hp _ hnext _ => hreach p hp (by omega)) ?_ seekOk
  intro p hp _ hnext _
  have hle : p.next ≤ m.offset := by omega
  have hnew : ∀ P, (taken cfg c m p).holding P
      = c.holding P + [(⟨m, inputOf cfg m, p.gen⟩ : Task)].countP P := by
    intro P
    simp only [taken, holding, pooled, flights, Consumer.setPart, countP_append]
    omega
  refine ⟨?_, ?_⟩
  · intro tp gen offset
    rw [hnew, countP_singleton]
    split
    · next hof =>
      obtain ⟨⟨htp, hgen⟩, hoff⟩ := ofMessage_iff.mp hof
      obtain rfl : m.tp = tp := htp
      obtain rfl : p.gen = gen := hgen
      obtain rfl : m.offset = offset := hoff
      rw [h.below m.tp p hp m.offset hle]
    · exact h.once tp gen offset
  · intro tp q hq offset hqle
    have hold : c.holding (ofMessage tp q.gen offset) = 0 :=
      (hreach p hp hle).below tp q hq offset hqle
    have hof : ofMessage tp q.gen offset ⟨m, inputOf cfg m, p.gen⟩ = false := by
      rw [Bool.eq_false_iff]
      intro hof
      obtain ⟨⟨htp, -⟩, hoff⟩ := ofMessage_iff.mp hof
      obtain rfl : m.tp = tp := htp
      obtain rfl : m.offset = offset := hoff
      have hq' : q = p.reach m.offset := by
        simpa [taken, Consumer.setPart] using hq.symm
      rw [hq'] at hqle
      change (m.offset : Int) + 1 ≤ m.offset at hqle
      omega
    rw [hnew, countP_singleton, hof, hold]
    rfl

theorem Distinct.move (h : Distinct c) (hl : Ledger [] none c) (hc : CommitInv c)
    (hopen : c.workClosed = false) (hmove : Move cfg c d) : Distinct d := by
  cases hmove with
  | stay => exact h
  | recv r rest ctxDone seekOk hresults =>
    -- the received result is no longer held
    have hless : ∀ P, holding { c with results := rest } P ≤ c.holding P := by
      intro P
      rw [holding_eq, holding_eq, hresults, countP_cons]
      exact Nat.add_le_add_left (Nat.le_add_right _ _) _
    have hrecv : Distinct { c with results := rest } := by
      refine ⟨fun tp gen offset => (hless _).trans (h.once tp gen offset), ?_⟩
      intro tp p hp offset hle
      exact Nat.le_zero.mp ((hless _).trans (le_of_eq (h.below tp p hp offset hle)))
    exact hrecv.eases (eases_complete (hl.recv hresults) hopen cfg ctxDone seekOk)
  | tend due ok => exact h.eases (commits_maybeCommit cfg c due ok).eases
  | commit ok => exact h.eases (commits_commit c ok).eases
  | assigned tps hfree =>
    refine h.eases (eases_onAssigned ?_ tps)
    intro x hx
    exact hc.hist_gen _ (hc.tasks x hx) x.gen rfl
  | revoked tps ok => exact h.eases (eases_onRevoked c tps ok)
  | accept m seekOk => exact h.accept cfg m seekOk
  | dispatch x rest ctxDone res err seekOk hbacklog =>
    exact h.eases (eases_dispatchOne hl hopen hbacklog cfg ctxDone res err seekOk)
  | take x rest hwork =>
    refine h.eases (.of_parts ?_ rfl fun _ => rfl)
    intro P
    simp only [awaiting, hwork, countP_cons, countP_append, countP_nil]
    omega
  | finish i x res err hrun =>
    have hsame : ∀ P, holding { c.logFinished x res with
        results := c.results ++ [⟨x, res, err⟩]
        running := c.running.eraseIdx i } P = c.holding P := by
      intro P
      unfold holding
      rw [pooled_finish hrun]
      rfl
    refine ⟨?_, ?_⟩
    · intro tp gen offset
      rw [hsame]
      exact h.once tp gen offset
    · intro tp p hp offset hle
      rw [hsame]
      exact h.below tp p hp offset hle
  | close => exact ⟨h.once, h.below⟩

end Moves

end Consumer

end Kafka
end GoGuard
