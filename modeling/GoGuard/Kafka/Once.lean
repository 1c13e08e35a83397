import GoGuard.Kafka.Busy

/-!
# How often a message runs

A message runs at most once at a time.  A message that finished safely can run
again, though: it is remembered as completed until the frontier passes it, and
after a seek-back the next offset can be behind the frontier.  `Expects` excludes
that: the message the partition waits for is not below its frontier.  Then
whatever has ended is not given to the pipeline again.
-/

namespace GoGuard
namespace Kafka

open Lib Dlq List

namespace Consumer

section Settling

variable {cfg : Config} {c d : Consumer}

/-- The message finished as done, deferred or parked, or was skipped. -/
def Settled (hist : List Event) (tp : TopicPartition) (gen offset : Nat) : Prop :=
  (∃ res : Result, res.safe = true ∧ .finished tp gen offset res ∈ hist) ∨
    .skipped tp gen offset ∈ hist

/-- The event ends a message. -/
def endsMessage : Event → Bool
  | .finished .. => true
  | .skipped .. => true
  | _ => false

variable {hist : List Event} {tp : TopicPartition} {gen offset : Nat} {t : Task}

theorem settled_append {es : List Event} (h : Settled (hist ++ es) tp gen offset)
    (hes : ∀ e ∈ es, endsMessage e = false) : Settled hist tp gen offset := by
  have hold : ∀ e ∈ hist ++ es, endsMessage e = true → e ∈ hist := by
    intro e he hend
    rcases mem_append.mp he with he | he
    · exact he
    · rw [hes e he] at hend
      cases hend
  rcases h with ⟨res, hsafe, hfin⟩ | hskip
  · exact .inl ⟨res, hsafe, hold _ hfin rfl⟩
  · exact .inr (hold _ hskip rfl)

theorem settled_snoc {e : Event} {tp' : TopicPartition} {gen' offset' : Nat}
    (h : Settled (hist ++ [e]) tp gen offset)
    (he : (∃ res, e = .finished tp' gen' offset' res) ∨ e = .skipped tp' gen' offset') :
    Settled hist tp gen offset ∨ tp' = tp ∧ gen' = gen ∧ offset' = offset := by
  rcases h with ⟨res, hsafe, hfin⟩ | hskip
  · rcases mem_append.mp hfin with hfin | hfin
    · exact .inl (.inl ⟨res, hsafe, hfin⟩)
    · have heq := mem_singleton.mp hfin
      rcases he with ⟨res', he⟩ | he
      · rw [he] at heq
        cases heq
        exact .inr ⟨rfl, rfl, rfl⟩
      · rw [he] at heq
        cases heq
  · rcases mem_append.mp hskip with hskip | hskip
    · exact .inl (.inr hskip)
    · have heq := mem_singleton.mp hskip
      rcases he with ⟨res', he⟩ | he
      · rw [he] at heq
        cases heq
      · rw [he] at heq
        cases heq
        exact .inr ⟨rfl, rfl, rfl⟩

theorem hist_complete
    (cfg : Config) (c : Consumer) (ctxDone : Bool) (r : TaskResult) (seekOk : Bool) :
    (complete cfg c ctxDone r seekOk).1.hist = c.hist ∨
      (complete cfg c ctxDone r seekOk).1.hist
        = c.hist ++ [.skipped r.task.tp r.task.gen r.task.m.offset] := by
  have hrewind : ∀ d : Consumer, (d.rewindIfDrained r.task.tp seekOk).1.hist = d.hist :=
    fun d => rewindIfDrained_keeps (P := fun e => e.hist = d.hist) rfl rfl (fun _ _ _ _ => rfl) seekOk
  refine complete_keeps
    (P := fun d => d.hist = c.hist ∨
      d.hist = c.hist ++ [.skipped r.task.tp r.task.gen r.task.m.offset])
    (Q := fun x => x.1.hist = c.hist ∨
      x.1.hist = c.hist ++ [.skipped r.task.tp r.task.gen r.task.m.offset])
    (fun _ => .inl rfl) (fun _ _ _ => .inl rfl) (fun _ hd _ _ => hd) ?_ ?_ ?_
  · intro d _ hsame
    exact .inr (congrArg (· ++ _) hsame)
  · intro d p hd _ _ _
    have hsame : (finishSafe cfg d p r.task seekOk).1.hist = d.hist :=
      andThen_keeps (P := fun e => e.hist = d.hist) (quiet_released cfg _ _).hist
        fun e he => (hrewind e).trans he
    rw [hsame]
    exact hd
  · intro d hd _ _
    have hsame : (d.finishFailed ctxDone r seekOk).1.hist = d.hist :=
      andThen_keeps (P := fun e => e.hist = d.hist)
        ((quiet_noteFailure _ _ _ _).hist.trans (quiet_dropFollowers _ _).hist)
        fun e he => (hrewind e).trans he
    rw [hsame]
    exact hd

theorem Commits.ends (h : Commits c d) :
    ∃ es, d.hist = c.hist ++ es ∧ ∀ e ∈ es, endsMessage e = false := by
  obtain ⟨es, m, n, hes⟩ := h
  refine ⟨es, rfl, ?_⟩
  intro e he
  obtain ⟨tp, gen, o, ok, rfl⟩ := hes e he
  rfl

theorem hist_onRevoked (c : Consumer) (tps : List TopicPartition) (ok : Bool) :
    (c.onRevoked tps ok).hist = (c.commitOffsets (c.pending (some tps)) ok).1.hist := by
  have hfold := List.foldlRecOn tps revokeOne
    (motive := fun d : Consumer =>
      d.hist = (c.commitOffsets (c.pending (some tps)) ok).1.hist)
    rfl fun d hd tp _ => (quiet_dropQueued _ tp none).hist.trans hd
  exact hfold

/-- No message that has ended waits to be run. -/
def Unsettled (c : Consumer) : Prop :=
  ∀ tp gen offset, Settled c.hist tp gen offset → c.awaiting (ofMessage tp gen offset) = 0

theorem Unsettled.keep (h : Unsettled c) (hawaiting : ∀ P, d.awaiting P ≤ c.awaiting P)
    (hhist : ∃ es, d.hist = c.hist ++ es ∧ ∀ e ∈ es, endsMessage e = false) : Unsettled d := by
  obtain ⟨es, heq, hes⟩ := hhist
  intro tp gen offset hset
  rw [heq] at hset
  exact Nat.le_zero.mp
    ((hawaiting _).trans (le_of_eq (h tp gen offset (settled_append hset hes))))

theorem Unsettled.end (h : Unsettled c) (hawaiting : ∀ P, d.awaiting P ≤ c.awaiting P)
    (hself : d.awaiting (ofMessage t.tp t.gen t.m.offset) = 0)
    (hhist : ∀ tp gen offset, Settled d.hist tp gen offset →
      Settled c.hist tp gen offset ∨ t.tp = tp ∧ t.gen = gen ∧ t.m.offset = offset) :
    Unsettled d := by
  intro tp gen offset hset
  rcases hhist tp gen offset hset with hold | ⟨rfl, rfl, rfl⟩
  · exact Nat.le_zero.mp ((hawaiting _).trans (le_of_eq (h tp gen offset hold)))
  · exact hself

theorem awaiting_of_result {r : TaskResult} {rest : List TaskResult} (h : Distinct c)
    (hresults : c.results = r :: rest) :
    c.awaiting (ofMessage r.task.tp r.task.gen r.task.m.offset) = 0 := by
  have honce := h.once r.task.tp r.task.gen r.task.m.offset
  have hof : ofMessage r.task.tp r.task.gen r.task.m.offset r.task = true :=
    ofMessage_iff.mpr ⟨⟨rfl, rfl⟩, rfl⟩
  rw [holding_eq, hresults, countP_cons, hof] at honce
  simp only [if_true] at honce
  omega

/-- The message that is taken has not ended: what has ended is below the frontier,
remembered above it, or has its result in the channel. -/
theorem not_settled_of_next {p : Partition} (ha : AppliedInv noHole c) (hc : CommitInv c)
    (hd : Distinct c) (hget : c.parts.get tp = some p)
    (hnext : p.next < 0 ∨ (offset : Int) = p.next) (hopen : 0 ≤ p.next → p.frontier ≤ offset)
    (hdone : (offset : Int) ∉ p.completed) : ¬ Settled c.hist tp p.gen offset := by
  have hcore : c.coreOf tp = some p.core := by simp [coreOf, hget]
  intro hset
  have hacc : .accepted tp p.core.gen offset ∈ c.hist := by
    rcases hset with ⟨res, -, hfin⟩ | hskip
    · exact ha.finished tp p.gen offset res hfin
    · exact ha.skipped tp p.gen offset hskip
  -- something was accepted, so the next offset is not negative
  obtain ⟨f, hstarted⟩ := (hc.part tp p.core hcore).started hacc
  have hpos : 0 ≤ p.next := hstarted.next
  have hnot : ¬ Core.Has p.core offset := by
    rintro (hlt | hmem)
    · have hle := hopen hpos
      change (offset : Int) < p.frontier at hlt
      omega
    · exact hdone hmem
  have hle : p.next ≤ offset := by omega
  rcases hset with ⟨res, hsafe, hfin⟩ | hskip
  · rcases ha.applied tp p.core hcore offset res hsafe hfin with hhas | ⟨r, hr, hof⟩ | hno
    · exact hnot hhas
    · have hzero := hd.below tp p hget offset hle
      have hpos := holding_pos (P := ofMessage tp p.gen offset)
        (.inr (.inr (.inr (.inl ⟨r, hr, rfl⟩))))
        (ofMessage_iff.mpr ⟨⟨hof.2.1, hof.2.2.1⟩, hof.2.2.2⟩)
      omega
    · exact hno
  · rcases ha.passed tp p.core hcore offset hskip with hhas | hno
    · exact hnot hhas
    · exact hno

theorem Unsettled.accept (h : Unsettled c) (ha : AppliedInv noHole c) (hc : CommitInv c)
    (hd : Distinct c) (m : Message) (seekOk : Bool)
    (hopen : ∀ p, c.parts.get m.tp = some p → p.failedAt < 0 → 0 ≤ p.next →
      (m.offset : Int) = p.next → p.frontier ≤ m.offset) :
    Unsettled (Consumer.accept cfg c m seekOk).1 := by
  refine accept_keeps h (fun _ _ _ _ _ => h) ?_ seekOk
  intro p hp hfailed hnext hdone tp gen offset hset
  have hold : Settled c.hist tp gen offset := by
    have htaken : Settled (c.hist ++ [.accepted m.tp p.gen m.offset]) tp gen offset := hset
    refine settled_append htaken ?_
    intro e he
    obtain rfl := mem_singleton.mp he
    rfl
  have hnew : (taken cfg c m p).awaiting (ofMessage tp gen offset)
      = c.awaiting (ofMessage tp gen offset)
        + [(⟨m, inputOf cfg m, p.gen⟩ : Task)].countP (ofMessage tp gen offset) := by
    simp only [taken, awaiting, Consumer.setPart, countP_append]
    omega
  rw [hnew, h tp gen offset hold, countP_singleton, if_neg]
  intro hof
  obtain ⟨⟨htp, hgen⟩, hoff⟩ := ofMessage_iff.mp hof
  obtain rfl : m.tp = tp := htp
  obtain rfl : p.gen = gen := hgen
  obtain rfl : m.offset = offset := hoff
  refine not_settled_of_next ha hc hd hp hnext ?_ hdone hold
  intro hpos
  exact hopen p hp hfailed hpos (by omega)

theorem Unsettled.dispatchOne {rest : List Task} (h : Unsettled c) (hl : Ledger [] none c)
    (hd : Distinct c) (hopen : c.workClosed = false) (hbacklog : c.backlog = t :: rest)
    (ctxDone : Bool) (res : Result) (err : Option Error) (seekOk : Bool) :
    Unsettled (c.dispatchOne cfg ctxDone t rest res err seekOk).1 := by
  have heases := eases_dispatchOne hl hopen hbacklog cfg ctxDone res err seekOk
  revert heases
  unfold Consumer.dispatchOne
  split
  · intro heases
    exact h.keep heases.awaiting ⟨[], (append_nil _).symm, fun _ hno => nomatch hno⟩
  · next p hp =>
    split
    · intro heases
      exact h.keep heases.awaiting ⟨[], (append_nil _).symm, fun _ hno => nomatch hno⟩
    · next hgo =>
      have hgen : p.gen = t.gen := by
        by_contra hne
        exact hgo (.inl hne)
      split
      · intro heases
        have hlog : Ledger [t] none ((c.started t p rest).logFinished t res) :=
          (hl.started hp hgen rest).outside (outside_rest _ _ _ _ _ _ _)
        have hdone := eases_complete (r := ⟨t, res, err⟩) hlog hopen cfg ctxDone seekOk
        have hcount := awaiting_started hbacklog p (ofMessage t.tp t.gen t.m.offset)
        have honce := hd.once t.tp t.gen t.m.offset
        have hof : ofMessage t.tp t.gen t.m.offset t = true :=
          ofMessage_iff.mpr ⟨⟨rfl, rfl⟩, rfl⟩
        rw [countP_singleton, hof] at hcount
        rw [holding_eq] at honce
        simp only [if_true] at hcount
        have hless := hdone.awaiting (ofMessage t.tp t.gen t.m.offset)
        change _ ≤ (c.started t p rest).awaiting _ at hless
        refine h.end (t := t) heases.awaiting (by omega) ?_
        intro tp gen offset hset
        have hmid : Settled ((c.started t p rest).logFinished t res).hist tp gen offset ∨
            t.tp = tp ∧ t.gen = gen ∧ t.m.offset = offset := by
          rcases hist_complete cfg ((c.started t p rest).logFinished t res) ctxDone
            ⟨t, res, err⟩ seekOk with heq | heq
          · rw [heq] at hset
            exact .inl hset
          · rw [heq] at hset
            exact settled_snoc hset (.inr rfl)
        rcases hmid with hmid | hself
        · exact settled_snoc hmid (.inl ⟨res, rfl⟩)
        · exact .inr hself
      · intro heases
        obtain ⟨w, qs, heq⟩ := send_frame (c.started t p rest) t
        rw [heq] at heases ⊢
        exact h.keep heases.awaiting ⟨[], (append_nil _).symm, fun _ hno => nomatch hno⟩

end Settling

end Consumer

section Runs

open Consumer

variable {cfg : Config} {s t : Sys} {a : Act}

/-- The messages given to the pipeline while an action takes place: those of the
workers, and without a pool the one `dispatchBacklog` runs itself. -/
def executing (cfg : Config) (s : Sys) : Act → List Task
  | .dispatch _ _ _ =>
    match s.c.backlog with
    | [] => s.c.running
    | x :: _ =>
      match s.c.parts.get x.tp with
      | none => s.c.running
      | some p =>
        if p.gen = x.gen ∧ p.failedAt < 0 ∧ cfg.workers ≤ 1 then x :: s.c.running
        else s.c.running
  | _ => s.c.running

/-- The message the partition waits for is not below its frontier. -/
def Expects (s : Sys) : Act → Prop
  | .pollMessage m _ =>
    ∀ p ∈ s.c.parts.get m.tp, p.failedAt < 0 → 0 ≤ p.next → (m.offset : Int) = p.next →
      p.frontier ≤ m.offset
  | _ => True

instance (s : Sys) (a : Act) : Decidable (Expects s a) := by
  unfold Expects
  split <;> infer_instance

/-- What holds of the messages along every run. -/
structure OnceInv (cfg : Config) (s : Sys) : Prop where
  accounted : Accounted cfg s
  applied : AppliedInv noHole s.c
  noPool : cfg.workers ≤ 1 → NoPool s.c
  distinct : s.c.stopping = false → Distinct s.c
  busy : s.c.stopping = false → 1 < cfg.workers → Busy [] s.c

theorem onceInv_init : OnceInv cfg Sys.init := by
  have hzero : ∀ P, Consumer.new.holding P = 0 := fun _ => rfl
  refine ⟨accounted_init, appliedInv_new, fun _ => ⟨rfl, rfl, rfl⟩, ?_, ?_⟩
  · intro _
    refine ⟨fun tp gen offset => le_of_eq_of_le (hzero _) (Nat.zero_le _), ?_⟩
    intro tp p hp
    simp [Sys.init, Consumer.new] at hp
  · intro _ _ k gen _ hk
    simp [Sys.init, Consumer.new, genOf] at hk

theorem OnceInv.step (h : OnceInv cfg s) (hstep : step cfg s a = some t) : OnceInv cfg t := by
  have hmove := move_of_step hstep
  obtain ⟨-, hback⟩ := closed_move h.accounted.closed hmove
  have hopen : t.c.stopping = false → s.c.workClosed = false :=
    fun hup => h.accounted.closed.trans (hback hup)
  refine ⟨h.accounted.step hstep, appliedInv_move h.applied h.accounted.commit hmove,
    fun hw => (h.noPool hw).move hw hmove, ?_, ?_⟩
  · intro hup
    exact (h.distinct (hback hup)).move (h.accounted.ledger (hback hup))
      h.accounted.commit (hopen hup) hmove
  · intro hup hw
    exact (h.busy (hback hup) hw).move (h.accounted.ledger (hback hup))
      h.accounted.commit hw (hopen hup) hmove

/-- A message that has ended does not wait to be run, as long as each partition
waits for a message at or above its frontier. -/
theorem unsettled_step (h : OnceInv cfg s) (hu : s.c.stopping = false → Unsettled s.c)
    (hexp : Expects s a) (hstep : step cfg s a = some t) (hup : t.c.stopping = false) :
    Unsettled t.c := by
  have hback := (closed_move h.accounted.closed (move_of_step hstep)).2 hup
  have hopen : s.c.workClosed = false := h.accounted.closed.trans hback
  have hl := h.accounted.ledger hback
  have hd := h.distinct hback
  have hold := hu hback
  have hsame : ∃ es, s.c.hist = s.c.hist ++ es ∧ ∀ e ∈ es, endsMessage e = false :=
    ⟨[], (append_nil _).symm, fun _ hno => nomatch hno⟩
  have hturn := turn_of_step hstep
  generalize t.c = d at hturn ⊢
  cases hturn with
  | stay => exact hold
  | recv r rest seekOk hresults =>
    have hself := awaiting_of_result hd hresults
    have heases := eases_complete (hl.recv hresults) hopen cfg s.ctxDone seekOk
    refine hold.end (t := r.task) heases.awaiting ?_ ?_
    · exact Nat.le_zero.mp ((heases.awaiting _).trans (le_of_eq hself))
    · intro tp gen offset hset
      rcases hist_complete cfg { s.c with results := rest } s.ctxDone r seekOk
        with heq | heq
      · rw [heq] at hset
        exact .inl hset
      · rw [heq] at hset
        exact settled_snoc hset (.inr rfl)
  | tend due ok _ =>
    have hcommits := commits_maybeCommit cfg s.c due ok
    exact hold.keep hcommits.eases.awaiting hcommits.ends
  | commit ok _ =>
    have hcommits := commits_commit s.c ok
    exact hold.keep hcommits.eases.awaiting hcommits.ends
  | assigned tps hfree =>
    have hhist : (s.c.onAssigned tps).hist = s.c.hist :=
      List.foldlRecOn (motive := fun d : Consumer => d.hist = s.c.hist) tps newPartition
        rfl fun _ hd _ _ => hd
    refine hold.keep (eases_onAssigned ?_ tps).awaiting (hhist ▸ hsame)
    intro x hx
    exact h.accounted.commit.hist_gen _ (h.accounted.commit.tasks x hx) x.gen rfl
  | revoked tps ok =>
    refine hold.keep (eases_onRevoked s.c tps ok).awaiting ?_
    rw [hist_onRevoked]
    exact (commits_commitOffsets s.c _ ok).ends
  | accept m seekOk =>
    exact hold.accept h.applied h.accounted.commit hd m seekOk
      fun p hp => hexp p hp
  | dispatch x rest res err seekOk hbacklog hroom =>
    exact hold.dispatchOne hl hd hopen hbacklog s.ctxDone res err seekOk
  | take x rest hwork =>
    refine hold.keep ?_ hsame
    intro P
    simp only [awaiting, hwork, countP_cons, countP_append, countP_nil]
    omega
  | finish i x res err hrun =>
    have herase := countP_eraseIdx hrun
    refine hold.end (t := x) ?_ ?_ ?_
    · intro P
      have hcount := herase P
      simp only [awaiting, logFinished]
      omega
    · have hof : ofMessage x.tp x.gen x.m.offset x = true :=
        ofMessage_iff.mpr ⟨⟨rfl, rfl⟩, rfl⟩
      have hcount := herase (ofMessage x.tp x.gen x.m.offset)
      have honce := hd.once x.tp x.gen x.m.offset
      rw [countP_singleton, hof] at hcount
      rw [holding_eq] at honce
      simp only [if_true] at hcount
      simp only [awaiting] at honce
      simp only [awaiting, logFinished]
      omega
    · intro tp gen offset hset
      exact settled_snoc hset (.inl ⟨res, rfl⟩)
  | close => exact hold

theorem onceInv_run {acts : List Act} (hrun : run (step cfg) Sys.init acts = some s) :
    OnceInv cfg s :=
  run_invariant (step cfg) (I := OnceInv cfg) (fun _ _ _ h hs => h.step hs)
    onceInv_init hrun

theorem unsettled_run {acts : List Act} (hrun : run (step cfg) Sys.init acts = some s)
    (hexp : RunAll (step cfg) Expects Sys.init acts) (hup : s.c.stopping = false) :
    Unsettled s.c := by
  have hinv := run_invariant_of (step cfg)
    (I := fun s => OnceInv cfg s ∧ (s.c.stopping = false → Unsettled s.c))
    (fun _ _ _ hok h hs => ⟨h.1.step hs, unsettled_step h.1 h.2 hok hs⟩)
    hexp ⟨onceInv_init, fun _ tp gen offset _ => rfl⟩ hrun
  exact hinv.2 hup

/-- What is executing is with a worker, or without a pool at the head of the
backlog with nothing else running. -/
theorem executing_cases (h : OnceInv cfg s) (a : Act) :
    executing cfg s a = s.c.running ∨
      ∃ x rest, s.c.backlog = x :: rest ∧ executing cfg s a = [x] := by
  unfold executing
  split
  · split
    · exact .inl rfl
    · next x rest hbacklog =>
      split
      · exact .inl rfl
      · split
        · next hgo =>
          rw [(h.noPool hgo.2.2).running]
          exact .inr ⟨x, rest, hbacklog, rfl⟩
        · exact .inl rfl
  · exact .inl rfl

/-- At any moment before the shutdown at most one message per partition and
non-empty key of the current assignment is executing, and no offset of an
assignment is executing twice.  A message that finished as done, deferred or
parked or was skipped is not given to the pipeline again in its assignment, in
every run in which each partition waits for a message at or above its frontier
whenever one is accepted. -/
theorem message_runs_once_at_a_time {acts : List Act} (hrun : run (step cfg) Sys.init acts = some s)
    (hup : s.c.stopping = false) (a : Act) :
    (∀ k gen, k.key ≠ [] → s.c.genOf k.tp = some gen →
      (executing cfg s a).countP (ofKey k gen) ≤ 1) ∧
    (∀ tp gen offset, (executing cfg s a).countP (ofMessage tp gen offset) ≤ 1) ∧
    (RunAll (step cfg) Expects Sys.init acts → ∀ x ∈ executing cfg s a,
      ¬ Settled s.c.hist x.tp x.gen x.m.offset) := by
  have h := onceInv_run hrun
  have hone : ∀ (x : Task) (P : Task → Bool), [x].countP P ≤ 1 := by
    intro x P
    rw [countP_singleton]
    split <;> omega
  have hcases := executing_cases h a
  refine ⟨?_, ?_, ?_⟩
  · intro k gen hkey hk
    rcases hcases with heq | ⟨x, rest, -, heq⟩
    · rw [heq]
      by_cases hw : 1 < cfg.workers
      · have hle := h.busy hup hw k gen hkey hk
        have hbound : (if (s.c.keyQueues.get k).isSome = true then 1 else 0) ≤ 1 := by
          split <;> omega
        unfold flights at hle
        omega
      · rw [(h.noPool (by omega)).running, countP_nil]
        omega
    · rw [heq]
      exact hone x _
  · intro tp gen offset
    rcases hcases with heq | ⟨x, rest, -, heq⟩
    · rw [heq]
      have honce := (h.distinct hup).once tp gen offset
      unfold holding pooled flights at honce
      omega
    · rw [heq]
      exact hone x _
  · intro hexp x hx hset
    have hzero := unsettled_run hrun hexp hup x.tp x.gen x.m.offset hset
    have hof : ofMessage x.tp x.gen x.m.offset x = true :=
      ofMessage_iff.mpr ⟨⟨rfl, rfl⟩, rfl⟩
    unfold awaiting at hzero
    rcases hcases with heq | ⟨y, rest, hbacklog, heq⟩
    · rw [heq] at hx
      have hpos : 0 < s.c.running.countP (ofMessage x.tp x.gen x.m.offset) :=
        countP_pos_iff.mpr ⟨x, hx, hof⟩
      omega
    · rw [heq] at hx
      obtain rfl := mem_singleton.mp hx
      have hpos : 0 < s.c.backlog.countP (ofMessage x.tp x.gen x.m.offset) :=
        countP_pos_iff.mpr ⟨x, hbacklog ▸ mem_cons_self, hof⟩
      omega

end Runs

section Example

open Consumer

/-- The second of two messages is done, the first one fails, and the partition is
pointed back at it. -/
def demoSeekBack : List Act :=
  demoStart "a" "b" ++
    [.take, .finish 1 .done none, .finish 0 .failed none, .enterLoop, .recv true,
      .recv true, .drained, .tend false true false]

/-- The first message is delivered again and starts. -/
def demoRedelivery : List Act :=
  demoSeekBack ++
    [.pollMessage (demoMessage 5 "a") true, .dispatch .failed none true, .dispatched, .take]

/-- After the seek-back only the failed message runs again. -/
theorem message_runs_once_at_a_time_demo :
    ∃ s, run (step demoConfig) Sys.init demoRedelivery = some s ∧
      (s.c.running.map fun x => x.m.offset) = [5] ∧
      (executing demoConfig s .take).countP (ofMessage demoPartition 1 5) ≤ 1 ∧
      ∀ x ∈ executing demoConfig s .take,
        ¬ Settled s.c.hist x.tp x.gen x.m.offset := by
  obtain ⟨s, hs, hup, hrunning⟩ : ∃ s, run (step demoConfig) Sys.init demoRedelivery = some s ∧
      s.c.stopping = false ∧ (s.c.running.map fun x => x.m.offset) = [5] := by
    decide
  obtain ⟨-, honce, hnot⟩ := message_runs_once_at_a_time hs hup .take
  exact ⟨s, hs, hrunning, honce demoPartition 1 5, hnot (by decide)⟩

/-- The first message finishes before the second one is delivered again. -/
def demoRerun : List Act :=
  demoRedelivery ++
    [.finish 0 .done none, .enterLoop, .recv true, .drained, .tend false true false,
      .pollMessage (demoMessage 6 "b") true, .dispatch .failed none true, .dispatched, .take]

/-- The frontier has passed the second message and forgotten it, the partition
still waits for it, and it runs again although it is done. -/
theorem done_message_runs_again :
    ∃ s x, run (step demoConfig) Sys.init demoRerun = some s ∧ s.c.stopping = false ∧
      s.c.running = [x] ∧ x.tp = demoPartition ∧ x.gen = 1 ∧ x.m.offset = 6 ∧
      Settled s.c.hist demoPartition 1 6 := by
  obtain ⟨s, hs, hup, hrunning, hfin⟩ : ∃ s, run (step demoConfig) Sys.init demoRerun = some s ∧
      s.c.stopping = false ∧
        (s.c.running.map fun x => (x.tp, x.gen, x.m.offset)) = [(demoPartition, 1, 6)] ∧
          .finished demoPartition 1 6 .done ∈ s.c.hist := by
    decide
  obtain ⟨x, hx, hval⟩ := map_eq_singleton_iff.mp hrunning
  simp only [Prod.mk.injEq] at hval
  exact ⟨s, x, hs, hup, hx, hval.1, hval.2.1, hval.2.2, .inl ⟨.done, rfl, hfin⟩⟩

end Example

end Kafka
end GoGuard
