import GoGuard.Kafka.Run

/-!
# What each consumer method changes

The methods of the consumer that move tasks between queues and count them leave
alone everything the commit point is computed from.  `Quiet` says so once: the
history, the safe offsets and the results are the same, every partition is the
same up to its counters (`inflight`, `failedAt`), and no task appears that was
not held before.  `Turn` says what each action of the system does to the consumer
and when it is enabled, and `Move` forgets which action it was, so that an
invariant of the consumer is checked once per method.
-/

namespace GoGuard
namespace Kafka

open Lib Dlq List

/-- The fields of a partition the commit point is computed from. -/
structure Core where
  gen : Nat
  next : Int
  frontier : Int
  completed : Finset Int
deriving DecidableEq

def Partition.core (p : Partition) : Core :=
  ⟨p.gen, p.next, p.frontier, p.completed⟩

namespace Consumer

/-- The task is in the backlog, in a channel, in line behind its key or with a
worker. -/
def Holds (c : Consumer) (t : Task) : Prop :=
  t ∈ c.backlog ∨ t ∈ c.work ∨ (∃ k q, c.keyQueues.get k = some q ∧ t ∈ q) ∨
    (∃ r ∈ c.results, r.task = t) ∨ t ∈ c.running

/-- The core of an assigned partition. -/
def coreOf (c : Consumer) (tp : TopicPartition) : Option Core :=
  (c.parts.get tp).map Partition.core

/-- Nothing the commit point depends on differs between `c` and `d`. -/
structure Quiet (c d : Consumer) : Prop where
  hist : d.hist = c.hist
  safe : d.safe = c.safe
  gen : d.gen = c.gen
  committed : d.committed = c.committed
  results : d.results = c.results
  stopping : d.stopping = c.stopping
  core : ∀ tp, d.coreOf tp = c.coreOf tp
  holds : ∀ t, d.Holds t → c.Holds t

theorem Quiet.refl (c : Consumer) : Quiet c c :=
  ⟨rfl, rfl, rfl, rfl, rfl, rfl, fun _ => rfl, fun _ h => h⟩

theorem Quiet.trans {c d e : Consumer} (h₁ : Quiet c d) (h₂ : Quiet d e) : Quiet c e :=
  ⟨h₂.hist.trans h₁.hist, h₂.safe.trans h₁.safe, h₂.gen.trans h₁.gen,
    h₂.committed.trans h₁.committed, h₂.results.trans h₁.results, h₂.stopping.trans h₁.stopping,
    fun tp => (h₂.core tp).trans (h₁.core tp),
    fun t ht => h₁.holds t (h₂.holds t ht)⟩

section Counters

variable {c : Consumer} {tp : TopicPartition} {p q : Partition}

theorem coreOf_setPart_same (hget : c.parts.get tp = some p) (hcore : q.core = p.core)
    (tp' : TopicPartition) : (c.setPart tp q).coreOf tp' = c.coreOf tp' := by
  unfold coreOf setPart
  rw [GoMap.get_set]
  split
  · next h =>
    subst h
    simp [hget, hcore]
  · rfl

theorem quiet_setPart (hget : c.parts.get tp = some p) (hcore : q.core = p.core) :
    Quiet c (c.setPart tp q) :=
  ⟨rfl, rfl, rfl, rfl, rfl, rfl, coreOf_setPart_same hget hcore, fun _ h => h⟩

theorem quiet_inflight (c : Consumer) (n : Int) : Quiet c { c with inflight := n } :=
  ⟨rfl, rfl, rfl, rfl, rfl, rfl, fun _ => rfl, fun _ h => h⟩

end Counters

section Queues

theorem Holds.lines {c : Consumer} {t : Task} {qs : GoMap FailedKey (List Task)}
    (h : Holds { c with keyQueues := qs } t)
    (hline : ∀ k q, qs.get k = some q → t ∈ q → c.Holds t) : c.Holds t := by
  rcases h with h | h | ⟨k, q, hq, ht⟩ | h
  · exact .inl h
  · exact .inr (.inl h)
  · exact hline k q hq ht
  · exact .inr (.inr (.inr h))

theorem Holds.sent {c : Consumer} {t x : Task} (h : Holds { c with work := c.work ++ [t] } x) :
    c.Holds x ∨ x = t := by
  rcases h with h | h | h
  · exact .inl (.inl h)
  · rcases mem_append.mp h with h | h
    · exact .inl (.inr (.inl h))
    · exact .inr (mem_singleton.mp h)
  · exact .inl (.inr (.inr h))

theorem quiet_del_key (c : Consumer) (k : FailedKey) :
    Quiet c { c with keyQueues := c.keyQueues.del k } := by
  refine ⟨rfl, rfl, rfl, rfl, rfl, rfl, fun _ => rfl, ?_⟩
  intro t ht
  refine ht.lines fun k' q hq hmem => ?_
  rw [GoMap.get_del] at hq
  split at hq
  · cases hq
  · exact .inr (.inr (.inl ⟨k', q, hq, hmem⟩))

theorem quiet_set_key {c : Consumer} {k : FailedKey} {q : List Task}
    (hq : ∀ t ∈ q, t ∈ (c.keyQueues.get k).getD []) :
    Quiet c { c with keyQueues := c.keyQueues.set k q } := by
  refine ⟨rfl, rfl, rfl, rfl, rfl, rfl, fun _ => rfl, ?_⟩
  intro t ht
  refine ht.lines fun k' q' hq' hmem => ?_
  rw [GoMap.get_set] at hq'
  split at hq'
  · cases hq'
    cases hold : c.keyQueues.get k with
    | none => simp [hold] at hq; exact absurd hmem (hq t)
    | some old =>
      simp only [hold, Option.getD_some] at hq
      exact .inr (.inr (.inl ⟨k, old, hold, hq t hmem⟩))
  · exact .inr (.inr (.inl ⟨k', q', hq', hmem⟩))

theorem quiet_dropKey (c : Consumer) (tp : TopicPartition) (keep : Bool) (k : FailedKey) :
    Quiet c (dropKey tp keep c k) := by
  refine ⟨rfl, rfl, rfl, rfl, rfl, rfl, ?_, ?_⟩
  · intro tp'
    unfold coreOf dropKey
    cases hp : c.parts.get tp with
    | none => rfl
    | some p =>
      simp only [GoMap.get_set]
      split
      · next h =>
        subst h
        simp [hp, Partition.core]
      · rfl
  · intro t ht
    cases keep with
    | true =>
      refine (quiet_set_key (c := c) (k := k) (q := []) (by simp)).holds t ?_
      exact ht
    | false => exact (quiet_del_key c k).holds t ht

theorem quiet_dropQueued (c : Consumer) (tp : TopicPartition) (only : Option Bytes) :
    Quiet c (c.dropQueued tp only) :=
  List.foldlRecOn _ _ (Quiet.refl c)
    fun d hd k _ => hd.trans (quiet_dropKey d tp only.isSome k)

theorem quiet_dropFollowers (c : Consumer) (t : Task) : Quiet c (c.dropFollowers t) := by
  unfold dropFollowers
  split
  · exact Quiet.refl c
  · exact (quiet_dropQueued c _ _).trans (quiet_del_key _ _)

theorem pushWork_open {c : Consumer} (hopen : c.workClosed = false) (t : Task) :
    c.pushWork t = ({ c with work := c.work ++ [t] }, .ok) :=
  if_neg (by simp [hopen])

/-- A key with a message in line has a line. -/
theorem line_of_getD {c : Consumer} {k : FailedKey} {t : Task} {q : List Task}
    (hq : (c.keyQueues.get k).getD [] = t :: q) : c.keyQueues.get k = some (t :: q) := by
  cases hget : c.keyQueues.get k with
  | none => simp [hget] at hq
  | some old => simpa [hget] using hq

theorem quiet_released (cfg : Config) (c : Consumer) (t : Task) : Quiet c (released cfg c t).1 := by
  unfold released
  split
  · exact Quiet.refl c
  · split
    · exact quiet_del_key c _
    · next next q hq =>
      have hset : Quiet c { c with keyQueues := c.keyQueues.set (keyOf t) q } := by
        refine quiet_set_key ?_
        intro x hx
        rw [hq]
        exact mem_cons_of_mem _ hx
      unfold pushWork
      split
      · exact hset
      · refine ⟨rfl, rfl, rfl, rfl, rfl, rfl, fun _ => rfl, ?_⟩
        -- the task moves from its line to the channel
        intro x hx
        rcases Holds.sent hx with hx | rfl
        · exact hset.holds x hx
        · exact .inr (.inr (.inl ⟨keyOf t, _, line_of_getD hq, mem_cons_self⟩))

theorem noteFailure_keeps {P : Consumer → Prop} {c : Consumer} {tp : TopicPartition} {r : TaskResult}
    (h : P c) (hset : ∀ p, c.parts.get tp = some p →
      P (c.setPart tp { p with failedAt := r.task.m.offset })) (ctxDone : Bool) :
    P (c.noteFailure ctxDone tp r).1 := by
  unfold noteFailure
  split
  · exact h
  · split
    · exact h
    · split
      · exact h
      · next p hp =>
        split
        · exact hset p hp
        · exact h

theorem quiet_noteFailure (c : Consumer) (ctxDone : Bool) (tp : TopicPartition) (r : TaskResult) :
    Quiet c (c.noteFailure ctxDone tp r).1 :=
  noteFailure_keeps (Quiet.refl c) (fun _ hp => quiet_setPart hp rfl) ctxDone

theorem holds_send {c : Consumer} {t x : Task} (h : (c.send t).1.Holds x) : c.Holds x ∨ x = t := by
  have hpush : ∀ {d : Consumer}, (d.pushWork t).1.Holds x → d.Holds x ∨ x = t := by
    intro d hd
    unfold pushWork at hd
    split at hd
    · exact .inl hd
    · exact hd.sent
  unfold send at h
  split at h
  · exact hpush h
  · split at h
    · next q hq =>
      refine or_iff_not_imp_right.mpr fun hne => h.lines fun k q' hq' hx => ?_
      rw [GoMap.get_set] at hq'
      split at hq'
      · cases hq'
        refine .inr (.inr (.inl ⟨keyOf t, q, hq, (mem_append.mp hx).resolve_right fun hx => ?_⟩))
        exact hne (mem_singleton.mp hx)
      · exact .inr (.inr (.inl ⟨k, q', hq', hx⟩))
    · rcases hpush h with h | h
      · exact .inl ((quiet_set_key (by simp)).holds x h)
      · exact .inr h

theorem send_frame (c : Consumer) (t : Task) :
    ∃ w qs, (c.send t).1 = { c with work := w, keyQueues := qs } := by
  unfold send pushWork
  split
  · split
    · exact ⟨_, _, rfl⟩
    · exact ⟨_, _, rfl⟩
  · split
    · exact ⟨_, _, rfl⟩
    · split
      · exact ⟨_, _, rfl⟩
      · exact ⟨_, _, rfl⟩

theorem released_frame (cfg : Config) (c : Consumer) (t : Task) :
    ∃ w qs, (released cfg c t).1 = { c with work := w, keyQueues := qs } ∧
      (c.workClosed = true → w = c.work) := by
  unfold released pushWork
  split
  · exact ⟨_, _, rfl, fun _ => rfl⟩
  · split
    · exact ⟨_, _, rfl, fun _ => rfl⟩
    · split
      · exact ⟨_, _, rfl, fun _ => rfl⟩
      · next hopen => exact ⟨_, _, rfl, fun hclosed => absurd hclosed hopen⟩

end Queues

/-- A property kept by both parts of a sequence is kept by the sequence. -/
theorem andThen_keeps {P : Consumer → Prop} {x : Consumer × Ret} {f : Consumer → Consumer × Ret}
    (hx : P x.1) (hf : ∀ c, P c → P (f c).1) : P (andThen x f).1 := by
  unfold andThen
  split
  · exact hf _ hx
  · exact hx

section Methods

variable {P : Consumer → Prop} {cfg : Config} {c d : Consumer} {m : Message} {r : TaskResult}
  {t : Task} {ctxDone seekOk : Bool}

/-- A drained partition is pointed back, or only loses its backlog. -/
theorem rewindIfDrained_keeps {tp : TopicPartition} (h : P c) (hdrop : P (c.dropBacklog [tp]))
    (hback : ∀ p, c.parts.get tp = some p → p.failedAt ≥ 0 → p.inflight = 0 →
      P ((c.dropBacklog [tp]).setPart tp { p with next := p.frontier, failedAt := -1 }))
    (seekOk : Bool) : P (c.rewindIfDrained tp seekOk).1 := by
  unfold rewindIfDrained rewind
  split
  · exact h
  · next p hp =>
    split
    · next hdrained =>
      split
      · exact hback p hp hdrained.1 hdrained.2.1
      · exact hdrop
    · exact h

/-- The consumer after it took the message at the next offset. -/
def taken (cfg : Config) (c : Consumer) (m : Message) (p : Partition) : Consumer :=
  { c.setPart m.tp (p.reach m.offset) with
    backlog := c.backlog ++ [⟨m, inputOf cfg m, p.gen⟩]
    hist := c.hist ++ [.accepted m.tp p.gen m.offset] }

/-- `accept` drops the message, passes over one that is completed, or takes it. -/
theorem accept_keeps (h : P c)
    (hpass : ∀ p, c.parts.get m.tp = some p → p.failedAt < 0 →
      (p.next < 0 ∨ (m.offset : Int) = p.next) → (m.offset : Int) ∈ p.completed →
      P (c.setPart m.tp (p.reach m.offset)))
    (htake : ∀ p, c.parts.get m.tp = some p → p.failedAt < 0 →
      (p.next < 0 ∨ (m.offset : Int) = p.next) → (m.offset : Int) ∉ p.completed →
      P (taken cfg c m p)) (seekOk : Bool) :
    P (accept cfg c m seekOk).1 := by
  unfold accept
  split
  · exact h
  · split
    · exact h
    · next p hp =>
      split
      · exact h
      · next hfailed =>
        split
        · split <;> exact h
        · next hnext =>
          have hexpected : p.next < 0 ∨ (m.offset : Int) = p.next := by
            by_contra hno
            rw [not_or] at hno
            exact hnext ⟨by omega, hno.2⟩
          split
          · next hdone => exact hpass p hp (by omega) hexpected hdone
          · next hdone => exact htake p hp (by omega) hexpected hdone

/-- `complete` counts the result off.  That of an older assignment does no more; any other
halts the consumer, is skipped or safe, or has failed. -/
theorem complete_cases {Q : Consumer × Ret → Prop}
    (hstale : (∀ p, c.parts.get r.task.tp = some p → p.gen ≠ r.task.gen) → Q (c.landed, .ok))
    (hland : ∀ p, c.parts.get r.task.tp = some p → p.gen = r.task.gen →
      P (c.landed.setPart r.task.tp p.landed))
    (hhalt : ∀ d, P d → r.unstorable = true → cfg.onUnstorable = .halt →
      Q (d, .fatal (.errUnstorable r.task.tp r.task.m.offset r.err)))
    (hskip : ∀ d p, P d → d.hist = c.hist → d.parts.get r.task.tp = some p →
      p.gen = r.task.gen → r.unstorable = true → cfg.onUnstorable = .skip →
      Q (finishSafe cfg
        { d with hist := d.hist ++ [.skipped r.task.tp r.task.gen r.task.m.offset] }
        p r.task seekOk))
    (hsafe : ∀ d p, P d → d.parts.get r.task.tp = some p → p.gen = r.task.gen →
      r.res.safe = true → Q (finishSafe cfg d p r.task seekOk))
    (hfailed : ∀ d, P d → r.unstorable = false → r.res.safe = false →
      Q (d.finishFailed ctxDone r seekOk)) :
    Q (complete cfg c ctxDone r seekOk) := by
  unfold complete
  split
  · next hnone => exact hstale fun p hp => nomatch hnone.symm.trans hp
  · next p hp =>
    split
    · next hgen =>
      refine hstale fun q hq => ?_
      cases hp.symm.trans hq
      exact hgen
    · next hgen =>
      have hsame : p.gen = r.task.gen := not_not.mp hgen
      have hcur := hland p hp hsame
      have hget : (c.landed.setPart r.task.tp p.landed).parts.get r.task.tp = some p.landed := by
        simp [setPart]
      unfold completeCurrent
      split
      · next hun =>
        split
        · next hhalts => exact hhalt _ hcur hun hhalts
        · next hskips =>
          rw [show p.landed.gen = r.task.gen from hsame]
          exact hskip _ _ hcur rfl hget hsame hun hskips
      · next hstorable =>
        split
        · next hok => exact hsafe _ _ hcur hget hsame hok
        · next hbad => exact hfailed _ hcur (by simpa using hstorable) (by simpa using hbad)

/-- A property that a skip keeps as well. -/
theorem complete_keeps {Q : Consumer × Ret → Prop}
    (hstale : (∀ p, c.parts.get r.task.tp = some p → p.gen ≠ r.task.gen) → Q (c.landed, .ok))
    (hland : ∀ p, c.parts.get r.task.tp = some p → p.gen = r.task.gen →
      P (c.landed.setPart r.task.tp p.landed))
    (hhalt : ∀ d, P d → r.unstorable = true → cfg.onUnstorable = .halt →
      Q (d, .fatal (.errUnstorable r.task.tp r.task.m.offset r.err)))
    (hskip : ∀ d, P d → d.hist = c.hist →
      P { d with hist := d.hist ++ [.skipped r.task.tp r.task.gen r.task.m.offset] })
    (hsafe : ∀ d p, P d → d.parts.get r.task.tp = some p → p.gen = r.task.gen →
      r.res.safe = true ∨ r.unstorable = true ∧ cfg.onUnstorable = .skip →
      Q (finishSafe cfg d p r.task seekOk))
    (hfailed : ∀ d, P d → r.unstorable = false → r.res.safe = false →
      Q (d.finishFailed ctxDone r seekOk)) :
    Q (complete cfg c ctxDone r seekOk) :=
  complete_cases hstale hland hhalt
    (fun d p hd hhist hp hgen hun hskips =>
      hsafe _ p (hskip d hd hhist) hp hgen (.inr ⟨hun, hskips⟩))
    (fun d p hd hp hgen hok => hsafe d p hd hp hgen (.inl hok)) hfailed

/-- `dispatchOne` drops a message that is out of date, runs it itself or sends it. -/
theorem dispatchOne_keeps {rest : List Task} {res : Result} {err : Option Error}
    (hdrop : P { c with backlog := rest })
    (hrun : ∀ p, c.parts.get t.tp = some p → p.gen = t.gen → cfg.workers ≤ 1 →
      P (((c.started t p rest).logFinished t res).complete cfg ctxDone ⟨t, res, err⟩ seekOk).1)
    (hsend : ∀ p, c.parts.get t.tp = some p → p.gen = t.gen → 1 < cfg.workers →
      P ((c.started t p rest).send t).1) :
    P (c.dispatchOne cfg ctxDone t rest res err seekOk).1 := by
  unfold dispatchOne
  split
  · exact hdrop
  · next p hp =>
    split
    · exact hdrop
    · next hgo =>
      have hgen : p.gen = t.gen := by
        by_contra hne
        exact hgo (.inl hne)
      split
      · next hone => exact hrun p hp hgen hone
      · next hmany => exact hsend p hp hgen (not_le.mp hmany)

/-- What committing changes: the commits are in the history, and are noted. -/
inductive Commits (c : Consumer) : Consumer → Prop
  | mk (es : List Event) (m : GoMap TopicPartition Int) (n : Nat) :
      (∀ e ∈ es, ∃ tp gen o ok, e = .commit tp gen o ok) →
      Commits c { c with hist := c.hist ++ es, committed := m, sinceCommit := n }

theorem Commits.refl (c : Consumer) : Commits c c := by
  simpa using Commits.mk (c := c) [] c.committed c.sinceCommit (by simp)

theorem Commits.since (h : Commits c d) (n : Nat) : Commits c { d with sinceCommit := n } := by
  obtain ⟨es, m, -, hes⟩ := h
  exact .mk es m n hes

theorem commits_commitOffsets (c : Consumer) (offs : List (TopicPartition × Int)) (ok : Bool) :
    Commits c (c.commitOffsets offs ok).1 := by
  have hlog : ∀ e ∈ offs.map fun o : TopicPartition × Int =>
      Event.commit o.1 ((c.parts.get o.1).map Partition.gen) o.2 ok,
      ∃ tp gen o ok, e = .commit tp gen o ok := by
    intro e he
    obtain ⟨o, -, rfl⟩ := mem_map.mp he
    exact ⟨_, _, _, _, rfl⟩
  unfold commitOffsets
  split
  · exact .refl c
  · split
    · exact .mk _ _ _ hlog
    · exact .mk _ _ _ hlog

theorem commits_commit (c : Consumer) (ok : Bool) : Commits c (c.commit ok).1 := by
  have hoffs := commits_commitOffsets c (c.pending none) ok
  unfold commit
  split
  · exact hoffs.since 0
  · exact hoffs

theorem commits_maybeCommit (cfg : Config) (c : Consumer) (due ok : Bool) :
    Commits c (maybeCommit cfg c due ok) := by
  unfold maybeCommit
  split
  · exact .refl c
  · split
    · exact commits_commit c ok
    · exact .refl c

end Methods

end Consumer

section Moves

open Consumer

/-- Everything a move of the system can do to the consumer. -/
inductive Move (cfg : Config) (c : Consumer) : Consumer → Prop
  | stay : Move cfg c c
  | recv (r : TaskResult) (rest : List TaskResult) (ctxDone seekOk : Bool) :
      c.results = r :: rest →
      Move cfg c (complete cfg { c with results := rest } ctxDone r seekOk).1
  | tend (due ok : Bool) :
      Move cfg c (maybeCommit cfg c due ok)
  | commit (ok : Bool) :
      Move cfg c (c.commit ok).1
  | assigned (tps : List TopicPartition) :
      (∀ tp ∈ tps, c.parts.get tp = none) →
      Move cfg c (c.onAssigned tps)
  | revoked (tps : List TopicPartition) (ok : Bool) :
      Move cfg c (c.onRevoked tps ok)
  | accept (m : Message) (seekOk : Bool) :
      Move cfg c (c.accept cfg m seekOk).1
  | dispatch (t : Task) (rest : List Task) (ctxDone : Bool)
      (res : Result) (err : Option Error) (seekOk : Bool) :
      c.backlog = t :: rest →
      Move cfg c (c.dispatchOne cfg ctxDone t rest res err seekOk).1
  | take (t : Task) (rest : List Task) :
      c.work = t :: rest →
      Move cfg c { c with work := rest, running := c.running ++ [t] }
  | finish (i : Nat) (t : Task) (res : Result) (err : Option Error) :
      c.running[i]? = some t →
      Move cfg c { c.logFinished t res with
        results := c.results ++ [⟨t, res, err⟩]
        running := c.running.eraseIdx i }
  | close :
      Move cfg c { c with stopping := true, workClosed := true }

@[simp] theorem loopAfter_c (s : Sys) (x : Consumer × Ret) (next : Phase) :
    (s.loopAfter x next).c = x.1 := by
  unfold Sys.loopAfter
  split <;> rfl

@[simp] theorem finalAfter_c (s : Sys) (x : Consumer × Ret) (stopped : Bool) :
    (s.finalAfter x stopped).c = x.1 := by
  unfold Sys.finalAfter
  split <;> rfl

/-- What each action does to the consumer, with what enables it. -/
inductive Turn (cfg : Config) (s : Sys) : Act → Consumer → Prop
  | stay (a : Act) : Turn cfg s a s.c
  | recv (r : TaskResult) (rest : List TaskResult) (seekOk : Bool) :
      s.c.results = r :: rest →
      Turn cfg s (.recv seekOk) (complete cfg { s.c with results := rest } s.ctxDone r seekOk).1
  | tend (due ok brokersDown : Bool) :
      Turn cfg s (.tend due ok brokersDown) (maybeCommit cfg s.c due ok)
  | commit (ok pastDeadline : Bool) :
      Turn cfg s (.finalCommit ok pastDeadline) (s.c.commit ok).1
  | assigned (tps : List TopicPartition) :
      (∀ tp ∈ tps, s.c.parts.get tp = none) →
      Turn cfg s (.assigned tps) (s.c.onAssigned tps)
  | revoked (tps : List TopicPartition) (ok : Bool) :
      Turn cfg s (.revoked tps ok) (s.c.onRevoked tps ok)
  | accept (m : Message) (seekOk : Bool) :
      Turn cfg s (.pollMessage m seekOk) (s.c.accept cfg m seekOk).1
  | dispatch (t : Task) (rest : List Task) (res : Result) (err : Option Error) (seekOk : Bool) :
      s.c.backlog = t :: rest →
      s.c.inflight < cfg.maxInFlight →
      Turn cfg s (.dispatch res err seekOk)
        (s.c.dispatchOne cfg s.ctxDone t rest res err seekOk).1
  | take (t : Task) (rest : List Task) :
      s.c.work = t :: rest →
      Turn cfg s .take { s.c with work := rest, running := s.c.running ++ [t] }
  | finish (i : Nat) (t : Task) (res : Result) (err : Option Error) :
      s.c.running[i]? = some t →
      Turn cfg s (.finish i res err) { s.c.logFinished t res with
        results := s.c.results ++ [⟨t, res, err⟩]
        running := s.c.running.eraseIdx i }
  | close :
      Turn cfg s .shutdown { s.c with stopping := true, workClosed := true }

variable {cfg : Config} {s t : Sys} {a : Act}

theorem Turn.move {d : Consumer} (h : Turn cfg s a d) : Move cfg s.c d := by
  cases h with
  | stay => exact .stay
  | recv r rest seekOk hresults => exact .recv r rest _ seekOk hresults
  | tend due ok _ => exact .tend due ok
  | commit ok _ => exact .commit ok
  | assigned tps hfree => exact .assigned tps hfree
  | revoked tps ok => exact .revoked tps ok
  | accept m seekOk => exact .accept m seekOk
  | dispatch t rest res err seekOk hbacklog _ =>
    exact .dispatch t rest _ res err seekOk hbacklog
  | take t rest hwork => exact .take t rest hwork
  | finish i t res err hrun => exact .finish i t res err hrun
  | close => exact .close

theorem turn_of_step (hstep : step cfg s a = some t) : Turn cfg s a t.c := by
  cases a with
  | cancel =>
    cases hstep
    exact .stay _
  | enterLoop | dispatched | workersStopped | stopTimeout =>
    obtain ⟨-, rfl⟩ := of_guard hstep
    exact .stay _
  | recv seekOk =>
    simp only [step] at hstep
    split at hstep
    · next hresults =>
      cases hstep
      rw [loopAfter_c]
      exact .recv _ _ seekOk hresults
    · next hresults =>
      obtain ⟨-, rfl⟩ := of_guard_not hstep
      rw [finalAfter_c]
      exact .recv _ _ seekOk hresults
    · cases hstep
  | drained =>
    simp only [step] at hstep
    split at hstep
    · obtain ⟨-, rfl⟩ := of_guard hstep
      exact .stay _
    · obtain ⟨-, rfl⟩ := of_guard hstep
      exact .stay _
    · obtain ⟨-, rfl⟩ := of_guard hstep
      exact .stay _
    · cases hstep
  | tend due commitOk brokersDown =>
    obtain ⟨-, rfl⟩ := of_guard hstep
    exact .tend due commitOk brokersDown
  | assigned tps =>
    obtain ⟨⟨-, hfree⟩, rfl⟩ := of_guard hstep
    exact .assigned tps hfree
  | revoked tps commitOk =>
    obtain ⟨-, rfl⟩ := of_guard hstep
    exact .revoked tps commitOk
  | pollNothing | pollFails =>
    simp only [step] at hstep
    split at hstep
    · cases hstep
      exact .stay _
    · cases hstep
      exact .stay _
    · cases hstep
  | pollMessage m seekOk =>
    simp only [step] at hstep
    split at hstep
    · cases hstep
      rw [loopAfter_c]
      exact .accept m seekOk
    · cases hstep
      exact .stay _
    · cases hstep
  | dispatch res err seekOk =>
    simp only [step] at hstep
    split at hstep
    · next hbacklog =>
      obtain ⟨hroom, rfl⟩ := of_guard hstep
      rw [loopAfter_c]
      exact .dispatch _ _ res err seekOk hbacklog hroom
    · cases hstep
  | take =>
    simp only [step] at hstep
    split at hstep
    · next hwork =>
      obtain ⟨-, rfl⟩ := of_guard hstep
      exact .take _ _ hwork
    · cases hstep
  | finish i res err =>
    simp only [step] at hstep
    split at hstep
    · next hrun =>
      obtain ⟨-, rfl⟩ := of_guard hstep
      exact .finish i _ res err hrun
    · cases hstep
  | shutdown =>
    simp only [step] at hstep
    split at hstep
    · cases hstep
      exact .close
    · cases hstep
  | finalCommit commitOk pastDeadline =>
    simp only [step] at hstep
    split at hstep
    · cases hstep
      exact .commit commitOk pastDeadline
    · cases hstep

theorem move_of_step (hstep : step cfg s a = some t) : Move cfg s.c t.c :=
  (turn_of_step hstep).move

end Moves

end Kafka
end GoGuard
