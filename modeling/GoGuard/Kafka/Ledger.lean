import GoGuard.Kafka.Commit
import GoGuard.Kafka.Pool

/-!
# The in-flight counters of a consumer

`inflight` is kept in two places and decremented in four: when a result is
applied, when a result of an older assignment is thrown away, when the line
behind a failed message is dropped and when a partition is taken away.  Here the
counters are compared with what they count.

`pooled` counts the tasks of a kind that are in a channel, with a worker or in
line behind a key.  The ledger says that `inflight` counts all of them, and that
the counter of a partition counts those of its current assignment.  It is
followed through the middle of a method by naming the tasks that are counted and
in no queue (`extra`), and the partition that is being taken away (`gone`).
-/

namespace GoGuard
namespace Kafka

open Lib Dlq List

namespace Consumer

/-- How many tasks of a kind are in a channel or with a worker. -/
def flights (c : Consumer) (P : Task → Bool) : Nat :=
  c.work.countP P + c.running.countP P + c.results.countP fun r => P r.task

/-- How many tasks of a kind are in the pool. -/
def pooled (c : Consumer) (P : Task → Bool) : Nat :=
  c.flights P + c.keyQueues.total (List.countP P)

/-- The tasks of one assignment of a partition. -/
def ofAssignment (tp : TopicPartition) (gen : Nat) (t : Task) : Bool :=
  t.tp = tp && t.gen = gen

@[simp] theorem ofAssignment_iff {tp : TopicPartition} {gen : Nat} {t : Task} :
    ofAssignment tp gen t = true ↔ t.tp = tp ∧ t.gen = gen := by
  simp [ofAssignment]

/-- The counters agree with the queues, with the tasks of `extra` counted and in
no queue.  The tasks in line belong to the current assignment of their
partition, except that `gone` may have none any more. -/
structure Ledger (extra : List Task) (gone : Option TopicPartition) (c : Consumer) :
    Prop where
  total : c.inflight = c.pooled (fun _ => true) + extra.length
  part : ∀ tp p, c.parts.get tp = some p →
    p.inflight = c.pooled (ofAssignment tp p.gen) + extra.countP (ofAssignment tp p.gen)
  queued : ∀ k q, c.keyQueues.get k = some q → ∀ t ∈ q, keyOf t = k ∧
    (c.genOf k.tp = some t.gen ∨ gone = some k.tp ∧ c.genOf k.tp = none)

theorem ledger_new : Ledger [] none Consumer.new := by
  refine ⟨rfl, ?_, ?_⟩
  · intro tp p hp
    simp [Consumer.new] at hp
  · intro k q hq
    simp [Consumer.new] at hq

section Frames

variable {extra : List Task} {gone : Option TopicPartition} {c d : Consumer}

theorem pooled_congr (hwork : d.work = c.work) (hrunning : d.running = c.running)
    (hresults : d.results = c.results) (hqueues : d.keyQueues = c.keyQueues) (P : Task → Bool) :
    d.pooled P = c.pooled P := by
  unfold pooled flights
  rw [hwork, hrunning, hresults, hqueues]

theorem Ledger.outside (h : Ledger extra gone c) (ho : Outside c d) : Ledger extra gone d := by
  have hpool := pooled_congr ho.work ho.running ho.results ho.queues
  refine ⟨?_, ?_, ?_⟩
  · rw [ho.inflight, hpool]
    exact h.total
  · intro tp q hq
    have hsame := ho.parts tp
    rw [hq, Option.map_some] at hsame
    obtain ⟨p, hp, heq⟩ := Option.map_eq_some_iff.mp hsame.symm
    rw [Prod.mk.injEq] at heq
    rw [hpool, ← heq.1, ← heq.2]
    exact h.part tp p hp
  · intro k q hq t ht
    rw [ho.queues] at hq
    rw [ho.gens]
    exact h.queued k q hq t ht

end Frames

section Landing

variable {c : Consumer} {t : Task}

theorem Ledger.recv {r : TaskResult} {rest : List TaskResult} (h : Ledger [] none c)
    (hresults : c.results = r :: rest) : Ledger [r.task] none { c with results := rest } := by
  have hpool : ∀ P, c.pooled P
      = pooled { c with results := rest } P + [r.task].countP P := by
    intro P
    unfold pooled flights
    rw [hresults, countP_cons, countP_singleton]
    dsimp only
    omega
  refine ⟨?_, ?_, h.queued⟩
  · have htotal := h.total
    rw [hpool] at htotal
    simpa using htotal
  · intro tp p hp
    have hpart := h.part tp p hp
    rw [hpool] at hpart
    simpa using hpart

theorem Ledger.landed_stale (h : Ledger [t] none c) (hstale : ¬ c.Current t) :
    Ledger [] none c.landed := by
  refine ⟨?_, ?_, h.queued⟩
  · have htotal := h.total
    simp only [length_singleton] at htotal
    change c.inflight - 1 = c.pooled (fun _ => true) + ((0 : Nat) : Int)
    omega
  · intro tp p hp
    have hno : ofAssignment tp p.gen t = false := by
      rw [Bool.eq_false_iff]
      intro hof
      obtain ⟨htp, hgen⟩ := ofAssignment_iff.mp hof
      refine hstale ?_
      have hp' : c.parts.get t.tp = some p := htp ▸ hp
      simp [Current, genOf, hp', hgen]
    have hpart := h.part tp p hp
    rw [countP_singleton, hno] at hpart
    simpa [Consumer.landed, pooled, flights] using hpart

theorem Ledger.landed_current {p : Partition} (h : Ledger [t] none c)
    (hget : c.parts.get t.tp = some p) (hgen : p.gen = t.gen) :
    Ledger [] none (c.landed.setPart t.tp p.landed) := by
  refine ⟨?_, ?_, ?_⟩
  · have htotal := h.total
    simp only [length_singleton] at htotal
    change c.inflight - 1 = c.pooled (fun _ => true) + ((0 : Nat) : Int)
    omega
  · intro tp q hq
    change (c.parts.set t.tp p.landed).get tp = some q at hq
    change q.inflight = c.pooled (ofAssignment tp q.gen) + ((0 : Nat) : Int)
    rw [GoMap.get_set] at hq
    split at hq
    · next heq =>
      cases hq
      subst heq
      have hpart := h.part t.tp p hget
      have hof : ofAssignment t.tp p.gen t = true := ofAssignment_iff.mpr ⟨rfl, hgen.symm⟩
      rw [countP_singleton, hof] at hpart
      change p.inflight - 1 = c.pooled (ofAssignment t.tp p.gen) + ((0 : Nat) : Int)
      simp only [if_true] at hpart
      omega
    · next hne =>
      have hpart := h.part tp q hq
      have hof : ofAssignment tp q.gen t = false := by
        rw [Bool.eq_false_iff]
        intro hof
        exact hne (ofAssignment_iff.mp hof).1.symm
      rw [countP_singleton, hof] at hpart
      simpa using hpart
  · intro k q hq x hx
    rw [genOf_setPart (c := c.landed) (q := p.landed) hget rfl]
    exact h.queued k q hq x hx

end Landing

section Lines

variable {extra : List Task} {gone : Option TopicPartition} {c : Consumer}

theorem pooled_setKey (c : Consumer) (k : FailedKey) (q : List Task) (P : Task → Bool) :
    pooled { c with keyQueues := c.keyQueues.set k q } P
        + ((c.keyQueues.get k).getD []).countP P
      = c.pooled P + q.countP P := by
  have hset := GoMap.total_set (List.countP P) c.keyQueues k q
  have hold : ((c.keyQueues.get k).map (List.countP P)).getD 0
      = ((c.keyQueues.get k).getD []).countP P := by
    cases c.keyQueues.get k <;> rfl
  unfold pooled flights
  simp only
  omega

theorem pooled_delKey (c : Consumer) (k : FailedKey) (P : Task → Bool) :
    pooled { c with keyQueues := c.keyQueues.del k } P
        + ((c.keyQueues.get k).getD []).countP P
      = c.pooled P := by
  have hdel := GoMap.total_del (List.countP P) c.keyQueues k
  have hold : ((c.keyQueues.get k).map (List.countP P)).getD 0
      = ((c.keyQueues.get k).getD []).countP P := by
    cases c.keyQueues.get k <;> rfl
  unfold pooled flights
  simp only
  omega

theorem pooled_dropKey
    (c : Consumer) (tp : TopicPartition) (keep : Bool) (k : FailedKey) (P : Task → Bool) :
    (dropKey tp keep c k).pooled P + ((c.keyQueues.get k).getD []).countP P
      = c.pooled P := by
  cases keep with
  | true => exact pooled_setKey c k [] P
  | false => exact pooled_delKey c k P

theorem genOf_dropKey (c : Consumer) (tp : TopicPartition) (keep : Bool) (k : FailedKey)
    (tp' : TopicPartition) : (dropKey tp keep c k).genOf tp' = c.genOf tp' :=
  genOf_eq_of_core ((quiet_dropKey c tp keep k).core tp')

variable {k : FailedKey} {t : Task} {q : List Task}

section

variable (h : Ledger extra gone c)
include h

theorem Ledger.line {p : Partition} (hp : c.parts.get k.tp = some p) :
    ∀ t ∈ (c.keyQueues.get k).getD [], ofAssignment k.tp p.gen t = true := by
  intro t ht
  cases hq : c.keyQueues.get k with
  | none => simp [hq] at ht
  | some q =>
    rw [hq, Option.getD_some] at ht
    obtain ⟨hkey, hgen⟩ := h.queued k q hq t ht
    have hcur : c.genOf k.tp = some p.gen := by simp [genOf, hp]
    rw [hcur] at hgen
    refine ofAssignment_iff.mpr ⟨?_, ?_⟩
    · exact congrArg FailedKey.tp hkey
    · rcases hgen with heq | ⟨-, hno⟩
      · exact (Option.some.inj heq).symm
      · cases hno

theorem Ledger.line_other {tp : TopicPartition} (hne : tp ≠ k.tp)
    (gen : Nat) : ((c.keyQueues.get k).getD []).countP (ofAssignment tp gen) = 0 := by
  rw [countP_eq_zero]
  intro t ht hof
  cases hq : c.keyQueues.get k with
  | none => simp [hq] at ht
  | some q =>
    rw [hq, Option.getD_some] at ht
    have hkey := congrArg FailedKey.tp (h.queued k q hq t ht).1
    exact hne ((ofAssignment_iff.mp hof).1.symm.trans hkey)

theorem Ledger.dropKey (keep : Bool) (k : FailedKey) :
    Ledger extra gone (Consumer.dropKey k.tp keep c k) := by
  have hpool := pooled_dropKey c k.tp keep k
  refine ⟨?_, ?_, ?_⟩
  · have htotal := h.total
    have hall := hpool fun _ => true
    rw [countP_true] at hall
    change c.inflight - ((c.keyQueues.get k).getD []).length = _
    omega
  · intro tp q hq
    have hdrop := hpool (ofAssignment tp q.gen)
    by_cases htp : tp = k.tp
    · subst htp
      cases hp : c.parts.get k.tp with
      | none => simp [Consumer.dropKey, hp] at hq
      | some p =>
        simp only [Consumer.dropKey, hp, GoMap.get_set, if_true, Option.some.injEq] at hq
        subst hq
        have hpart := h.part k.tp p hp
        have hline := countP_eq_length.mpr (h.line hp)
        simp only at hdrop ⊢
        omega
    · have hq' : c.parts.get tp = some q := by
        cases hp : c.parts.get k.tp with
        | none => simpa [Consumer.dropKey, hp] using hq
        | some p => simpa [Consumer.dropKey, hp, htp] using hq
      have hpart := h.part tp q hq'
      have hline := h.line_other htp q.gen
      omega
  · intro k' q hq x hx
    rw [genOf_dropKey]
    cases keep with
    | true =>
      simp only [Consumer.dropKey, if_true, GoMap.get_set] at hq
      split at hq
      · cases hq
        cases hx
      · exact h.queued k' q hq x hx
    | false =>
      simp only [Consumer.dropKey, Bool.false_eq_true, if_false, GoMap.get_del] at hq
      split at hq
      · cases hq
      · exact h.queued k' q hq x hx

theorem Ledger.dropQueued (tp : TopicPartition) (only : Option Bytes) :
    Ledger extra gone (c.dropQueued tp only) := by
  unfold Consumer.dropQueued
  refine List.foldlRecOn (motive := fun d => Ledger extra gone d) _ _ h ?_
  intro d hd k hk
  have htp : k.tp = tp := by
    have hhit := (mem_filter.mp hk).2
    rw [Bool.and_eq_true, decide_eq_true_eq] at hhit
    exact hhit.1
  subst htp
  exact hd.dropKey only.isSome k

theorem Ledger.delKey (hempty : (c.keyQueues.get k).getD [] = []) :
    Ledger extra gone { c with keyQueues := c.keyQueues.del k } := by
  have hpool : ∀ P, pooled { c with keyQueues := c.keyQueues.del k } P = c.pooled P := by
    intro P
    have hdel := pooled_delKey c k P
    rw [hempty, countP_nil] at hdel
    exact hdel
  refine ⟨?_, ?_, ?_⟩
  · rw [hpool]
    exact h.total
  · intro tp p hp
    rw [hpool]
    exact h.part tp p hp
  · intro k' q hq
    simp only [GoMap.get_del] at hq
    split at hq
    · cases hq
    · exact h.queued k' q hq

theorem Ledger.dropFollowers (t : Task) : Ledger extra gone (c.dropFollowers t) := by
  unfold Consumer.dropFollowers
  split
  · exact h
  · exact (h.dropQueued t.tp (some t.inp.orderKey)).delKey
      (get_dropQueued_self c t.tp t.inp.orderKey)

end

theorem pooled_pushWork (hopen : c.workClosed = false) (t : Task) (P : Task → Bool) :
    (c.pushWork t).1.pooled P = c.pooled P + [t].countP P := by
  rw [pushWork_open hopen]
  unfold pooled flights
  rw [countP_append]
  dsimp only
  omega

theorem pooled_send (hopen : c.workClosed = false) (t : Task) (P : Task → Bool) :
    (c.send t).1.pooled P = c.pooled P + [t].countP P := by
  unfold Consumer.send
  split
  · exact pooled_pushWork hopen t P
  · split
    · next q hq =>
      have hset := pooled_setKey c (keyOf t) (q ++ [t]) P
      rw [hq, Option.getD_some, countP_append] at hset
      dsimp only
      omega
    · next hnone =>
      have hset := pooled_setKey c (keyOf t) [] P
      rw [hnone, Option.getD_none, countP_nil] at hset
      rw [pooled_pushWork (c := { c with keyQueues := c.keyQueues.set (keyOf t) [] }) hopen]
      omega

theorem Ledger.enter {d : Consumer} (h : Ledger [t] none c)
    (hpool : ∀ P, d.pooled P = c.pooled P + [t].countP P) (hinflight : d.inflight = c.inflight)
    (hparts : d.parts = c.parts)
    (hqueued : ∀ k q, d.keyQueues.get k = some q → ∀ x ∈ q, keyOf x = k ∧
      c.genOf k.tp = some x.gen) :
    Ledger [] none d := by
  refine ⟨?_, ?_, ?_⟩
  · have htotal := h.total
    rw [hinflight, hpool, countP_true]
    simpa using htotal
  · intro tp p hp
    rw [hparts] at hp
    have hpart := h.part tp p hp
    rw [hpool]
    simpa using hpart
  · intro k q hq x hx
    have hgen : d.genOf k.tp = c.genOf k.tp := by
      unfold genOf
      rw [hparts]
    rw [hgen]
    exact (hqueued k q hq x hx).imp id .inl

theorem Ledger.inLine (h : Ledger extra none c) (hq : c.keyQueues.get k = some q) :
    ∀ x ∈ q, keyOf x = k ∧ c.genOf k.tp = some x.gen := by
  intro x hx
  exact (h.queued k q hq x hx).imp id fun hx => hx.elim id fun hno => nomatch hno.1

theorem Ledger.pushWork (h : Ledger [t] none c) (hopen : c.workClosed = false) :
    Ledger [] none (c.pushWork t).1 := by
  refine h.enter (pooled_pushWork hopen t) ?_ ?_ ?_
  all_goals rw [pushWork_open hopen]
  exact fun k q hq => h.inLine hq

theorem Ledger.popKey {next : Task} (h : Ledger [] none c)
    (hq : (c.keyQueues.get k).getD [] = next :: q) :
    Ledger [next] none { c with keyQueues := c.keyQueues.set k q } := by
  have hpool : ∀ P, pooled { c with keyQueues := c.keyQueues.set k q } P
      + [next].countP P = c.pooled P := by
    intro P
    have hset := pooled_setKey c k q P
    rw [hq, countP_cons] at hset
    rw [countP_singleton]
    omega
  have hget := line_of_getD hq
  refine ⟨?_, ?_, ?_⟩
  · have htotal := h.total
    rw [← hpool] at htotal
    simpa using htotal
  · intro tp p hp
    have hpart := h.part tp p hp
    rw [← hpool] at hpart
    simpa using hpart
  · intro k' q' hq' x hx
    simp only [GoMap.get_set] at hq'
    split at hq'
    · next heq =>
      cases hq'
      subst heq
      exact h.queued _ _ hget x (mem_cons_of_mem _ hx)
    · exact h.queued k' q' hq' x hx

theorem Ledger.released (h : Ledger [] none c) (hopen : c.workClosed = false)
    (cfg : Config) (t : Task) : Ledger [] none (Consumer.released cfg c t).1 := by
  unfold Consumer.released
  split
  · exact h
  · split
    · next hempty => exact h.delKey hempty
    · next next q hq => exact (h.popKey hq).pushWork hopen

theorem Ledger.send (h : Ledger [t] none c) (hopen : c.workClosed = false) (hcur : c.Current t) :
    Ledger [] none (c.send t).1 := by
  obtain ⟨w, qs, heq⟩ := send_frame c t
  refine h.enter (pooled_send hopen t) (by rw [heq]) (by rw [heq]) ?_
  intro k q' hq' x hx
  unfold Consumer.send Consumer.pushWork at hq'
  simp only [hopen, Bool.false_eq_true, if_false] at hq'
  split at hq'
  · exact h.inLine hq' x hx
  · split at hq'
    · next q hq =>
      simp only [GoMap.get_set] at hq'
      split at hq'
      · next heq =>
        cases hq'
        subst heq
        rcases mem_append.mp hx with hx | hx
        · exact h.inLine hq x hx
        · obtain rfl := mem_singleton.mp hx
          exact ⟨rfl, hcur⟩
      · exact h.inLine hq' x hx
    · simp only [GoMap.get_set] at hq'
      split at hq'
      · cases hq'
        cases hx
      · exact h.inLine hq' x hx

end Lines

section Results

variable {extra : List Task} {gone : Option TopicPartition} {c : Consumer}

theorem Ledger.complete {r : TaskResult} (h : Ledger [r.task] none c) (hopen : c.workClosed = false)
    (cfg : Config) (ctxDone seekOk : Bool) :
    Ledger [] none (Consumer.complete cfg c ctxDone r seekOk).1 := by
  refine complete_pool (P := fun d => Ledger [] none d ∧ d.workClosed = false) ?_
    (fun p hp hgen => ⟨h.landed_current hp hgen, hopen⟩) (fun d hd => hd.1)
    (fun d e hd ho => ⟨hd.1.outside ho, ho.closed.trans hd.2⟩) (fun d e hd ho => hd.outside ho)
    (fun d hd => hd.1.released hd.2 cfg r.task) (fun d hd => hd.1.dropFollowers r.task)
  intro hstale
  refine h.landed_stale ?_
  intro hcur
  obtain ⟨p, hp, hgen⟩ := Option.map_eq_some_iff.mp hcur
  exact hstale p hp hgen

end Results

section Moving

variable {extra : List Task} {gone : Option TopicPartition} {c : Consumer} {t : Task}

theorem Ledger.started {p : Partition} (h : Ledger [] none c) (hget : c.parts.get t.tp = some p)
    (hgen : p.gen = t.gen) (rest : List Task) : Ledger [t] none (c.started t p rest) := by
  refine ⟨?_, ?_, ?_⟩
  · have htotal := h.total
    change c.inflight + 1 = c.pooled (fun _ => true) + ((1 : Nat) : Int)
    simp only [length_nil] at htotal
    omega
  · intro tp q hq
    change (c.parts.set t.tp { p with inflight := p.inflight + 1 }).get tp = some q at hq
    change q.inflight = c.pooled (ofAssignment tp q.gen) + _
    rw [GoMap.get_set] at hq
    rw [countP_singleton]
    split at hq
    · next heq =>
      cases hq
      subst heq
      have hpart := h.part t.tp p hget
      have hof : ofAssignment t.tp p.gen t = true := ofAssignment_iff.mpr ⟨rfl, hgen.symm⟩
      simp only [countP_nil] at hpart
      simp only [hof, if_true]
      omega
    · next hne =>
      have hpart := h.part tp q hq
      have hof : ofAssignment tp q.gen t = false := by
        rw [Bool.eq_false_iff]
        intro hof
        exact hne (ofAssignment_iff.mp hof).1.symm
      simpa [hof] using hpart
  · intro k q hq x hx
    have hsame := genOf_setPart (q := { p with inflight := p.inflight + 1 }) hget rfl k.tp
    change keyOf x = k ∧ ((c.setPart t.tp { p with inflight := p.inflight + 1 }).genOf k.tp
      = some x.gen ∨ _)
    rw [hsame]
    exact (h.inLine hq x hx).imp id .inl

theorem Ledger.dispatchOne (h : Ledger [] none c) (hopen : c.workClosed = false)
    (cfg : Config) (ctxDone : Bool) (t : Task) (rest : List Task)
    (res : Result) (err : Option Error) (seekOk : Bool) :
    Ledger [] none (c.dispatchOne cfg ctxDone t rest res err seekOk).1 := by
  refine dispatchOne_keeps (h.outside (outside_rest c _ _ _ _ _ _)) ?_ ?_
  · intro p hp hgen _
    have hlog : Ledger [t] none ((c.started t p rest).logFinished t res) :=
      (h.started hp hgen rest).outside (outside_rest _ _ _ _ _ _ _)
    exact hlog.complete (r := ⟨t, res, err⟩) hopen cfg ctxDone seekOk
  · intro p hp hgen _
    refine (h.started hp hgen rest).send hopen ?_
    simp [Current, genOf, Consumer.started, hgen]

theorem Ledger.take {rest : List Task} (h : Ledger extra gone c) (hwork : c.work = t :: rest) :
    Ledger extra gone { c with work := rest, running := c.running ++ [t] } := by
  have hpool : ∀ P, pooled { c with work := rest, running := c.running ++ [t] } P
      = c.pooled P := by
    intro P
    unfold pooled flights
    rw [hwork, countP_cons, countP_append, countP_singleton]
    dsimp only
    omega
  refine ⟨?_, ?_, h.queued⟩
  · rw [hpool]
    exact h.total
  · intro tp p hp
    rw [hpool]
    exact h.part tp p hp

theorem countP_eraseIdx {α : Type*} {xs : List α} {i : Nat} {x : α} (hx : xs[i]? = some x)
    (P : α → Bool) : (xs.eraseIdx i).countP P + [x].countP P = xs.countP P := by
  obtain ⟨hi, hxi⟩ := List.getElem?_eq_some_iff.mp hx
  rw [eraseIdx_eq_take_drop_succ, countP_append]
  have hsplit : xs = xs.take i ++ x :: xs.drop (i + 1) := by
    rw [← hxi, ← drop_eq_getElem_cons hi, take_append_drop]
  conv_rhs => rw [hsplit, countP_append, countP_cons]
  rw [countP_singleton]
  omega

theorem pooled_finish {i : Nat} (hrun : c.running[i]? = some t)
    (res : Result) (err : Option Error) (P : Task → Bool) :
    pooled { c.logFinished t res with
      results := c.results ++ [⟨t, res, err⟩]
      running := c.running.eraseIdx i } P = c.pooled P := by
  have herase := countP_eraseIdx hrun P
  unfold pooled flights
  rw [countP_singleton] at herase
  simp only [Consumer.logFinished, countP_append, countP_singleton]
  omega

theorem Ledger.finish {i : Nat} (h : Ledger extra gone c) (hrun : c.running[i]? = some t)
    (res : Result) (err : Option Error) :
    Ledger extra gone { c.logFinished t res with
      results := c.results ++ [⟨t, res, err⟩]
      running := c.running.eraseIdx i } := by
  refine ⟨?_, ?_, h.queued⟩
  · rw [pooled_finish hrun]
    exact h.total
  · intro tp p hp
    rw [pooled_finish hrun]
    exact h.part tp p hp

end Moving

section Rebalancing

variable {c : Consumer}

theorem pooled_eq_zero {P : Task → Bool} (h : ∀ t, c.Holds t → P t = false) : c.pooled P = 0 := by
  have hno : ∀ xs : List Task, (∀ t ∈ xs, c.Holds t) → xs.countP P = 0 := by
    intro xs hxs
    rw [countP_eq_zero]
    intro t ht
    simp [h t (hxs t ht)]
  have hwork := hno c.work fun t ht => .inr (.inl ht)
  have hrunning := hno c.running fun t ht => .inr (.inr (.inr (.inr ht)))
  have hresults : c.results.countP (fun r => P r.task) = 0 := by
    rw [countP_eq_zero]
    intro r hr
    simp [h r.task (.inr (.inr (.inr (.inl ⟨r, hr, rfl⟩))))]
  have hqueues : c.keyQueues.total (List.countP P) = 0 := by
    refine GoMap.total_eq_zero ?_
    intro k q hq
    exact hno q fun t ht => .inr (.inr (.inl ⟨k, q, hq, ht⟩))
  unfold pooled flights
  omega

/-- A new assignment of partitions without a line.  Its generation is fresh, so
that no task of the pool belongs to it. -/
theorem Ledger.onAssigned {tps : List TopicPartition} (h : Ledger [] none c)
    (hidle : ∀ k q, c.keyQueues.get k = some q → k.tp ∈ tps → q = [])
    (hfresh : ∀ t, c.Holds t → t.gen ≤ c.gen) : Ledger [] none (c.onAssigned tps) := by
  induction tps generalizing c with
  | nil => exact h
  | cons tp tps ih =>
    refine ih (c := c.newPartition tp) ⟨h.total, ?_, ?_⟩ ?_ ?_
    · intro tp' q hq
      change q.inflight = c.pooled (ofAssignment tp' q.gen) + ((0 : Nat) : Int)
      simp only [newPartition, GoMap.get_set] at hq
      split at hq
      · cases hq
        have hzero : c.pooled (ofAssignment tp' (c.gen + 1)) = 0 := by
          refine pooled_eq_zero ?_
          intro t ht
          rw [Bool.eq_false_iff]
          intro hof
          have hle := hfresh t ht
          have heq := (ofAssignment_iff.mp hof).2
          omega
        simp [hzero]
      · simpa using h.part tp' q hq
    · intro k q hq x hx
      by_cases heq : k.tp = tp
      · obtain rfl := hidle k q hq (heq ▸ mem_cons_self)
        cases hx
      · simpa [genOf, newPartition, heq] using h.queued k q hq x hx
    · intro k q hq hmem
      exact hidle k q hq (mem_cons_of_mem _ hmem)
    · intro t ht
      exact (hfresh t ht).trans (Nat.le_succ _)

theorem Ledger.revokeOne (h : Ledger [] none c) (tp : TopicPartition) :
    Ledger [] none (c.revokeOne tp) := by
  -- the consumer after the three deletions and before `dropQueued`
  have hmid : Ledger [] (some tp)
      { c with
        parts := c.parts.del tp
        safe := c.safe.del tp
        committed := c.committed.del tp } := by
    refine ⟨h.total, ?_, ?_⟩
    · intro tp' p hp
      simp only [GoMap.get_del] at hp
      split at hp
      · cases hp
      · exact h.part tp' p hp
    · intro k q hq x hx
      obtain ⟨hkey, hgen⟩ := h.queued k q hq x hx
      refine ⟨hkey, ?_⟩
      by_cases heq : k.tp = tp
      · exact .inr ⟨congrArg some heq.symm, by simp [genOf, heq]⟩
      · exact .inl (by simpa [genOf, heq] using hgen)
  have hdrop := hmid.dropQueued tp none
  refine ⟨hdrop.total, hdrop.part, ?_⟩
  intro k q hq x hx
  obtain ⟨hkey, hgen⟩ := hdrop.queued k q hq x hx
  refine ⟨hkey, hgen.imp id ?_⟩
  rintro ⟨hgone, -⟩
  unfold Consumer.revokeOne at hq
  rw [get_dropQueued_none, if_pos (Option.some.inj hgone).symm] at hq
  cases hq

theorem Ledger.onRevoked (h : Ledger [] none c) (tps : List TopicPartition) (ok : Bool) :
    Ledger [] none (c.onRevoked tps ok) := by
  have hfold := List.foldlRecOn tps Consumer.revokeOne
    (motive := fun d => Ledger [] none d)
    (h.outside (commits_commitOffsets c (c.pending (some tps)) ok).outside)
    fun d hd tp _ => hd.revokeOne tp
  exact hfold.outside (outside_rest _ _ _ _ _ _ _)

end Rebalancing

end Consumer

end Kafka
end GoGuard
