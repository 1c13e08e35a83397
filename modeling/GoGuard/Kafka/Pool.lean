import GoGuard.Kafka.CommitPoint

/-!
# The pool of a consumer

The bookkeeping around the workers: `inflight` counts the tasks in the two
channels, with the workers and in line behind a key, and a line of waiting
messages has a message of its key in flight, whose result will start or drop
it.  The exception is a message that stops the consumer as unstorable: its
result is consumed and its line stays.

The invariant is stated with a number of tasks that are counted but in no
queue, and with tasks that count as in flight, so that it can be followed
through the middle of a method.
-/

namespace GoGuard
namespace Kafka

open Lib Dlq List

namespace Consumer

/-- The generation of the current assignment of a partition. -/
def genOf (c : Consumer) (tp : TopicPartition) : Option Nat :=
  (c.parts.get tp).map Partition.gen

section Outside

/-- A change outside the pool: the channels, the lines, the counters and the generations are
the same. -/
structure Outside (c d : Consumer) : Prop where
  inflight : d.inflight = c.inflight
  work : d.work = c.work
  running : d.running = c.running
  results : d.results = c.results
  queues : d.keyQueues = c.keyQueues
  closed : d.workClosed = c.workClosed
  stopping : d.stopping = c.stopping
  parts : ∀ tp, (d.parts.get tp).map (fun p => (p.gen, p.inflight)) =
    (c.parts.get tp).map fun p => (p.gen, p.inflight)

variable {c d e : Consumer} {tp : TopicPartition} {p q : Partition} {cfg : Config}

theorem Outside.trans (h₁ : Outside c d) (h₂ : Outside d e) : Outside c e :=
  ⟨h₂.inflight.trans h₁.inflight, h₂.work.trans h₁.work, h₂.running.trans h₁.running,
    h₂.results.trans h₁.results, h₂.queues.trans h₁.queues, h₂.closed.trans h₁.closed,
    h₂.stopping.trans h₁.stopping, fun tp => (h₂.parts tp).trans (h₁.parts tp)⟩

theorem Outside.gens (h : Outside c d) (tp : TopicPartition) : d.genOf tp = c.genOf tp := by
  have hsame := congrArg (Option.map Prod.fst) (h.parts tp)
  simpa [genOf, Option.map_map, Function.comp_def] using hsame

theorem outside_rest (c : Consumer) (safe committed : GoMap TopicPartition Int)
    (n gen : Nat) (backlog : List Task) (hist : List Event) :
    Outside c { c with
      safe := safe, committed := committed, sinceCommit := n, gen := gen,
      backlog := backlog, hist := hist } :=
  ⟨rfl, rfl, rfl, rfl, rfl, rfl, rfl, fun _ => rfl⟩

theorem outside_setPart (hget : c.parts.get tp = some p) (hgen : q.gen = p.gen)
    (hinflight : q.inflight = p.inflight) : Outside c (c.setPart tp q) := by
  refine ⟨rfl, rfl, rfl, rfl, rfl, rfl, rfl, ?_⟩
  intro tp'
  unfold setPart
  rw [GoMap.get_set]
  split
  · next heq =>
    rw [heq, hget, Option.map_some, Option.map_some, hgen, hinflight]
  · rfl

theorem inflight_advance (n : Nat) (p : Partition) : (advance n p).inflight = p.inflight := by
  induction n generalizing p with
  | zero => rfl
  | succ n ih =>
    unfold advance
    split
    · exact ih _
    · rfl

theorem outside_markDone (hget : c.parts.get tp = some p) (offset : Nat) :
    Outside c (c.markDone tp p offset) := by
  have hset : Outside c (c.setPart tp (advanced p offset)) :=
    outside_setPart hget (advance_spec _ _).1 (inflight_advance _ _)
  exact hset.trans (outside_rest _ _ _ _ _ _ _)

theorem outside_noteFailure
    (c : Consumer) (ctxDone : Bool) (tp : TopicPartition) (r : TaskResult) :
    Outside c (c.noteFailure ctxDone tp r).1 :=
  noteFailure_keeps (outside_rest c _ _ _ _ _ _) (fun _ hp => outside_setPart hp rfl rfl) ctxDone

theorem outside_rewindIfDrained (c : Consumer) (tp : TopicPartition) (seekOk : Bool) :
    Outside c (c.rewindIfDrained tp seekOk).1 := by
  have hdrop : Outside c (c.dropBacklog [tp]) := outside_rest c _ _ _ _ _ _
  exact rewindIfDrained_keeps (outside_rest c _ _ _ _ _ _) hdrop
    (fun p hp _ _ => hdrop.trans (outside_setPart (p := p) hp rfl rfl)) seekOk

theorem outside_accept (cfg : Config) (c : Consumer) (m : Message) (seekOk : Bool) :
    Outside c (accept cfg c m seekOk).1 := by
  have hreach : ∀ p, c.parts.get m.tp = some p → Outside c (c.setPart m.tp (p.reach m.offset)) :=
    fun p hp => outside_setPart hp rfl rfl
  exact accept_keeps (outside_rest c _ _ _ _ _ _) (fun p hp _ _ _ => hreach p hp)
    (fun p hp _ _ _ => (hreach p hp).trans (outside_rest _ _ _ _ _ _ _)) seekOk

theorem Commits.outside (h : Commits c d) : Outside c d := by
  obtain ⟨es, m, n, -⟩ := h
  exact outside_rest c _ _ _ _ _ _

/-- `complete`, for what does not depend on changes outside the pool: a result is counted off,
and then starts the next message of its key or drops its line. -/
theorem complete_pool {P Q : Consumer → Prop} {r : TaskResult} {ctxDone seekOk : Bool}
    (hstale : (∀ p, c.parts.get r.task.tp = some p → p.gen ≠ r.task.gen) → Q c.landed)
    (hland : ∀ p, c.parts.get r.task.tp = some p → p.gen = r.task.gen →
      P (c.landed.setPart r.task.tp p.landed))
    (hhalt : ∀ d, P d → Q d) (hP : ∀ d e, P d → Outside d e → P e)
    (hQ : ∀ d e, Q d → Outside d e → Q e) (hreleased : ∀ d, P d → Q (released cfg d r.task).1)
    (hdrop : ∀ d, P d → Q (d.dropFollowers r.task)) :
    Q (complete cfg c ctxDone r seekOk).1 := by
  refine complete_keeps (P := P) (Q := fun x => Q x.1) hstale hland (fun d hd _ _ => hhalt d hd)
    (fun d hd _ => hP _ _ hd (outside_rest d _ _ _ _ _ _)) ?_ ?_
  · intro d p hd hp _ _
    exact andThen_keeps (hreleased _ (hP _ _ hd (outside_markDone hp _)))
      fun e he => hQ _ _ he (outside_rewindIfDrained e _ seekOk)
  · intro d hd _ _
    exact andThen_keeps (hQ _ _ (hdrop d hd) (outside_noteFailure _ ctxDone _ r))
      fun e he => hQ _ _ he (outside_rewindIfDrained e _ seekOk)

end Outside

/-- The task is in a channel or with a worker. -/
def Flying (c : Consumer) (t : Task) : Prop :=
  t ∈ c.work ∨ t ∈ c.running ∨ ∃ r ∈ c.results, r.task = t

/-- The bookkeeping of the pool, with `extra` tasks counted as in flight and
`n` tasks counted in `inflight` only.  When `strict` holds, every busy key has a
task in flight; otherwise only the keys with a waiting message. -/
structure PoolInv (strict : Prop) (n : Int) (extra : List Task) (c : Consumer) : Prop where
  count : c.inflight =
    c.work.length + c.running.length + c.results.length
      + c.keyQueues.total List.length + n
  queued : ∀ k q, c.keyQueues.get k = some q →
    ∀ t ∈ q, keyOf t = k ∧ c.genOf k.tp = some t.gen
  keyed : ∀ k q, c.keyQueues.get k = some q → k.key ≠ []
  head : ∀ k q, c.keyQueues.get k = some q → strict ∨ q ≠ [] →
    ∃ t, (c.Flying t ∨ t ∈ extra) ∧ keyOf t = k ∧ c.genOf k.tp = some t.gen

/-- What `PoolInv` says of one line. -/
structure LineOk (strict : Prop) (extra : List Task) (c : Consumer) (k : FailedKey)
    (q : List Task) : Prop where
  queued : ∀ t ∈ q, keyOf t = k ∧ c.genOf k.tp = some t.gen
  keyed : k.key ≠ []
  head : strict ∨ q ≠ [] →
    ∃ t, (c.Flying t ∨ t ∈ extra) ∧ keyOf t = k ∧ c.genOf k.tp = some t.gen

theorem poolInv_new : PoolInv True 0 [] Consumer.new := by
  refine ⟨rfl, ?_, ?_, ?_⟩
  · intro k q hq
    simp [Consumer.new] at hq
  · intro k q hq
    simp [Consumer.new] at hq
  · intro k q hq
    simp [Consumer.new] at hq

section Frames

variable {c d : Consumer} {tp : TopicPartition} {strict : Prop} {n : Int} {extra : List Task}
  {k : FailedKey} {q : List Task}

theorem PoolInv.line (h : PoolInv strict n extra c) (hq : c.keyQueues.get k = some q) :
    LineOk strict extra c k q :=
  ⟨h.queued k q hq, h.keyed k q hq, h.head k q hq⟩

theorem poolInv_of_lines (hcount : c.inflight = c.work.length + c.running.length +
      c.results.length + c.keyQueues.total List.length + n)
    (hline : ∀ k q, c.keyQueues.get k = some q → LineOk strict extra c k q) :
    PoolInv strict n extra c :=
  ⟨hcount, fun k q hq => (hline k q hq).queued, fun k q hq => (hline k q hq).keyed,
    fun k q hq => (hline k q hq).head⟩

theorem LineOk.mono {extra' : List Task} (h : LineOk strict extra c k q)
    (hgen : d.genOf k.tp = c.genOf k.tp)
    (hfly : ∀ t, keyOf t = k → c.Flying t ∨ t ∈ extra → d.Flying t ∨ t ∈ extra') :
    LineOk strict extra' d k q := by
  refine ⟨by rw [hgen]; exact h.queued, h.keyed, fun hs => ?_⟩
  obtain ⟨t, ht, hkey, hcur⟩ := h.head hs
  exact ⟨t, hfly t hkey ht, hkey, hgen.trans hcur⟩

theorem genOf_eq_of_core (h : d.coreOf tp = c.coreOf tp) : d.genOf tp = c.genOf tp := by
  have hgen : ∀ e : Consumer, e.genOf tp = (e.coreOf tp).map Core.gen := by
    intro e
    unfold genOf coreOf
    cases e.parts.get tp <;> rfl
  rw [hgen, hgen, h]

theorem PoolInv.frame (h : PoolInv strict n extra c) (hinflight : d.inflight = c.inflight)
    (hwork : d.work = c.work) (hrunning : d.running = c.running) (hresults : d.results = c.results)
    (hqueues : d.keyQueues = c.keyQueues) (hgen : ∀ tp, d.genOf tp = c.genOf tp) :
    PoolInv strict n extra d := by
  refine poolInv_of_lines ?_ fun k q hq => (h.line (hqueues ▸ hq)).mono (hgen _) ?_
  · rw [hinflight, hwork, hrunning, hresults, hqueues]
    exact h.count
  · intro t _ ht
    unfold Flying
    rw [hwork, hrunning, hresults]
    exact ht

theorem PoolInv.outside (h : PoolInv strict n extra c) (ho : Outside c d) :
    PoolInv strict n extra d :=
  h.frame ho.inflight ho.work ho.running ho.results ho.queues ho.gens

theorem PoolInv.weaken {strict' : Prop} (h : PoolInv strict n extra c) (hs : strict' → strict) :
    PoolInv strict' n extra c :=
  ⟨h.count, h.queued, h.keyed, fun k q hq hor => h.head k q hq (hor.imp hs id)⟩

theorem genOf_setPart {p q : Partition} (hget : c.parts.get tp = some p) (hgen : q.gen = p.gen)
    (tp' : TopicPartition) : (c.setPart tp q).genOf tp' = c.genOf tp' := by
  unfold genOf setPart
  rw [GoMap.get_set]
  split
  · next heq =>
    subst heq
    simp [hget, hgen]
  · rfl

end Frames

section Dropping

theorem dropKey_pool (c : Consumer) (tp : TopicPartition) (keep : Bool) (k : FailedKey) :
    (dropKey tp keep c k).work = c.work ∧
    (dropKey tp keep c k).running = c.running ∧
    (dropKey tp keep c k).workClosed = c.workClosed ∧
    (dropKey tp keep c k).inflight - ((dropKey tp keep c k).keyQueues.total List.length : Int)
      = c.inflight - (c.keyQueues.total List.length : Int) := by
  refine ⟨rfl, rfl, rfl, ?_⟩
  unfold dropKey
  cases keep with
  | true =>
    have hset := GoMap.total_set List.length c.keyQueues k []
    cases hq : c.keyQueues.get k with
    | none =>
      simp only [hq, Option.map_none, Option.getD_none, length_nil] at hset ⊢
      simp only [if_true]
      omega
    | some q =>
      simp only [hq, Option.map_some, Option.getD_some, length_nil] at hset ⊢
      simp only [if_true]
      omega
  | false =>
    have hdel := GoMap.total_del List.length c.keyQueues k
    cases hq : c.keyQueues.get k with
    | none =>
      simp only [hq, Option.map_none, Option.getD_none, length_nil] at hdel ⊢
      simp only [Bool.false_eq_true, if_false]
      omega
    | some q =>
      simp only [hq, Option.map_some, Option.getD_some] at hdel ⊢
      simp only [Bool.false_eq_true, if_false]
      omega

theorem dropQueued_pool (c : Consumer) (tp : TopicPartition) (only : Option Bytes) :
    (c.dropQueued tp only).work = c.work ∧
    (c.dropQueued tp only).running = c.running ∧
    (c.dropQueued tp only).workClosed = c.workClosed ∧
    (c.dropQueued tp only).inflight
        - ((c.dropQueued tp only).keyQueues.total List.length : Int)
      = c.inflight - (c.keyQueues.total List.length : Int) := by
  refine List.foldlRecOn
    (motive := fun d : Consumer =>
      d.work = c.work ∧ d.running = c.running ∧ d.workClosed = c.workClosed ∧
      d.inflight - (d.keyQueues.total List.length : Int)
        = c.inflight - (c.keyQueues.total List.length : Int))
    _ _ ⟨rfl, rfl, rfl, rfl⟩ ?_
  rintro d ⟨hwork, hrun, hclosed, hslack⟩ k -
  obtain ⟨hwork', hrun', hclosed', hslack'⟩ := dropKey_pool d tp only.isSome k
  exact ⟨hwork'.trans hwork, hrun'.trans hrun, hclosed'.trans hclosed,
    hslack'.trans hslack⟩

theorem get_foldl_dropKey (tp : TopicPartition) (keep : Bool) (ks : List FailedKey) (c : Consumer)
    (k : FailedKey) :
    (ks.foldl (dropKey tp keep) c).keyQueues.get k =
      if k ∈ ks then (if keep then some [] else none) else c.keyQueues.get k := by
  induction ks generalizing c with
  | nil =>
    simp
  | cons k' ks ih =>
    rw [foldl_cons, ih]
    by_cases hks : k ∈ ks
    · simp [hks]
    · by_cases heq : k = k'
      · subst heq
        cases keep <;> simp [hks, dropKey]
      · cases keep <;> simp [hks, heq, dropKey]

theorem get_dropQueued_none (c : Consumer) (tp : TopicPartition) (k : FailedKey) :
    (c.dropQueued tp none).keyQueues.get k =
      if k.tp = tp then none else c.keyQueues.get k := by
  unfold dropQueued
  rw [get_foldl_dropKey]
  by_cases htp : k.tp = tp
  · simp only [htp, if_true]
    split
    · rfl
    · next hmem =>
      simp only [mem_filter, htp, decide_true, Bool.and_self, and_true] at hmem
      cases hq : c.keyQueues.get k with
      | none => rfl
      | some q => exact absurd (GoMap.mem_keys_iff.mpr ⟨q, hq⟩) hmem
  · rw [if_neg htp, if_neg]
    simp [htp]

theorem get_dropQueued_some (c : Consumer) (tp : TopicPartition) (key : Bytes) (k : FailedKey)
    (hne : k ≠ ⟨tp, key⟩) : (c.dropQueued tp (some key)).keyQueues.get k = c.keyQueues.get k := by
  unfold dropQueued
  rw [get_foldl_dropKey, if_neg]
  intro hmem
  simp only [mem_filter, Bool.and_eq_true, decide_eq_true_eq] at hmem
  refine hne ?_
  cases k
  simp_all

theorem get_dropQueued_self (c : Consumer) (tp : TopicPartition) (key : Bytes) :
    ((c.dropQueued tp (some key)).keyQueues.get ⟨tp, key⟩).getD [] = [] := by
  unfold dropQueued
  rw [get_foldl_dropKey]
  cases hq : c.keyQueues.get ⟨tp, key⟩ with
  | none => by_cases hmem : (⟨tp, key⟩ : FailedKey) ∈ c.keyQueues.keys <;> simp [hmem]
  | some q =>
    have hmem : (⟨tp, key⟩ : FailedKey) ∈ c.keyQueues.keys :=
      GoMap.mem_keys_iff.mpr ⟨q, hq⟩
    simp [hmem]

end Dropping

section Landing

variable {strict : Prop} {n : Int} {extra : List Task} {c : Consumer} {t : Task}

theorem length_of_getD {o : Option (List Task)} (hempty : o.getD [] = []) :
    (o.map List.length).getD 0 = 0 := by
  cases o with
  | none => rfl
  | some q => simpa using hempty

theorem PoolInv.forget (h : PoolInv strict n [t] c)
    (hfree : ∀ q, c.keyQueues.get (keyOf t) = some q → strict ∨ q ≠ [] →
      c.genOf t.tp ≠ some t.gen) :
    PoolInv strict n [] c := by
  refine ⟨h.count, h.queued, h.keyed, ?_⟩
  intro k q hq hs
  obtain ⟨x, hx, hkey, hcur⟩ := h.head k q hq hs
  rcases hx with hx | hx
  · exact ⟨x, .inl hx, hkey, hcur⟩
  · obtain rfl := mem_singleton.mp hx
    subst hkey
    exact absurd hcur (hfree q hq hs)

theorem PoolInv.forget_stale (h : PoolInv strict n [t] c) (hstale : c.genOf t.tp ≠ some t.gen) :
    PoolInv strict n [] c :=
  h.forget fun _ _ _ => hstale

theorem PoolInv.forget_unkeyed (h : PoolInv strict n [t] c) (hkey : t.inp.orderKey = []) :
    PoolInv strict n [] c := by
  refine h.forget ?_
  intro q hq
  exact absurd hkey (h.keyed (keyOf t) q hq)

theorem PoolInv.delKey (h : PoolInv strict n extra c) {k : FailedKey}
    (hempty : (c.keyQueues.get k).getD [] = []) :
    PoolInv strict n extra { c with keyQueues := c.keyQueues.del k } := by
  refine poolInv_of_lines ?_ fun k' q hq => ?_
  · have htotal := GoMap.total_del List.length c.keyQueues k
    have hzero := length_of_getD hempty
    have hcount := h.count
    simp only
    omega
  · simp only [GoMap.get_del] at hq
    split at hq
    · cases hq
    · exact (h.line hq).mono rfl fun _ _ => id

theorem PoolInv.delKey_forget (h : PoolInv strict n [t] c)
    (hempty : (c.keyQueues.get (keyOf t)).getD [] = []) :
    PoolInv strict n [] { c with keyQueues := c.keyQueues.del (keyOf t) } := by
  refine (h.delKey hempty).forget ?_
  intro q hq
  simp at hq

theorem PoolInv.startNext {next : Task} {q : List Task} (h : PoolInv strict n [t] c)
    (hq : c.keyQueues.get (keyOf t) = some (next :: q)) :
    PoolInv strict n []
      { c with keyQueues := c.keyQueues.set (keyOf t) q, work := c.work ++ [next] } := by
  have hline := h.line hq
  refine poolInv_of_lines ?_ fun k q' hq' => ?_
  · have htotal := GoMap.total_set List.length c.keyQueues (keyOf t) q
    simp only [hq, Option.map_some, Option.getD_some, length_cons] at htotal
    have hcount := h.count
    simp only [length_append, length_singleton]
    push_cast
    omega
  · simp only [GoMap.get_set] at hq'
    split at hq'
    · next heq =>
      cases hq'
      subst heq
      refine ⟨fun x hx => hline.queued x (mem_cons_of_mem _ hx), hline.keyed, fun _ => ?_⟩
      exact ⟨next, .inl (.inl (mem_append_right _ (mem_singleton.mpr rfl))),
        hline.queued next mem_cons_self⟩
    · next hne =>
      refine (h.line hq').mono rfl ?_
      rintro x hkey ((hx | hx | hx) | hx)
      · exact .inl (.inl (mem_append_left _ hx))
      · exact .inl (.inr (.inl hx))
      · exact .inl (.inr (.inr hx))
      · obtain rfl := mem_singleton.mp hx
        exact absurd hkey.symm hne

/-- `released` after the result of `t`, when the work channel is open or nobody
waits. -/
theorem PoolInv.released {cfg : Config} (hw : 1 < cfg.workers) (h : PoolInv strict n [t] c)
    (hgo : c.workClosed = false ∨ t.inp.orderKey = [] ∨
      (c.keyQueues.get (keyOf t)).getD [] = []) :
    PoolInv strict n [] (Consumer.released cfg c t).1 ∧
      (Consumer.released cfg c t).2 = .ok := by
  unfold Consumer.released
  split
  · next hnone =>
    have hkey : t.inp.orderKey = [] := by
      rcases hnone with hkey | hone
      · exact hkey
      · omega
    exact ⟨h.forget_unkeyed hkey, rfl⟩
  · next hsome =>
    split
    · next hempty => exact ⟨h.delKey_forget hempty, rfl⟩
    · next next q hq =>
      have hopen : c.workClosed = false := by
        rcases hgo with hopen | hkey | hempty
        · exact hopen
        · exact absurd (.inl hkey) hsome
        · rw [hempty] at hq
          cases hq
      rw [pushWork_open (by exact hopen)]
      exact ⟨h.startNext (line_of_getD hq), rfl⟩

theorem PoolInv.dropFollowers (h : PoolInv strict n [t] c) :
    PoolInv strict n [] (c.dropFollowers t) := by
  unfold Consumer.dropFollowers
  split
  · next hkey => exact h.forget_unkeyed hkey
  · obtain ⟨hwork, hrun, -, hslack⟩ := dropQueued_pool c t.tp (some t.inp.orderKey)
    have hquiet := quiet_dropQueued c t.tp (some t.inp.orderKey)
    have hzero := length_of_getD (get_dropQueued_self c t.tp t.inp.orderKey)
    have hdel := GoMap.total_del List.length
      (c.dropQueued t.tp (some t.inp.orderKey)).keyQueues (keyOf t)
    change _ + (((c.dropQueued t.tp (some t.inp.orderKey)).keyQueues.get
      ⟨t.tp, t.inp.orderKey⟩).map List.length).getD 0 = _ at hdel
    refine poolInv_of_lines ?_ fun k q hq => ?_
    · have hcount := h.count
      simp only [hwork, hrun, hquiet.results]
      omega
    · simp only [GoMap.get_del] at hq
      obtain ⟨hne, hq⟩ := of_unless hq
      rw [get_dropQueued_some c t.tp t.inp.orderKey k hne] at hq
      refine (h.line hq).mono (genOf_eq_of_core (hquiet.core k.tp)) ?_
      intro x hkey hx
      unfold Flying
      simp only [hwork, hrun, hquiet.results]
      rcases hx with hx | hx
      · exact .inl hx
      · obtain rfl := mem_singleton.mp hx
        exact absurd hkey.symm hne

end Landing

section Results

variable {strict : Prop} {n : Int} {extra : List Task} {c : Consumer}

/-- The task belongs to the current assignment of its partition. -/
def Current (c : Consumer) (t : Task) : Prop :=
  c.genOf t.tp = some t.gen

/-- Messages wait in line behind the task. -/
def Waits (c : Consumer) (t : Task) : Prop :=
  t.inp.orderKey ≠ [] ∧ (c.keyQueues.get (keyOf t)).getD [] ≠ []

/-- The result stops the consumer as unstorable. -/
def Halts (cfg : Config) (r : TaskResult) : Prop :=
  r.unstorable = true ∧ cfg.onUnstorable = .halt

/-- The result lets the next message of its key start. -/
def Releases (cfg : Config) (r : TaskResult) : Prop :=
  r.res.safe = true ∨ r.unstorable = true ∧ cfg.onUnstorable = .skip

/-- The result makes `complete` return an error. -/
def StopsRun (cfg : Config) (r : TaskResult) : Prop :=
  Halts cfg r ∨
    r.unstorable = false ∧ r.res.safe = false ∧
      (errIs r.err .errStoreFailed = true ∨ errIs r.err .errClosed = true ∨
        errIs r.err .errCorrupt = true)

instance (c : Consumer) (t : Task) : Decidable (c.Current t) :=
  inferInstanceAs (Decidable (_ = _))

instance (c : Consumer) (t : Task) : Decidable (c.Waits t) :=
  inferInstanceAs (Decidable (_ ∧ _))

instance (cfg : Config) (r : TaskResult) : Decidable (Halts cfg r) :=
  inferInstanceAs (Decidable (_ ∧ _))

instance (cfg : Config) (r : TaskResult) : Decidable (Releases cfg r) :=
  inferInstanceAs (Decidable (_ ∨ _))

instance (cfg : Config) (r : TaskResult) : Decidable (StopsRun cfg r) :=
  inferInstanceAs (Decidable (_ ∨ _))

variable {r : TaskResult} {tp : TopicPartition} {p : Partition} {cfg : Config}

theorem PoolInv.recv {rest : List TaskResult} (h : PoolInv strict 0 [] c)
    (hresults : c.results = r :: rest) : PoolInv strict 1 [r.task] { c with results := rest } := by
  refine ⟨?_, h.queued, h.keyed, ?_⟩
  · have hcount := h.count
    rw [hresults] at hcount
    simp only [length_cons] at hcount
    push_cast at hcount
    simp only
    omega
  · intro k q hq hs
    obtain ⟨x, hx, hkey, hcur⟩ := h.head k q hq hs
    refine ⟨x, ?_, hkey, hcur⟩
    rcases hx with (hx | hx | ⟨r', hr', rfl⟩) | hx
    · exact .inl (.inl hx)
    · exact .inl (.inr (.inl hx))
    · rw [hresults] at hr'
      rcases mem_cons.mp hr' with rfl | hr'
      · exact .inr mem_cons_self
      · exact .inl (.inr (.inr ⟨r', hr', rfl⟩))
    · cases hx

theorem PoolInv.landed (h : PoolInv strict (n + 1) extra c) : PoolInv strict n extra c.landed := by
  refine ⟨?_, h.queued, h.keyed, h.head⟩
  have hcount := h.count
  simp only [Consumer.landed]
  omega

theorem PoolInv.setPart {q : Partition} (h : PoolInv strict n extra c)
    (hget : c.parts.get tp = some p) (hgen : q.gen = p.gen) :
    PoolInv strict n extra (c.setPart tp q) :=
  h.frame rfl rfl rfl rfl rfl (genOf_setPart hget hgen)

theorem rewindIfDrained_ne_panic (c : Consumer) (tp : TopicPartition) (seekOk : Bool) :
    (c.rewindIfDrained tp seekOk).2 ≠ .panic := by
  unfold Consumer.rewindIfDrained rewind
  split
  · simp
  · split
    · split <;> simp
    · simp

/-- `finishSafe` when the work channel is open or nobody waits. -/
theorem PoolInv.finishSafe {t : Task} (hw : 1 < cfg.workers) (h : PoolInv strict n [t] c)
    (hget : c.parts.get t.tp = some p) (hgo : c.workClosed = false ∨ ¬ c.Waits t) (seekOk : Bool) :
    PoolInv strict n [] (Consumer.finishSafe cfg c p t seekOk).1 ∧
      (Consumer.finishSafe cfg c p t seekOk).2 ≠ .panic := by
  have hdone := h.outside (outside_markDone hget t.m.offset)
  have hgo' : (c.markDone t.tp p t.m.offset).workClosed = false ∨ t.inp.orderKey = [] ∨
      ((c.markDone t.tp p t.m.offset).keyQueues.get (keyOf t)).getD [] = [] := by
    refine hgo.imp id ?_
    intro hwait
    by_contra hno
    rw [not_or] at hno
    exact hwait hno
  obtain ⟨hrel, hret⟩ := hdone.released hw hgo'
  unfold Consumer.finishSafe andThen
  rw [hret]
  exact ⟨hrel.outside (outside_rewindIfDrained _ _ _), rewindIfDrained_ne_panic _ _ _⟩

theorem PoolInv.finishFailed (h : PoolInv strict n [r.task] c) (ctxDone seekOk : Bool) :
    PoolInv strict n [] (c.finishFailed ctxDone r seekOk).1 ∧
      (c.finishFailed ctxDone r seekOk).2 ≠ .panic := by
  have hnote := h.dropFollowers.outside (outside_noteFailure _ ctxDone r.task.tp r)
  refine ⟨andThen_keeps hnote fun d hd => hd.outside (outside_rewindIfDrained _ _ _), ?_⟩
  unfold Consumer.finishFailed andThen
  split
  · exact rewindIfDrained_ne_panic _ _ _
  · unfold Consumer.noteFailure
    split
    · simp
    · split
      · simp
      · split
        · simp
        · split <;> simp

/-- `complete` on a received result: it does not panic when the work channel is
open or the result starts nobody, and it accounts for the whole line of its key
unless it halts the consumer. -/
theorem PoolInv.complete (hw : 1 < cfg.workers) (h : PoolInv strict 1 [r.task] c)
    (hgo : c.workClosed = false ∨ ¬ (c.Current r.task ∧ Releases cfg r ∧ c.Waits r.task))
    (ctxDone seekOk : Bool) :
    (Consumer.complete cfg c ctxDone r seekOk).2 ≠ .panic ∧
    ((Consumer.complete cfg c ctxDone r seekOk).2 = .ok →
      PoolInv strict 0 [] (Consumer.complete cfg c ctxDone r seekOk).1) ∧
    (¬ (c.Current r.task ∧ Halts cfg r ∧ c.Waits r.task) →
      PoolInv False 0 [] (Consumer.complete cfg c ctxDone r seekOk).1) := by
  have hland : PoolInv strict 0 [r.task] c.landed := PoolInv.landed (n := 0) h
  -- every case but the halt restores the invariant, also the weak one
  have hdone : ∀ x : Consumer × Ret, PoolInv strict 0 [] x.1 ∧ x.2 ≠ .panic →
      x.2 ≠ .panic ∧ (x.2 = .ok → PoolInv strict 0 [] x.1) ∧
        (¬ (c.Current r.task ∧ Halts cfg r ∧ c.Waits r.task) → PoolInv False 0 [] x.1) :=
    fun x hx => ⟨hx.2, fun _ => hx.1, fun _ => hx.1.weaken False.elim⟩
  refine complete_keeps
    (P := fun d => PoolInv strict 0 [r.task] d ∧ c.Current r.task ∧
      d.workClosed = c.workClosed ∧ d.keyQueues = c.keyQueues)
    (Q := fun x => x.2 ≠ .panic ∧ (x.2 = .ok → PoolInv strict 0 [] x.1) ∧
      (¬ (c.Current r.task ∧ Halts cfg r ∧ c.Waits r.task) → PoolInv False 0 [] x.1))
    ?_ ?_ ?_ ?_ ?_ ?_
  · intro hstale
    refine hdone _ ⟨hland.forget_stale ?_, by rintro ⟨⟩⟩
    intro hcur
    obtain ⟨p, hp, hgen⟩ := Option.map_eq_some_iff.mp hcur
    exact hstale p hp hgen
  · intro p hp hgen
    exact ⟨hland.setPart (q := p.landed) hp rfl, by simp [Current, genOf, hp, hgen], rfl, rfl⟩
  · rintro d ⟨hd, hcur, -, hqueues⟩ hun hhalt
    refine ⟨by rintro ⟨⟩, by rintro ⟨⟩, ?_⟩
    intro hno
    refine (hd.weaken False.elim).forget ?_
    rintro q hq (hfalse | hne)
    · exact hfalse.elim
    · refine absurd ⟨hcur, ⟨hun, hhalt⟩, hd.keyed _ _ hq, ?_⟩ hno
      rw [hqueues] at hq
      simpa [hq] using hne
  · rintro d ⟨hd, hrest⟩ -
    exact ⟨hd.outside (outside_rest d _ _ _ _ _ _), hrest⟩
  · rintro d p ⟨hd, hcur, hclosed, hqueues⟩ hget - hrel
    refine hdone _ (hd.finishSafe hw hget ?_ seekOk)
    unfold Waits
    rw [hclosed, hqueues]
    exact hgo.imp id fun hno hwait => hno ⟨hcur, hrel, hwait⟩
  · rintro d ⟨hd, -⟩ - -
    exact hdone _ (hd.finishFailed ctxDone seekOk)

end Results

section Sending

variable {strict : Prop} {n : Int} {extra : List Task} {c : Consumer} {t : Task}

theorem PoolInv.pushWork (h : PoolInv strict (n + 1) [t] c) (hopen : c.workClosed = false) :
    PoolInv strict n [] (c.pushWork t).1 ∧ (c.pushWork t).2 = .ok := by
  rw [pushWork_open hopen]
  refine ⟨⟨?_, h.queued, h.keyed, ?_⟩, rfl⟩
  · have hcount := h.count
    simp only [length_append, length_singleton]
    push_cast
    omega
  · intro k q hq hs
    obtain ⟨x, hx, hkey, hcur⟩ := h.head k q hq hs
    refine ⟨x, .inl ?_, hkey, hcur⟩
    rcases hx with (hx | hx) | hx
    · exact .inl (mem_append_left _ hx)
    · exact .inr hx
    · exact .inl (mem_append_right _ hx)

theorem PoolInv.send (h : PoolInv strict (n + 1) [] c) (hs : strict) (hopen : c.workClosed = false)
    (hcur : c.Current t) : PoolInv strict n [] (c.send t).1 ∧ (c.send t).2 = .ok := by
  have hmore : PoolInv strict (n + 1) [t] c :=
    ⟨h.count, h.queued, h.keyed, fun k q hq hor => by
      obtain ⟨x, hx, hrest⟩ := h.head k q hq hor
      exact ⟨x, hx.imp id (fun hno => by cases hno), hrest⟩⟩
  unfold Consumer.send
  split
  · exact hmore.pushWork hopen
  · next hkey =>
    split
    · next q hq =>
      refine ⟨poolInv_of_lines ?_ fun k q' hq' => ?_, rfl⟩
      · have htotal := GoMap.total_set List.length c.keyQueues (keyOf t) (q ++ [t])
        simp only [hq, Option.map_some, Option.getD_some, length_append,
          length_singleton] at htotal
        have hcount := h.count
        simp only
        omega
      · simp only [GoMap.get_set] at hq'
        split at hq'
        · next heq =>
          cases hq'
          subst heq
          refine ⟨?_, hkey, fun _ => (h.line hq).head (.inl hs)⟩
          intro x hx
          rcases mem_append.mp hx with hx | hx
          · exact (h.line hq).queued x hx
          · obtain rfl := mem_singleton.mp hx
            exact ⟨rfl, hcur⟩
        · exact (h.line hq').mono rfl fun _ _ => id
    · next hnone =>
      have hset : PoolInv strict (n + 1) [t]
          { c with keyQueues := c.keyQueues.set (keyOf t) [] } := by
        refine poolInv_of_lines ?_ fun k q' hq' => ?_
        · have htotal := GoMap.total_set List.length c.keyQueues (keyOf t) []
          simp only [hnone, Option.map_none, Option.getD_none, length_nil] at htotal
          have hcount := h.count
          simp only
          omega
        · simp only [GoMap.get_set] at hq'
          split at hq'
          · next heq =>
            cases hq'
            subst heq
            exact ⟨by rintro _ ⟨⟩, hkey, fun _ => ⟨t, .inr mem_cons_self, rfl, hcur⟩⟩
          · exact (hmore.line hq').mono rfl fun _ _ => id
      exact hset.pushWork hopen

theorem PoolInv.dispatchOne {cfg : Config} (h : PoolInv strict 0 [] c) (t : Task) (rest : List Task)
    (hw : 1 < cfg.workers) (hs : strict) (hopen : c.workClosed = false)
    (ctxDone : Bool) (res : Result) (err : Option Error) (seekOk : Bool) :
    PoolInv strict 0 [] (c.dispatchOne cfg ctxDone t rest res err seekOk).1 ∧
      (c.dispatchOne cfg ctxDone t rest res err seekOk).2 = .ok := by
  have hdrop : PoolInv strict 0 [] { c with backlog := rest } :=
    h.outside (outside_rest c _ _ _ _ _ _)
  unfold Consumer.dispatchOne
  split
  · exact ⟨hdrop, rfl⟩
  · next p hp =>
    split
    · exact ⟨hdrop, rfl⟩
    · next hgo =>
      rw [if_neg (by omega)]
      have hgen : p.gen = t.gen := by
        by_contra hne
        exact hgo (.inl hne)
      have hpart := h.setPart (q := { p with inflight := p.inflight + 1 }) hp rfl
      have hstart : PoolInv strict (0 + 1) [] (c.started t p rest) := by
        refine ⟨?_, hpart.queued, hpart.keyed, hpart.head⟩
        have hcount := h.count
        simp only [Consumer.started]
        omega
      refine hstart.send hs hopen ?_
      simp [Current, genOf, Consumer.started, hgen]

theorem PoolInv.take {rest : List Task} (h : PoolInv strict n extra c)
    (hwork : c.work = t :: rest) :
    PoolInv strict n extra { c with work := rest, running := c.running ++ [t] } := by
  refine ⟨?_, h.queued, h.keyed, ?_⟩
  · have hcount := h.count
    rw [hwork] at hcount
    simp only [length_cons] at hcount
    simp only [length_append, length_singleton]
    push_cast at hcount ⊢
    omega
  · intro k q hq hs
    obtain ⟨x, hx, hrest⟩ := h.head k q hq hs
    refine ⟨x, ?_, hrest⟩
    rcases hx with (hx | hx | hx) | hx
    · rw [hwork] at hx
      rcases mem_cons.mp hx with rfl | hx
      · exact .inl (.inr (.inl (mem_append_right _ (mem_singleton.mpr rfl))))
      · exact .inl (.inl hx)
    · exact .inl (.inr (.inl (mem_append_left _ hx)))
    · exact .inl (.inr (.inr hx))
    · exact .inr hx

theorem PoolInv.finish {i : Nat} (h : PoolInv strict n extra c) (hrun : c.running[i]? = some t)
    (res : Result) (err : Option Error) :
    PoolInv strict n extra { c.logFinished t res with
      results := c.results ++ [⟨t, res, err⟩]
      running := c.running.eraseIdx i } := by
  obtain ⟨hi, hit⟩ := List.getElem?_eq_some_iff.mp hrun
  refine ⟨?_, h.queued, h.keyed, ?_⟩
  · have hcount := h.count
    have hlen := length_eraseIdx_of_lt hi
    simp only [Consumer.logFinished, length_append, length_singleton, hlen]
    push_cast [Nat.sub_add_cancel (Nat.one_le_of_lt hi)]
    omega
  · intro k q hq hs
    obtain ⟨x, hx, hrest⟩ := h.head k q hq hs
    refine ⟨x, ?_, hrest⟩
    rcases hx with (hx | hx | ⟨r, hr, hrx⟩) | hx
    · exact .inl (.inl hx)
    · -- the finished task is now in the result channel
      obtain ⟨j, hj, rfl⟩ := getElem_of_mem hx
      by_cases hij : j = i
      · subst hij
        exact .inl (.inr (.inr
          ⟨_, mem_append_right _ (mem_singleton.mpr rfl), hit.symm⟩))
      · exact .inl (.inr (.inl (mem_eraseIdx_iff_getElem.mpr ⟨j, hj, hij, rfl⟩)))
    · exact .inl (.inr (.inr ⟨r, mem_append_left _ hr, hrx⟩))
    · exact .inr hx

end Sending

section Rebalancing

variable {strict : Prop} {n : Int} {extra : List Task} {c : Consumer}

theorem PoolInv.onAssigned {tps : List TopicPartition} (h : PoolInv strict n extra c)
    (hidle : ∀ k q, c.keyQueues.get k = some q → k.tp ∈ tps → q = [] ∧ ¬ strict) :
    PoolInv strict n extra (c.onAssigned tps) := by
  induction tps generalizing c with
  | nil => exact h
  | cons tp tps ih =>
    refine ih (c := c.newPartition tp) (poolInv_of_lines h.count fun k q hq => ?_) ?_
    · by_cases heq : k.tp = tp
      · obtain ⟨rfl, hno⟩ := hidle k q hq (heq ▸ mem_cons_self)
        exact ⟨nofun, h.keyed k [] hq, fun hs => (hs.elim hno (absurd rfl)).elim⟩
      · exact (h.line hq).mono (by simp [genOf, newPartition, heq]) fun _ _ => id
    · intro k q hq hmem
      exact hidle k q hq (mem_cons_of_mem _ hmem)

theorem PoolInv.idle (h : PoolInv True n extra c) {k : FailedKey} {q : List Task}
    (hq : c.keyQueues.get k = some q) (hnone : c.parts.get k.tp = none) : False := by
  obtain ⟨x, -, -, hcur⟩ := h.head k q hq (.inl trivial)
  simp [genOf, hnone] at hcur

theorem PoolInv.revokeOne (h : PoolInv strict n extra c) (tp : TopicPartition) :
    PoolInv strict n extra (c.revokeOne tp) := by
  -- the consumer after the three deletions and before `dropQueued`
  have hmid : ∀ d : Consumer,
      d = { c with
        parts := c.parts.del tp
        safe := c.safe.del tp
        committed := c.committed.del tp } →
      PoolInv strict n extra (d.dropQueued tp none) := by
    intro d hd
    obtain ⟨hwork, hrun, -, hslack⟩ := dropQueued_pool d tp none
    have hquiet := quiet_dropQueued d tp none
    refine poolInv_of_lines ?_ fun k q hq => ?_
    · have hcount := h.count
      rw [hwork, hrun, hquiet.results]
      rw [hd] at hslack ⊢
      simp only at hslack ⊢
      omega
    · rw [get_dropQueued_none] at hq
      obtain ⟨hne, hq⟩ := of_unless hq
      rw [hd] at hq
      refine (h.line hq).mono ?_ ?_
      · rw [genOf_eq_of_core (hquiet.core k.tp)]
        simp [genOf, hd, hne]
      · intro x _
        unfold Flying
        rw [hwork, hrun, hquiet.results, hd]
        exact id
  exact hmid _ rfl

theorem PoolInv.onRevoked (h : PoolInv strict n extra c) (tps : List TopicPartition) (ok : Bool) :
    PoolInv strict n extra (c.onRevoked tps ok) := by
  have hfold := List.foldlRecOn tps Consumer.revokeOne
    (motive := fun d => PoolInv strict n extra d)
    (h.outside (commits_commitOffsets c (c.pending (some tps)) ok).outside)
    fun d hd tp _ => hd.revokeOne tp
  exact hfold.outside (outside_rest _ _ _ _ _ _ _)

theorem accept_ne_panic (cfg : Config) (c : Consumer) (m : Message) (seekOk : Bool) :
    (accept cfg c m seekOk).2 ≠ .panic := by
  unfold accept
  split
  · rintro ⟨⟩
  · split
    · rintro ⟨⟩
    · split
      · rintro ⟨⟩
      · split
        · split <;> rintro ⟨⟩
        · split <;> rintro ⟨⟩

end Rebalancing

end Consumer

end Kafka
end GoGuard
