import GoGuard.Kafka.Applied

/-!
# Reading the log of a partition

A client serves the messages a partition retains: after an assignment, a
delivery or a `Seek` it delivers the first retained message at or after its
position.  `accept` takes only the message right after the last one it took, so
what the consumer reads depends on whether the retained offsets have holes.

`Feed` is the system of `Run` with such a client for one partition.  `Still`
says once what a step that delivers nothing from the partition leaves alone:
the offset expected next, the accepted offsets, and that no message of the
partition has failed.
-/

namespace GoGuard
namespace Kafka

open Lib Dlq Consumer List

section Log

/-- What a partition retains, in offset order.  Compaction and transaction
markers leave holes. -/
structure Log (tp : TopicPartition) where
  msgs : List Message
  tp_eq : ∀ m ∈ msgs, m.tp = tp
  asc : msgs.Pairwise fun m m' => m.offset < m'.offset

/-- The retained messages at or after a position. -/
def Log.since {tp : TopicPartition} (log : Log tp) (pos : Int) : List Message :=
  log.msgs.filter fun m => pos ≤ m.offset

/-- The message a client at this position delivers. -/
def Log.next {tp : TopicPartition} (log : Log tp) (pos : Int) : Option Message :=
  log.msgs.find? fun m => pos ≤ m.offset

/-- No hole between two retained messages. -/
def Gapless (msgs : List Message) : Prop :=
  msgs.IsChain fun m m' => m'.offset = m.offset + 1

instance (msgs : List Message) : Decidable (Gapless msgs) := by
  unfold Gapless
  infer_instance

variable {msgs : List Message} {pos : Int} {m l : Message} {tp : TopicPartition}

/-- Past the first message at or after a position are the ones behind it. -/
theorem filter_eq_cons_of_find (hasc : msgs.Pairwise fun m m' => m.offset < m'.offset)
    (hfind : msgs.find? (fun m => pos ≤ m.offset) = some m) :
    msgs.filter (fun m => pos ≤ m.offset) =
      m :: msgs.filter fun m' => (m.offset : Int) + 1 ≤ m'.offset := by
  induction msgs with
  | nil => cases hfind
  | cons x msgs ih =>
    obtain ⟨hx, htail⟩ := pairwise_cons.mp hasc
    by_cases hpos : pos ≤ x.offset
    · simp only [List.find?_cons, hpos, decide_true, Option.some.injEq] at hfind
      subst hfind
      have hkeep : ∀ b : Int, b ≤ (x.offset : Int) + 1 →
          msgs.filter (fun m => b ≤ m.offset) = msgs := by
        intro b hb
        refine filter_eq_self.mpr ?_
        intro y hy
        have := hx y hy
        simp only [decide_eq_true_eq]
        omega
      have hself : ¬ (x.offset : Int) + 1 ≤ x.offset := by omega
      simp only [filter_cons, hpos, hself, decide_true, decide_false, if_true]
      rw [hkeep pos (by omega), if_neg (by simp), hkeep _ (le_refl _)]
    · simp only [List.find?_cons, hpos, decide_false] at hfind
      have hlt := hx m (mem_of_find?_eq_some hfind)
      have hself : ¬ (m.offset : Int) + 1 ≤ x.offset := by omega
      simp only [filter_cons, hpos, hself, decide_false]
      exact ih htail hfind

theorem Log.since_of_next {log : Log tp} (hnext : log.next pos = some m) :
    log.since pos = m :: log.since ((m.offset : Int) + 1) :=
  filter_eq_cons_of_find log.asc hnext

theorem Log.asc_since (log : Log tp) (pos : Int) :
    (log.since pos).Pairwise fun m m' => m.offset < m'.offset :=
  log.asc.filter _

/-- The offset after the last message of a list; -1 when nothing was taken. -/
def endOf (msgs : List Message) : Int :=
  match msgs.getLast? with
  | none => -1
  | some m => (m.offset : Int) + 1

@[simp] theorem endOf_append_singleton (msgs : List Message) (m : Message) :
    endOf (msgs ++ [m]) = (m.offset : Int) + 1 := by
  simp [endOf]

theorem Gapless.next_eq {taken rest : List Message} (h : Gapless (taken ++ m :: rest)) :
    endOf taken < 0 ∨ endOf taken = m.offset := by
  cases hlast : taken.getLast? with
  | none => exact .inl (by simp [endOf, hlast])
  | some l =>
    obtain ⟨init, rfl⟩ := List.getLast?_eq_some_iff.mp hlast
    have hstep := (isChain_append.mp h).2.2 l (by simp) m (by simp)
    simp [hstep]

/-- The last message of an ascending list has the highest offset. -/
theorem offset_le_getLast (hasc : msgs.Pairwise fun m m' => m.offset < m'.offset)
    (hlast : msgs.getLast? = some l) (hm : m ∈ msgs) : m.offset ≤ l.offset := by
  obtain ⟨init, rfl⟩ := List.getLast?_eq_some_iff.mp hlast
  rcases mem_append.mp hm with hinit | hself
  · exact ((pairwise_append.mp hasc).2.2 m hinit l (by simp)).le
  · rw [mem_singleton.mp hself]

/-- Without holes every offset from the first message to the last is there. -/
theorem Gapless.exists_offset (h : Gapless (m :: msgs)) (hlast : (m :: msgs).getLast? = some l)
    {o : Nat} (hle : m.offset ≤ o) (hge : o ≤ l.offset) : ∃ m' ∈ m :: msgs, m'.offset = o := by
  induction msgs generalizing m with
  | nil =>
    simp only [List.getLast?_singleton, Option.some.injEq] at hlast
    subst hlast
    exact ⟨m, mem_cons_self, le_antisymm hle hge⟩
  | cons x msgs ih =>
    obtain ⟨hx, htail⟩ := isChain_cons_cons.mp h
    by_cases heq : m.offset = o
    · exact ⟨m, mem_cons_self, heq⟩
    · rw [List.getLast?_cons_cons] at hlast
      obtain ⟨m', hm', ho⟩ := ih htail hlast (by omega)
      exact ⟨m', mem_cons_of_mem _ hm', ho⟩

end Log

section Client

/-- The `Seek` behind a return value. -/
def Ret.seek? : Ret → Option (TopicPartition × Int)
  | .fatal (.seek tp offset) => some (tp, offset)
  | _ => none

/-- The call of `Client.Seek` a move makes.  A method makes at most one, and
returns an error that names it when it fails. -/
def seekOf (cfg : Config) (s : Sys) : Act → Option (TopicPartition × Int)
  | .recv _ =>
    match s.c.results with
    | r :: rest => ({ s.c with results := rest }.complete cfg s.ctxDone r false).2.seek?
    | [] => none
  | .pollMessage m _ =>
    if s.phase = .polling then (s.c.accept cfg m false).2.seek? else none
  | .dispatch res err _ =>
    match s.c.backlog with
    | t :: rest => (s.c.dispatchOne cfg s.ctxDone t rest res err false).2.seek?
    | [] => none
  | _ => none

/-- Whether the client's `Seek` succeeds in this move. -/
def Act.seekOk : Act → Bool
  | .recv seekOk => seekOk
  | .pollMessage _ seekOk => seekOk
  | .dispatch _ _ seekOk => seekOk
  | _ => true

/-- The message of the partition a move delivers. -/
def Act.delivers (tp : TopicPartition) : Act → Option Message
  | .pollMessage m _ => if m.tp = tp then some m else none
  | _ => none

/-- `Run` with the client's position in one partition, and the messages the
loop has taken from it. -/
structure Feed where
  sys : Sys
  pos : Int
  taken : List Message
deriving DecidableEq

variable {tp : TopicPartition}

/-- The client's position after a move. -/
def Feed.posAfter (cfg : Config) (tp : TopicPartition) (s : Feed) (a : Act) : Int :=
  match seekOf cfg s.sys a with
  | some (tp', offset) => if tp' = tp ∧ a.seekOk = true then offset else moved
  | none => moved
where
  moved : Int :=
    match a.delivers tp with
    | some m => (m.offset : Int) + 1
    | none => s.pos

/-- What the loop has taken after a move.  A message that arrives while `Run`
leaves is not looked at. -/
def Feed.takenAfter (tp : TopicPartition) (s : Feed) (a : Act) : List Message :=
  match a.delivers tp with
  | some m => if s.sys.phase = .polling then s.taken ++ [m] else s.taken
  | none => s.taken

/-- One move, where the client delivers the first retained message at or after
its position. -/
def Feed.step (cfg : Config) (log : Log tp) (s : Feed) (a : Act) : Option Feed :=
  if (a.delivers tp).isSome = true ∧ log.next s.pos ≠ a.delivers tp then none
  else
    (Kafka.step cfg s.sys a).map fun t => ⟨t, s.posAfter cfg tp a, s.takenAfter tp a⟩

/-- The partition stays assigned and none of its messages fails. -/
def Steady (cfg : Config) (tp : TopicPartition) (s : Feed) : Act → Prop
  | .revoked tps _ => tp ∉ tps
  | .finish i res _ =>
    match s.sys.c.running[i]? with
    | some t => t.tp = tp → res.safe = true
    | none => True
  | .dispatch res _ _ =>
    -- without a pool the message runs right here
    match s.sys.c.backlog with
    | t :: _ => cfg.workers ≤ 1 → t.tp = tp → res.safe = true
    | [] => True
  | _ => True

instance (cfg : Config) (tp : TopicPartition) (s : Feed) (a : Act) :
    Decidable (Steady cfg tp s a) := by
  unfold Steady
  split
  · infer_instance
  · split <;> infer_instance
  · split <;> infer_instance
  · infer_instance

theorem Feed.step_eq_some {cfg : Config} {log : Log tp} {s t : Feed} {a : Act}
    (hstep : Feed.step cfg log s a = some t) :
    (∀ m, a.delivers tp = some m → log.next s.pos = some m) ∧
      Kafka.step cfg s.sys a = some t.sys ∧
      t.pos = s.posAfter cfg tp a ∧ t.taken = s.takenAfter tp a := by
  obtain ⟨hserve, hstep⟩ := of_unless hstep
  obtain ⟨u, hu, rfl⟩ := Option.map_eq_some_iff.mp hstep
  refine ⟨?_, hu, rfl, rfl⟩
  intro m hm
  by_contra hno
  exact hserve ⟨by simp [hm], fun heq => hno (heq.trans hm)⟩

end Client

/-- What decides whether the next message of a partition is accepted. -/
structure Reading where
  gen : Nat
  next : Int
  failedAt : Int
deriving DecidableEq

def Partition.reading (p : Partition) : Reading :=
  ⟨p.gen, p.next, p.failedAt⟩

namespace Consumer

section Still

variable {tp : TopicPartition} {c d e : Consumer}

/-- The reading of an assigned partition. -/
def readingOf (c : Consumer) (tp : TopicPartition) : Option Reading :=
  (c.parts.get tp).map Partition.reading

/-- The event neither accepts a message of the partition nor records that one
failed. -/
def Harmless (tp : TopicPartition) : Event → Prop
  | .accepted tp' _ _ => tp' ≠ tp
  | .finished tp' _ _ res => tp' = tp → res.safe = true
  | _ => True

/-- A step that takes nothing from the partition and in which none of its
messages fails. -/
structure Still (tp : TopicPartition) (c d : Consumer) : Prop where
  reading : d.readingOf tp = c.readingOf tp
  hist : ∃ more, d.hist = c.hist ++ more ∧ ∀ e ∈ more, Harmless tp e
  results : ∀ r ∈ d.results, r.task.tp = tp → r ∈ c.results ∨ r.res.safe = true

/-- The partition is not waiting to be rewound. -/
def Calm (tp : TopicPartition) (c : Consumer) : Prop :=
  ∀ x, c.readingOf tp = some x → x.failedAt < 0

theorem Still.of_eq (hreading : d.readingOf tp = c.readingOf tp) (hhist : d.hist = c.hist)
    (hresults : d.results = c.results) : Still tp c d :=
  ⟨hreading, ⟨[], by simp [hhist], by simp⟩, fun r hr _ => .inl (hresults ▸ hr)⟩

theorem Still.refl (c : Consumer) : Still tp c c :=
  .of_eq rfl rfl rfl

theorem Still.trans (h₁ : Still tp c d) (h₂ : Still tp d e) : Still tp c e := by
  obtain ⟨more₁, heq₁, hmore₁⟩ := h₁.hist
  obtain ⟨more₂, heq₂, hmore₂⟩ := h₂.hist
  refine ⟨h₂.reading.trans h₁.reading, ⟨more₁ ++ more₂, ?_, ?_⟩, ?_⟩
  · rw [heq₂, heq₁, append_assoc]
  · intro ev hev
    rcases mem_append.mp hev with hev | hev
    · exact hmore₁ ev hev
    · exact hmore₂ ev hev
  · intro r hr htp
    rcases h₂.results r hr htp with hold | hsafe
    · exact h₁.results r hold htp
    · exact .inr hsafe

theorem Still.calm (h : Still tp c d) (hcalm : Calm tp c) : Calm tp d := by
  intro x hx
  exact hcalm x (h.reading ▸ hx)

theorem still_log (tp : TopicPartition) (c : Consumer) {more : List Event}
    (hmore : ∀ e ∈ more, Harmless tp e) : Still tp c { c with hist := c.hist ++ more } :=
  ⟨rfl, ⟨more, rfl, hmore⟩, fun _ hr _ => .inl hr⟩

variable {tp' : TopicPartition} {p : Partition} {cfg : Config} {t : Task} {ctxDone : Bool}
  {r : TaskResult} {tps : List TopicPartition} {res : Result}

theorem still_setPart {q : Partition} (hget : c.parts.get tp' = some p)
    (hq : q.reading = p.reading) : Still tp c (c.setPart tp' q) := by
  refine .of_eq ?_ rfl rfl
  simp only [readingOf, setPart, GoMap.get_set]
  split
  · next heq =>
    subst heq
    simp [hget, hq]
  · rfl

theorem still_setPart_ne (hne : tp' ≠ tp) (q : Partition) : Still tp c (c.setPart tp' q) := by
  refine .of_eq ?_ rfl rfl
  simp [readingOf, setPart, hne.symm]

theorem still_dropKey (c : Consumer) (tp' : TopicPartition) (keep : Bool) (k : FailedKey) :
    Still tp c (dropKey tp' keep c k) := by
  refine .of_eq ?_ rfl rfl
  unfold readingOf dropKey
  cases hp : c.parts.get tp' with
  | none => rfl
  | some p =>
    simp only [GoMap.get_set]
    split
    · next heq =>
      subst heq
      simp [hp, Partition.reading]
    · rfl

theorem still_dropQueued (c : Consumer) (tp' : TopicPartition) (only : Option Bytes) :
    Still tp c (c.dropQueued tp' only) :=
  List.foldlRecOn _ _ (Still.refl c)
    fun d hd k _ => hd.trans (still_dropKey d tp' only.isSome k)

theorem still_dropFollowers (c : Consumer) (t : Task) : Still tp c (c.dropFollowers t) := by
  unfold dropFollowers
  split
  · exact Still.refl c
  · exact (still_dropQueued c _ _).trans (.of_eq rfl rfl rfl)

theorem still_released (cfg : Config) (c : Consumer) (t : Task) :
    Still tp c (released cfg c t).1 := by
  obtain ⟨w, qs, heq, -⟩ := released_frame cfg c t
  rw [heq]
  exact .of_eq rfl rfl rfl

theorem still_send (c : Consumer) (t : Task) : Still tp c (c.send t).1 := by
  obtain ⟨w, qs, heq⟩ := send_frame c t
  rw [heq]
  exact .of_eq rfl rfl rfl

theorem reading_advance (n : Nat) (p : Partition) : (advance n p).reading = p.reading := by
  induction n generalizing p with
  | zero => rfl
  | succ n ih =>
    unfold advance
    split
    · exact ih _
    · rfl

theorem still_markDone (hget : c.parts.get tp' = some p) (offset : Nat) :
    Still tp c (c.markDone tp' p offset) := by
  have hset : Still tp c (c.setPart tp' (advanced p offset)) :=
    still_setPart hget (reading_advance _ _)
  exact hset.trans (.of_eq rfl rfl rfl)

theorem Calm.rewindIfDrained_eq (h : Calm tp c) (seekOk : Bool) :
    c.rewindIfDrained tp seekOk = (c, .ok) := by
  unfold rewindIfDrained
  split
  · rfl
  · next p hp =>
    have hfail : p.failedAt < 0 := h p.reading (by simp [readingOf, hp])
    rw [if_neg]
    omega

theorem still_rewindIfDrained (h : Calm tp c) (tp' : TopicPartition) (seekOk : Bool) :
    Still tp c (c.rewindIfDrained tp' seekOk).1 := by
  by_cases heq : tp' = tp
  · subst heq
    rw [h.rewindIfDrained_eq]
    exact Still.refl c
  · have hdrop : Still tp c (c.dropBacklog [tp']) := .of_eq rfl rfl rfl
    exact rewindIfDrained_keeps (Still.refl c) hdrop
      (fun _ _ _ _ => hdrop.trans (still_setPart_ne heq _)) seekOk

theorem still_noteFailure (c : Consumer) (ctxDone : Bool) (r : TaskResult) (hne : tp' ≠ tp) :
    Still tp c (c.noteFailure ctxDone tp' r).1 :=
  noteFailure_keeps (Still.refl c) (fun _ _ => still_setPart_ne hne _) ctxDone

theorem still_finishSafe (h : Calm tp c) (hget : c.parts.get t.tp = some p) (seekOk : Bool) :
    Still tp c (finishSafe cfg c p t seekOk).1 := by
  have hdone : Still tp c (released cfg (c.markDone t.tp p t.m.offset) t).1 :=
    (still_markDone hget t.m.offset).trans (still_released cfg _ t)
  exact andThen_keeps hdone
    fun d hd => hd.trans (still_rewindIfDrained (hd.calm h) t.tp seekOk)

theorem still_finishFailed (h : Calm tp c) (hne : r.task.tp ≠ tp) (seekOk : Bool) :
    Still tp c (c.finishFailed ctxDone r seekOk).1 := by
  have hnote : Still tp c ((c.dropFollowers r.task).noteFailure ctxDone r.task.tp r).1 :=
    (still_dropFollowers c r.task).trans (still_noteFailure _ ctxDone r hne)
  exact andThen_keeps hnote
    fun d hd => hd.trans (still_rewindIfDrained (hd.calm h) r.task.tp seekOk)

theorem Commits.still (h : Commits c d) : Still tp c d := by
  obtain ⟨es, m, n, hes⟩ := h
  refine ⟨rfl, ⟨es, rfl, ?_⟩, fun _ hr _ => .inl hr⟩
  intro ev hev
  obtain ⟨_, _, _, _, rfl⟩ := hes ev hev
  trivial

theorem still_revokeOne (c : Consumer) (hne : tp' ≠ tp) : Still tp c (c.revokeOne tp') := by
  refine Still.trans ?_ (still_dropQueued _ tp' none)
  refine .of_eq ?_ rfl rfl
  simp [readingOf, hne.symm]

theorem still_onRevoked (c : Consumer) (htp : tp ∉ tps) (ok : Bool) :
    Still tp c (c.onRevoked tps ok) := by
  have hfold := List.foldlRecOn (motive := Still tp c) tps revokeOne
    (commits_commitOffsets c (c.pending (some tps)) ok).still
    fun d hd tp' hmem => hd.trans (still_revokeOne d (ne_of_mem_of_not_mem hmem htp))
  exact hfold.trans (.of_eq rfl rfl rfl)

theorem still_onAssigned (c : Consumer) (htp : tp ∉ tps) : Still tp c (c.onAssigned tps) := by
  refine List.foldlRecOn (motive := Still tp c) tps newPartition (Still.refl c) ?_
  intro d hd tp' hmem
  refine hd.trans (.of_eq ?_ rfl rfl)
  simp [readingOf, newPartition, (ne_of_mem_of_not_mem hmem htp).symm]

theorem still_accept (cfg : Config) (c : Consumer) {m : Message} (hne : m.tp ≠ tp) (seekOk : Bool) :
    Still tp c (accept cfg c m seekOk).1 := by
  refine accept_keeps (Still.refl c) (fun _ _ _ _ _ => still_setPart_ne hne _) ?_ seekOk
  intro p _ _ _ _
  refine ⟨(still_setPart_ne (c := c) hne _).reading, ⟨_, rfl, ?_⟩, fun r hr _ => .inl hr⟩
  intro ev hev
  rw [mem_singleton.mp hev]
  exact hne

theorem still_started (hget : c.parts.get t.tp = some p) (rest : List Task) :
    Still tp c (c.started t p rest) :=
  (still_setPart (q := { p with inflight := p.inflight + 1 }) hget rfl).trans
    (.of_eq rfl rfl rfl)

theorem still_logFinished (c : Consumer) (hsafe : t.tp = tp → res.safe = true) :
    Still tp c (c.logFinished t res) := by
  refine still_log tp c ?_
  intro ev hev
  rw [mem_singleton.mp hev]
  exact hsafe

end Still

section Seeking

variable {tp : TopicPartition} {c : Consumer} {o : Int}

variable {seekOk ctxDone : Bool} {cfg : Config} {t : Task} {r : TaskResult}

theorem seek_rewindIfDrained {tp' : TopicPartition} (h : Calm tp c) :
    (c.rewindIfDrained tp' seekOk).2.seek? ≠ some (tp, o) := by
  intro hseek
  by_cases heq : tp' = tp
  · subst heq
    rw [h.rewindIfDrained_eq] at hseek
    cases hseek
  · unfold rewindIfDrained rewind at hseek
    split at hseek
    · cases hseek
    · split at hseek
      · split at hseek
        · cases hseek
        · simp only [Ret.seek?, Option.some.injEq, Prod.mk.injEq] at hseek
          exact heq hseek.1
      · cases hseek

theorem seek_andThen {x : Consumer × Ret} {f : Consumer → Consumer × Ret} (hx : x.2.seek? = none)
    (hf : (f x.1).2.seek? ≠ some (tp, o)) : (andThen x f).2.seek? ≠ some (tp, o) := by
  unfold andThen
  split
  · exact hf
  · simp [hx]

theorem seek_pushWork (c : Consumer) (t : Task) : (c.pushWork t).2.seek? = none := by
  unfold pushWork
  split <;> rfl

theorem seek_released (cfg : Config) (c : Consumer) (t : Task) :
    (released cfg c t).2.seek? = none := by
  unfold released
  split
  · rfl
  · split
    · rfl
    · exact seek_pushWork _ _

theorem seek_send (c : Consumer) (t : Task) : (c.send t).2.seek? = none := by
  unfold send
  split
  · exact seek_pushWork c t
  · split
    · rfl
    · exact seek_pushWork _ t

theorem seek_noteFailure (c : Consumer) (ctxDone : Bool) (tp' : TopicPartition) (r : TaskResult) :
    (c.noteFailure ctxDone tp' r).2.seek? = none := by
  unfold noteFailure
  split
  · rfl
  · split
    · rfl
    · split
      · rfl
      · split <;> rfl

theorem seek_finishSafe {p : Partition} (h : Calm tp c) (hget : c.parts.get t.tp = some p) :
    (finishSafe cfg c p t seekOk).2.seek? ≠ some (tp, o) := by
  have hdone : Still tp c (released cfg (c.markDone t.tp p t.m.offset) t).1 :=
    (still_markDone hget t.m.offset).trans (still_released cfg _ t)
  exact seek_andThen (seek_released cfg _ t) (seek_rewindIfDrained (hdone.calm h))

theorem seek_finishFailed (h : Calm tp c) (hne : r.task.tp ≠ tp) :
    (c.finishFailed ctxDone r seekOk).2.seek? ≠ some (tp, o) := by
  have hnote : Still tp c ((c.dropFollowers r.task).noteFailure ctxDone r.task.tp r).1 :=
    (still_dropFollowers c r.task).trans (still_noteFailure _ ctxDone r hne)
  exact seek_andThen (seek_noteFailure _ ctxDone _ r) (seek_rewindIfDrained (hnote.calm h))

/-- The result concerns the partition's current assignment and is a failure. -/
def Fails (tp : TopicPartition) (c : Consumer) (r : TaskResult) : Prop :=
  r.task.tp = tp ∧ (c.readingOf tp).map Reading.gen = some r.task.gen ∧ r.res.safe = false

/-- A result that is no failure of the partition leaves it alone, and makes no `Seek` in it. -/
theorem still_complete (h : Calm tp c) (hr : ¬ Fails tp c r) (seekOk : Bool) :
    Still tp c (complete cfg c ctxDone r seekOk).1 ∧
      ∀ o, (complete cfg c ctxDone r seekOk).2.seek? ≠ some (tp, o) := by
  have hland : Still tp c c.landed := .of_eq rfl rfl rfl
  refine complete_keeps
    (P := fun d => Still tp c d ∧ (c.readingOf r.task.tp).map Reading.gen = some r.task.gen)
    (Q := fun x => Still tp c x.1 ∧ ∀ o, x.2.seek? ≠ some (tp, o))
    (fun _ => ⟨hland, nofun⟩) ?_ (fun d hd _ _ => ⟨hd.1, nofun⟩) ?_ ?_ ?_
  · intro p hp hgen
    exact ⟨hland.trans (still_setPart hp rfl), by simp [readingOf, hp, Partition.reading, hgen]⟩
  · rintro d ⟨hd, hcur⟩ -
    refine ⟨hd.trans (still_log tp _ ?_), hcur⟩
    intro ev hev
    rw [mem_singleton.mp hev]
    trivial
  · rintro d p ⟨hd, -⟩ hget - -
    exact ⟨hd.trans (still_finishSafe (hd.calm h) hget seekOk),
      fun o => seek_finishSafe (hd.calm h) hget⟩
  · rintro d ⟨hd, hcur⟩ - hbad
    have hne : r.task.tp ≠ tp := by
      rintro rfl
      exact hr ⟨rfl, hcur, hbad⟩
    exact ⟨hd.trans (still_finishFailed (hd.calm h) hne seekOk),
      fun o => seek_finishFailed (hd.calm h) hne⟩

theorem still_dispatchOne {res : Result} (h : Calm tp c)
    (hsafe : cfg.workers ≤ 1 → t.tp = tp → res.safe = true)
    (rest : List Task) (err : Option Error) (seekOk : Bool) :
    Still tp c (c.dispatchOne cfg ctxDone t rest res err seekOk).1 ∧
      ∀ o, (c.dispatchOne cfg ctxDone t rest res err seekOk).2.seek? ≠ some (tp, o) := by
  unfold dispatchOne
  split
  · exact ⟨.of_eq rfl rfl rfl, nofun⟩
  · next p hp =>
    split
    · exact ⟨.of_eq rfl rfl rfl, nofun⟩
    · split
      · next hw =>
        have hrun := (still_started hp rest).trans
          (still_logFinished (c.started t p rest) (hsafe hw))
        refine And.imp_left hrun.trans (still_complete (hrun.calm h) ?_ seekOk)
        rintro ⟨htp, -, hbad⟩
        rw [hsafe hw htp] at hbad
        cases hbad
      · exact ⟨(still_started hp rest).trans (still_send _ t), fun o => by simp [seek_send]⟩

theorem seek_accept {m : Message} (hne : m.tp ≠ tp) :
    (accept cfg c m seekOk).2.seek? ≠ some (tp, o) := by
  unfold accept
  split
  · simp [Ret.seek?]
  · split
    · simp [Ret.seek?]
    · split
      · simp [Ret.seek?]
      · split
        · split
          · simp [Ret.seek?, hne]
          · simp [Ret.seek?]
        · split <;> simp [Ret.seek?]

end Seeking

section Accepting

variable {tp : TopicPartition} {c : Consumer}

theorem accept_expected {cfg : Config} {m : Message} {p : Partition}
    (hbound : m.tp.topic ∈ cfg.topics) (hget : c.parts.get m.tp = some p) (hcalm : p.failedAt < 0)
    (hnext : p.next < 0 ∨ p.next = m.offset) (hnew : (m.offset : Int) ∉ p.completed)
    (seekOk : Bool) :
    accept cfg c m seekOk =
      ({ c.setPart m.tp (p.reach m.offset) with
          backlog := c.backlog ++ [⟨m, inputOf cfg m, p.gen⟩]
          hist := c.hist ++ [.accepted m.tp p.gen m.offset] }, .ok) := by
  have hgap : ¬ (p.next ≥ 0 ∧ (m.offset : Int) ≠ p.next) := by omega
  have hfail : ¬ p.failedAt ≥ 0 := by omega
  unfold accept
  simp only [hbound, not_true_eq_false, if_false, hget, if_neg hfail, if_neg hgap,
    if_neg hnew]

end Accepting

end Consumer

section Loop

/-- `Run` is still in its loop. -/
def Phase.inLoop : Phase → Bool
  | .top | .draining | .tending | .polling | .dispatching => true
  | _ => false

theorem inLoop_of_step {cfg : Config} {s t : Sys} {a : Act} (hstep : step cfg s a = some t)
    (hloop : t.phase.inLoop = true) : s.phase.inLoop = true := by
  cases hphase : s.phase with
  | top | draining | tending | polling | dispatching => rfl
  | left _ | stoppingWorkers | finalDrain _ | finalCommit _ | finalPoll _ | returned
  | panicked =>
    cases a <;> simp [step, hphase, Phase.inPoll] at hstep <;>
      grind [Phase.inLoop, Sys.finalAfter]

end Loop

section Following

variable {cfg : Config} {tp : TopicPartition} {log : Log tp} {start : Int} {g : Nat}
variable {s t : Feed} {a : Act}

/-- The consumer follows the log: it has accepted exactly the messages the loop
took, expects the one behind them, and none of them has failed. -/
structure Following (log : Log tp) (start : Int) (g : Nat) (s : Feed) : Prop where
  reading : s.sys.c.readingOf tp = some ⟨g, endOf s.taken, -1⟩
  accepted : s.sys.c.hist.filterMap (acceptedOffset tp g) = s.taken.map Message.offset
  prefixOf : s.taken <+: log.since start
  left : s.sys.phase.inLoop = true → s.taken ++ log.since s.pos = log.since start
  finished : ∀ o res, .finished tp g o res ∈ s.sys.c.hist → res.safe = true
  results : ∀ r ∈ s.sys.c.results, r.task.tp = tp → r.task.gen = g → r.res.safe = true
  commit : CommitInv s.sys.c
  applied : AppliedInv noHole s.sys.c

theorem Following.calm (h : Following log start g s) : Calm tp s.sys.c := by
  intro x hx
  rw [h.reading] at hx
  cases hx
  exact neg_one_lt_zero

theorem Following.part (h : Following log start g s) :
    ∃ p, s.sys.c.parts.get tp = some p ∧ p.gen = g ∧ p.next = endOf s.taken ∧
      p.failedAt < 0 := by
  obtain ⟨p, hp, hreading⟩ := Option.map_eq_some_iff.mp h.reading
  simp only [Partition.reading, Reading.mk.injEq] at hreading
  obtain ⟨hgen, hnext, hfail⟩ := hreading
  exact ⟨p, hp, hgen, hnext, hfail ▸ neg_one_lt_zero⟩

theorem Following.not_fails (h : Following log start g s) {r : TaskResult} {rest : List TaskResult}
    (hr : s.sys.c.results = r :: rest) : ¬ Fails tp { s.sys.c with results := rest } r := by
  rintro ⟨htp, hgen, hbad⟩
  have hg : g = r.task.gen := by
    change (s.sys.c.readingOf tp).map Reading.gen = _ at hgen
    rw [h.reading] at hgen
    exact Option.some.inj hgen
  rw [h.results r (hr ▸ mem_cons_self) htp hg.symm] at hbad
  cases hbad

/-- A message of the partition that is delivered to the loop. -/
def Feed.takes (tp : TopicPartition) (s : Feed) (a : Act) : Prop :=
  s.sys.phase = .polling ∧ (a.delivers tp).isSome = true

variable {u : Sys} {o : Nat} {m : Message} {p : Partition} {tps : List TopicPartition}

/-- Every other step leaves what the consumer reads from the partition alone. -/
theorem Following.still (h : Following log start g s) (hsteady : Steady cfg tp s a)
    (hother : ¬ s.takes tp a) (hstep : step cfg s.sys a = some u) : Still tp s.sys.c u.c := by
  have hdrop : ∀ rest, (∀ r ∈ rest, r ∈ s.sys.c.results) →
      Still tp s.sys.c { s.sys.c with results := rest } :=
    fun rest hrest => ⟨rfl, ⟨[], by simp, by simp⟩, fun r hr _ => .inl (hrest r hr)⟩
  have hpolling : ∀ {m seekOk}, a = .pollMessage m seekOk →
      s.sys.phase = .polling ∨ u.c = s.sys.c := by
    grind [step]
  have hturn := turn_of_step hstep
  generalize u.c = d at hturn hpolling ⊢
  cases hturn with
  | stay => exact .refl _
  | recv r rest seekOk hr =>
    have hsub := hdrop rest fun x hx => hr ▸ mem_cons_of_mem _ hx
    exact hsub.trans (still_complete (hsub.calm h.calm) (h.not_fails hr) seekOk).1
  | tend due ok _ => exact (commits_maybeCommit cfg _ due ok).still
  | commit ok _ => exact (commits_commit _ ok).still
  | assigned tps hfree =>
    refine still_onAssigned _ ?_
    intro hmem
    obtain ⟨p, hp, -⟩ := h.part
    rw [hfree tp hmem] at hp
    cases hp
  | revoked tps ok => exact still_onRevoked _ hsteady ok
  | accept m seekOk =>
    rcases hpolling rfl with hpoll | hsame
    · refine still_accept cfg _ ?_ seekOk
      intro htp
      exact hother ⟨hpoll, by simp [Act.delivers, htp]⟩
    · rw [hsame]
      exact .refl _
  | dispatch t rest res err seekOk hbacklog _ =>
    simp only [Steady, hbacklog] at hsteady
    exact (still_dispatchOne h.calm hsteady _ err seekOk).1
  | take | close => exact .of_eq rfl rfl rfl
  | finish i t res err hrun =>
    simp only [Steady, hrun] at hsteady
    have hlog := still_logFinished s.sys.c hsteady
    refine ⟨hlog.reading, hlog.hist, ?_⟩
    intro r hr htp
    rcases mem_append.mp hr with hold | hnew
    · exact .inl hold
    · rw [mem_singleton.mp hnew] at htp ⊢
      exact .inr (hsteady htp)

theorem Following.seekOf_ne (h : Following log start g s) (hsteady : Steady cfg tp s a)
    (hother : ¬ s.takes tp a) (o : Int) : seekOf cfg s.sys a ≠ some (tp, o) := by
  cases a with
  | recv seekOk =>
    simp only [seekOf]
    split
    · next r rest hr =>
      exact (still_complete (c := { s.sys.c with results := rest }) h.calm (h.not_fails hr)
        false).2 o
    · simp
  | pollMessage m seekOk =>
    simp only [seekOf]
    split
    · next hpoll =>
      refine seek_accept ?_
      intro htp
      exact hother ⟨hpoll, by simp [Act.delivers, htp]⟩
    · simp
  | dispatch res err seekOk =>
    simp only [seekOf]
    split
    · next hbacklog =>
      simp only [Steady, hbacklog] at hsteady
      exact (still_dispatchOne h.calm hsteady _ err false).2 o
    · simp
  | _ => simp [seekOf]

theorem mem_filterMap_acceptedOffset {hist : List Event} :
    o ∈ hist.filterMap (acceptedOffset tp g) ↔ .accepted tp g o ∈ hist := by
  refine ⟨?_, fun h => mem_filterMap.mpr ⟨_, h, by simp [acceptedOffset]⟩⟩
  intro h
  obtain ⟨e, he, ho⟩ := mem_filterMap.mp h
  cases e with
  | accepted tp' gen offset =>
    simp only [acceptedOffset, Option.ite_none_right_eq_some, Option.some.injEq] at ho
    obtain ⟨⟨rfl, rfl⟩, rfl⟩ := ho
    exact he
  | _ => cases ho

/-- The accepted offsets are those of the taken messages. -/
theorem Following.accepted_iff (h : Following log start g s) :
    .accepted tp g o ∈ s.sys.c.hist ↔ ∃ m ∈ s.taken, m.offset = o := by
  rw [← mem_filterMap_acceptedOffset, h.accepted, mem_map]

theorem filterMap_harmless {more : List Event} (hmore : ∀ e ∈ more, Harmless tp e) (g : Nat) :
    more.filterMap (acceptedOffset tp g) = [] := by
  refine filterMap_eq_nil_iff.mpr ?_
  intro e he
  have hharmless := hmore e he
  cases e with
  | accepted tp' gen offset => simp [acceptedOffset, show tp' ≠ tp from hharmless]
  | _ => rfl

/-- In the loop, a message of the partition that is delivered is taken. -/
theorem takes_of_delivers (hloop : s.sys.phase.inLoop = true) (hm : a.delivers tp = some m)
    (hstep : step cfg s.sys a = some u) : s.takes tp a := by
  refine ⟨?_, by simp [hm]⟩
  cases a with
  | pollMessage m' seekOk =>
    simp only [step] at hstep
    split at hstep
    · assumption
    · next hphase =>
      rw [hphase] at hloop
      cases hloop
    · cases hstep
  | _ => cases hm

/-- Without a `Seek` in the partition the client moves by what it delivers. -/
theorem posAfter_eq (hseek : ∀ o, seekOf cfg s.sys a ≠ some (tp, o)) :
    s.posAfter cfg tp a = Feed.posAfter.moved tp s a := by
  unfold Feed.posAfter
  split
  · next tp' o heq =>
    rw [if_neg]
    rintro ⟨rfl, -⟩
    exact hseek o heq
  · rfl

theorem Following.of_still (h : Following log start g s) (hsteady : Steady cfg tp s a)
    (hother : ¬ s.takes tp a) (hstep : Feed.step cfg log s a = some t) :
    Following log start g t := by
  obtain ⟨-, hsys, hpos, htaken⟩ := Feed.step_eq_some hstep
  have hstill := h.still hsteady hother hsys
  obtain ⟨more, hhist, hmore⟩ := hstill.hist
  have hsame : t.taken = s.taken := by
    rw [htaken]
    unfold Feed.takenAfter
    split
    · next m hm =>
      rw [if_neg]
      intro hpoll
      exact hother ⟨hpoll, by simp [hm]⟩
    · rfl
  have hmove := move_of_step hsys
  refine ⟨?_, ?_, hsame ▸ h.prefixOf, ?_, ?_, ?_, commitInv_move cfg h.commit hmove,
    appliedInv_move h.applied h.commit hmove⟩
  · rw [hstill.reading, h.reading, hsame]
  · rw [hhist, filterMap_append, filterMap_harmless hmore, append_nil, h.accepted,
      hsame]
  · intro hloop
    have hold := inLoop_of_step hsys hloop
    have hnone : a.delivers tp = none := by
      refine Option.eq_none_iff_forall_ne_some.mpr ?_
      intro m hm
      exact hother (takes_of_delivers hold hm hsys)
    have hsamePos : t.pos = s.pos := by
      rw [hpos, posAfter_eq (h.seekOf_ne hsteady hother), Feed.posAfter.moved, hnone]
    rw [hsame, hsamePos]
    exact h.left hold
  · intro o res hmem
    rw [hhist] at hmem
    rcases mem_append.mp hmem with hold | hnew
    · exact h.finished o res hold
    · exact hmore _ hnew rfl
  · intro r hr htp hgen
    rcases hstill.results r hr htp with hold | hsafe
    · exact h.results r hold htp hgen
    · exact hsafe

theorem Following.not_completed (h : Following log start g s) {rest : List Message}
    (hrest : s.taken ++ m :: rest = log.since start) (hget : s.sys.c.parts.get tp = some p)
    (hgen : p.gen = g) : (m.offset : Int) ∉ p.completed := by
  intro hmem
  have hcore : s.sys.c.coreOf tp = some p.core := by simp [coreOf, hget]
  have hacc : .accepted tp g m.offset ∈ s.sys.c.hist := by
    rcases h.commit.part tp p.core hcore with hfresh | ⟨f, hstart⟩
    · have hempty : p.completed = ∅ := hfresh.completed
      simp [hempty] at hmem
    · obtain ⟨i, hi, hsafe⟩ := hstart.done m.offset hmem
      obtain rfl : m.offset = i := by exact_mod_cast hi
      exact hgen ▸ hsafe.1
  obtain ⟨m', hm', heq⟩ := h.accepted_iff.mp hacc
  have hasc := log.asc_since start
  rw [← hrest] at hasc
  have hlt := (pairwise_append.mp hasc).2.2 m' hm' m mem_cons_self
  omega

/-- A log without holes: the message the client delivers is accepted. -/
theorem Following.accept_eq (h : Following log start g s) (hbound : tp.topic ∈ cfg.topics)
    (hgap : Gapless (log.since start)) (hloop : s.sys.phase.inLoop = true)
    (hnext : log.next s.pos = some m) (htp : m.tp = tp) (seekOk : Bool) :
    ∃ p, s.sys.c.parts.get tp = some p ∧ p.gen = g ∧
      accept cfg s.sys.c m seekOk =
        ({ s.sys.c.setPart tp (p.reach m.offset) with
            backlog := s.sys.c.backlog ++ [⟨m, inputOf cfg m, g⟩]
            hist := s.sys.c.hist ++ [.accepted tp g m.offset] }, .ok) := by
  obtain ⟨p, hget, hgen, hp, hfail⟩ := h.part
  have hrest : s.taken ++ m :: log.since ((m.offset : Int) + 1) = log.since start := by
    rw [← Log.since_of_next hnext]
    exact h.left hloop
  have hexpect := Gapless.next_eq (hrest ▸ hgap)
  rw [← hp] at hexpect
  have hnew := h.not_completed hrest hget hgen
  subst htp hgen
  exact ⟨p, hget, rfl, accept_expected hbound hget hfail hexpect hnew seekOk⟩

theorem Following.of_take (h : Following log start g s) (hbound : tp.topic ∈ cfg.topics)
    (hgap : Gapless (log.since start)) (htake : s.takes tp a)
    (hstep : Feed.step cfg log s a = some t) : Following log start g t := by
  obtain ⟨hserve, hsys, hpos, htaken⟩ := Feed.step_eq_some hstep
  obtain ⟨hpoll, hsome⟩ := htake
  obtain ⟨m, hm⟩ := Option.isSome_iff_exists.mp hsome
  have hloop : s.sys.phase.inLoop = true := by rw [hpoll]; rfl
  have hnext := hserve m hm
  have htp : m.tp = tp := log.tp_eq m (mem_of_find?_eq_some hnext)
  have hmove := move_of_step hsys
  cases a with
  | pollMessage m' seekOk =>
    obtain rfl : m' = m := by
      simp only [Act.delivers] at hm
      split at hm
      · exact Option.some.inj hm
      · cases hm
    obtain ⟨p, hget, hgen, haccept⟩ := h.accept_eq hbound hgap hloop hnext htp seekOk
    have hc : t.sys.c = { s.sys.c.setPart tp (p.reach m'.offset) with
        backlog := s.sys.c.backlog ++ [⟨m', inputOf cfg m', g⟩]
        hist := s.sys.c.hist ++ [.accepted tp g m'.offset] } := by
      simp only [step, hpoll, Option.some.injEq] at hsys
      rw [← hsys, loopAfter_c, haccept]
    have hseek : ∀ o, seekOf cfg s.sys (.pollMessage m' seekOk) ≠ some (tp, o) := by
      obtain ⟨q, -, -, hfalse⟩ := h.accept_eq hbound hgap hloop hnext htp false
      simp only [seekOf, hpoll, if_true, hfalse]
      simp [Ret.seek?]
    have hpos' : t.pos = (m'.offset : Int) + 1 := by
      rw [hpos, posAfter_eq hseek, Feed.posAfter.moved, hm]
    have htaken' : t.taken = s.taken ++ [m'] := by
      rw [htaken, Feed.takenAfter, hm]
      exact if_pos hpoll
    have hrest : t.taken ++ log.since t.pos = log.since start := by
      rw [htaken', hpos', append_assoc, singleton_append,
        ← Log.since_of_next hnext]
      exact h.left hloop
    refine ⟨?_, ?_, ⟨_, hrest⟩, fun _ => hrest, ?_, ?_, commitInv_move cfg h.commit hmove,
      appliedInv_move h.applied h.commit hmove⟩
    · have hreading := h.reading
      simp only [readingOf, hget, Option.map_some, Option.some.injEq, Partition.reading,
        Reading.mk.injEq] at hreading
      rw [hc, htaken', endOf_append_singleton]
      simp [readingOf, setPart, Partition.reading, Partition.reach, hgen, hreading.2.2]
    · rw [hc, htaken', map_append, ← h.accepted]
      simp [filterMap_append, acceptedOffset]
    · intro o res hmem
      rw [hc] at hmem
      rcases mem_append.mp hmem with hold | hnew
      · exact h.finished o res hold
      · cases mem_singleton.mp hnew
    · rw [hc]
      exact h.results
  | _ => cases hm

theorem Following.step (hbound : tp.topic ∈ cfg.topics) (hgap : Gapless (log.since start))
    (hsteady : Steady cfg tp s a) (h : Following log start g s)
    (hstep : Feed.step cfg log s a = some t) : Following log start g t := by
  by_cases htake : s.takes tp a
  · exact h.of_take hbound hgap htake hstep
  · exact h.of_still hsteady htake hstep

theorem readingOf_onAssigned (c : Consumer) (hmem : tp ∈ tps) :
    ∃ g, (c.onAssigned tps).readingOf tp = some ⟨g, -1, -1⟩ := by
  have hnew : ∀ d : Consumer, (d.newPartition tp).readingOf tp = some ⟨d.gen + 1, -1, -1⟩ := by
    simp [readingOf, newPartition, Partition.reading]
  obtain ⟨pre, post, rfl⟩ := append_of_mem hmem
  unfold onAssigned
  rw [foldl_append, foldl_cons]
  refine List.foldlRecOn (motive := fun d : Consumer => ∃ g, d.readingOf tp = some ⟨g, -1, -1⟩)
    post newPartition ⟨_, hnew _⟩ ?_
  rintro d ⟨g, hd⟩ tp' -
  by_cases heq : tp' = tp
  · subst heq
    exact ⟨_, hnew d⟩
  · refine ⟨g, ?_⟩
    rw [← hd]
    simp [readingOf, newPartition, Ne.symm heq]

theorem following_assigned {s₀ s₁ : Sys} (hcommit : CommitInv s₀.c)
    (happlied : AppliedInv noHole s₀.c) (htp : tp ∈ tps)
    (hassign : Kafka.step cfg s₀ (.assigned tps) = some s₁) (log : Log tp) (start : Int) :
    ∃ g, Following log start g ⟨s₁, start, []⟩ := by
  have hmove := move_of_step hassign
  have hcommit₁ := commitInv_move cfg hcommit hmove
  have happlied₁ := appliedInv_move happlied hcommit hmove
  have hc : s₁.c = s₀.c.onAssigned tps := by
    obtain ⟨-, rfl⟩ := of_guard hassign
    rfl
  obtain ⟨g, hreading⟩ := readingOf_onAssigned s₀.c htp
  rw [← hc] at hreading
  -- nothing of this generation has happened yet
  have hnone : ∀ o, .accepted tp g o ∉ s₁.c.hist := by
    obtain ⟨p, hp, hpr⟩ := Option.map_eq_some_iff.mp hreading
    simp only [Partition.reading, Reading.mk.injEq] at hpr
    obtain ⟨rfl, hnext, -⟩ := hpr
    rcases hcommit₁.part tp p.core (by simp [coreOf, hp]) with hfresh | ⟨f, hstart⟩
    · exact hfresh.accepted
    · have hge : 0 ≤ p.next := hstart.next
      omega
  refine ⟨g, hreading, filterMap_acceptedOffset_eq_nil hnone, nil_prefix,
    fun _ => rfl, ?_, ?_, hcommit₁, happlied₁⟩
  · intro o res hmem
    exact absurd (happlied₁.finished tp g o res hmem) (hnone o)
  · rintro r hr rfl rfl
    exact absurd (hcommit₁.results r hr).1 (hnone _)

/-- Once the taken messages have finished and their results were read, the
frontier stands behind the last of them. -/
theorem Following.frontier_eq (h : Following log start g s) (hgap : Gapless (log.since start))
    (hget : s.sys.c.parts.get tp = some p) (hgen : p.gen = g) (hlast : s.taken.getLast? = some m)
    (hfin : ∀ m' ∈ s.taken, ∃ res, .finished tp g m'.offset res ∈ s.sys.c.hist)
    (hread : ∀ r ∈ s.sys.c.results, r.task.tp = tp → r.task.gen ≠ g) :
    p.frontier = (m.offset : Int) + 1 ∧
      s.sys.c.safe.get tp = some ((m.offset : Int) + 1) := by
  subst hgen
  have hcore : s.sys.c.coreOf tp = some p.core := by simp [coreOf, hget]
  obtain ⟨first, tail, htaken⟩ : ∃ first tail, s.taken = first :: tail :=
    exists_cons_of_ne_nil (by rintro hnil; simp [hnil] at hlast)
  have hfirst : firstAccepted s.sys.c.hist tp p.gen = some first.offset := by
    unfold firstAccepted
    rw [h.accepted, htaken]
    rfl
  obtain ⟨f, hstart⟩ : ∃ f, Started s.sys.c.hist (s.sys.c.safe.get tp) tp p.core f := by
    have hacc : .accepted tp p.gen first.offset ∈ s.sys.c.hist :=
      h.accepted_iff.mpr ⟨first, by simp [htaken], rfl⟩
    exact (h.commit.part tp p.core hcore).started hacc
  obtain rfl : first.offset = f := Option.some.inj (hfirst.symm.trans hstart.first)
  have hchain : Gapless (first :: tail) := by
    rw [← htaken]
    exact List.IsChain.prefix hgap h.prefixOf
  have hasc : ∀ m' ∈ s.taken, m'.offset ≤ m.offset :=
    fun m' hm' => offset_le_getLast ((log.asc_since start).sublist h.prefixOf.sublist) hlast hm'
  have hhas : ∀ m' ∈ s.taken, Core.Has p.core m'.offset := by
    intro m' hm'
    obtain ⟨res, hres⟩ := hfin m' hm'
    rcases h.applied.applied tp p.core hcore m'.offset res (h.finished _ _ hres) hres with
      hhas | ⟨r, hr, -, htp, hg, -⟩ | hno
    · exact hhas
    · exact absurd hg (hread r hr htp)
    · exact hno.elim
  have hle : (first.offset : Int) ≤ p.frontier := hstart.le
  have hlow : (m.offset : Int) < p.frontier := by
    by_contra hlow
    obtain ⟨o, ho⟩ := Int.eq_ofNat_of_zero_le (show 0 ≤ p.frontier by omega)
    obtain ⟨m', hm', rfl⟩ := hchain.exists_offset (htaken ▸ hlast) (o := o) (by omega) (by omega)
    rcases hhas m' (htaken ▸ hm') with hlt | hin
    · change (m'.offset : Int) < p.frontier at hlt
      omega
    · exact hstart.stops (show p.frontier ∈ p.completed from ho ▸ hin)
  have hhigh : p.frontier ≤ (m.offset : Int) + 1 := by
    by_contra hhigh
    have hacc := (hstart.below (m.offset + 1)
      (by have := hasc first (htaken ▸ mem_cons_self); omega)
      (show ((m.offset + 1 : Nat) : Int) < p.frontier by push_cast; omega)).1
    obtain ⟨m', hm', heq⟩ := h.accepted_iff.mp hacc
    have := hasc m' hm'
    omega
  have hfront : p.frontier = (m.offset : Int) + 1 := by omega
  refine ⟨hfront, ?_⟩
  have hfle := hasc first (htaken ▸ mem_cons_self)
  rw [hstart.safe_eq]
  change (if (first.offset : Int) < p.frontier then some p.frontier else none) = _
  rw [if_pos (by omega), hfront]

/-- What the consumer has read of a log from a starting position. -/
structure ReadsLog
    (cfg : Config) (log : Log tp) (start : Int) (s : Feed) (p : Partition) : Prop where
  /-- `k` deliveries took the first `k` messages -/
  taken : s.taken = (log.since start).take s.taken.length
  /-- and exactly these were given to the pipeline -/
  given : s.sys.c.hist.filterMap (acceptedOffset tp p.gen) = s.taken.map Message.offset
  /-- the next message the client delivers is accepted, and no `Seek` is made -/
  accepts : ∀ m seekOk t, s.sys.phase = .polling → m.tp = tp →
    Feed.step cfg log s (.pollMessage m seekOk) = some t →
    seekOf cfg s.sys (.pollMessage m seekOk) = none ∧
      t.sys.c.backlog = s.sys.c.backlog ++ [⟨m, inputOf cfg m, p.gen⟩] ∧
      ∃ p', t.sys.c.parts.get tp = some p' ∧ p'.gen = p.gen ∧
        p'.next = (m.offset : Int) + 1
  /-- when all of them have finished and their results were read, the commit point
  is past the last -/
  committed : ∀ m, s.taken.getLast? = some m →
    (∀ m' ∈ s.taken, ∃ res, .finished tp p.gen m'.offset res ∈ s.sys.c.hist) →
    (∀ r ∈ s.sys.c.results, r.task.tp = tp → r.task.gen ≠ p.gen) →
    p.frontier = (m.offset : Int) + 1 ∧
      s.sys.c.safe.get tp = some ((m.offset : Int) + 1)

theorem Following.readsLog (h : Following log start g s) (hbound : tp.topic ∈ cfg.topics)
    (hgap : Gapless (log.since start)) :
    ∃ p, s.sys.c.parts.get tp = some p ∧ ReadsLog cfg log start s p := by
  obtain ⟨p, hget, rfl, -, -⟩ := h.part
  refine ⟨p, hget, prefix_iff_eq_take.mp h.prefixOf, h.accepted, ?_,
    fun m hlast hfin hread => h.frontier_eq hgap hget rfl hlast hfin hread⟩
  intro m seekOk t hpoll htp hstep
  obtain ⟨hserve, hsys, -, -⟩ := Feed.step_eq_some hstep
  have hloop : s.sys.phase.inLoop = true := by rw [hpoll]; rfl
  have hnext := hserve m (by simp [Act.delivers, htp])
  obtain ⟨q, hq, hgen, haccept⟩ := h.accept_eq hbound hgap hloop hnext htp seekOk
  obtain ⟨_, -, -, hfalse⟩ := h.accept_eq hbound hgap hloop hnext htp false
  simp only [Kafka.step, hpoll, Option.some.injEq] at hsys
  refine ⟨?_, ?_, q.reach m.offset, ?_, hgen, rfl⟩
  · simp only [seekOf, hpoll, if_true, hfalse]
    rfl
  · rw [← hsys, loopAfter_c, haccept]
  · rw [← hsys, loopAfter_c, haccept]
    simp [setPart]

end Following

section Reading

/-- **A log without holes is read message by message.**  After any run that ends
in the assignment of the partition, with a client that starts anywhere in the
log, as long as the partition stays assigned and none of its messages fails. -/
theorem log_without_holes_is_read (cfg : Config) (tp : TopicPartition)
    (hbound : tp.topic ∈ cfg.topics) (log : Log tp) (start : Int) (hgap : Gapless (log.since start))
    (before : List Act) (s₀ s₁ : Sys) (hbefore : Lib.run (step cfg) Sys.init before = some s₀)
    (tps : List TopicPartition) (htp : tp ∈ tps) (hassign : step cfg s₀ (.assigned tps) = some s₁)
    (acts : List Act) (s : Feed) (hrun : Lib.run (Feed.step cfg log) ⟨s₁, start, []⟩ acts = some s)
    (hsteady : Lib.RunAll (Feed.step cfg log) (Steady cfg tp) ⟨s₁, start, []⟩ acts) :
    ∃ p, s.sys.c.parts.get tp = some p ∧ ReadsLog cfg log start s p := by
  have hinv : CommitInv s₀.c ∧ AppliedInv noHole s₀.c :=
    Lib.run_invariant (I := fun s : Sys => CommitInv s.c ∧ AppliedInv noHole s.c) (step cfg)
      (fun _ _ _ h hstep => ⟨commitInv_move cfg h.1 (move_of_step hstep),
        appliedInv_move h.2 h.1 (move_of_step hstep)⟩)
      ⟨commitInv_new, appliedInv_new⟩ hbefore
  obtain ⟨g, hstart⟩ := following_assigned hinv.1 hinv.2 htp hassign log start
  have h : Following log start g s :=
    Lib.run_invariant_of (Feed.step cfg log)
      (fun _ _ _ hok hs hstep => Following.step hbound hgap hok hs hstep) hsteady hstart hrun
  exact h.readsLog hbound hgap

/-- Two messages at consecutive offsets. -/
def demoLog : Log demoPartition where
  msgs := [demoMessage 5 "a", demoMessage 6 "b"]
  tp_eq := by decide
  asc := by decide

/-- One round of the loop that polls a message and hands it to the pool. -/
def demoRound (m : Message) : List Act :=
  [.pollMessage m true, .dispatch .failed none true, .dispatched, .enterLoop, .drained,
    .tend false true false]

/-- Both messages are delivered, run and finish. -/
def demoReading : List Act :=
  demoRound (demoMessage 5 "a") ++ demoRound (demoMessage 6 "b") ++
    [.take, .take, .finish 1 .done none, .finish 0 .deferred none, .pollNothing, .dispatched,
      .enterLoop, .recv true, .recv true, .drained]

/-- The first steps of `Run`, up to the poll that assigns the partition. -/
def demoPolling : Sys :=
  { Sys.init with phase := .polling }

/-- The consumer was just given the partition. -/
def demoAssigned : Sys :=
  { demoPolling with c := Consumer.new.onAssigned [demoPartition] }

theorem log_without_holes_is_read_demo :
    ∃ s p, Lib.run (Feed.step demoConfig demoLog) ⟨demoAssigned, 3, []⟩ demoReading = some s ∧
      s.taken.length = 2 ∧ s.sys.c.parts.get demoPartition = some p ∧
      s.taken = (demoLog.since 3).take 2 ∧ p.frontier = 7 ∧
      s.sys.c.safe.get demoPartition = some 7 := by
  obtain ⟨s, hs, htaken, hhist, hresults, hpart⟩ : ∃ s, Lib.run (Feed.step demoConfig demoLog)
      ⟨demoAssigned, 3, []⟩ demoReading = some s ∧
        s.taken = [demoMessage 5 "a", demoMessage 6 "b"] ∧
        s.sys.c.hist = [.accepted demoPartition 1 5, .accepted demoPartition 1 6,
          .finished demoPartition 1 6 .done, .finished demoPartition 1 5 .deferred] ∧
        s.sys.c.results = [] ∧
        s.sys.c.parts.get demoPartition = some ⟨1, 7, 7, ∅, 0, -1⟩ := by
    decide
  obtain ⟨p, hp, hreads⟩ := log_without_holes_is_read demoConfig demoPartition (by decide)
    demoLog 3 (by decide) [.enterLoop, .drained, .tend false true false] demoPolling
    demoAssigned rfl [demoPartition] (by decide) rfl demoReading s hs (by decide)
  obtain rfl : p = ⟨1, 7, 7, ∅, 0, -1⟩ := Option.some.inj (hp.symm.trans hpart)
  have hlen : s.taken.length = 2 := by rw [htaken]; rfl
  have hfin : ∀ m ∈ s.taken, ∃ res,
      .finished demoPartition 1 m.offset res ∈ s.sys.c.hist := by
    rw [htaken, hhist]
    intro m hm
    rcases mem_pair.mp hm with rfl | rfl
    · exact ⟨.deferred, by decide⟩
    · exact ⟨.done, by decide⟩
  obtain ⟨hfront, hsafe⟩ := hreads.committed (demoMessage 6 "b") (by rw [htaken]; rfl) hfin
    (by simp [hresults])
  exact ⟨s, _, hs, hlen, hp, hlen ▸ hreads.taken, hfront, hsafe⟩

/-- Two messages with a hole between them, as compaction leaves it. -/
def demoHoleLog : Log demoPartition where
  msgs := [demoMessage 5 "a", demoMessage 7 "c"]
  tp_eq := by decide
  asc := by decide

/-- The first message is read and finishes. -/
def demoBeforeHole : List Act :=
  demoRound (demoMessage 5 "a") ++ [.take, .finish 0 .done none, .pollNothing, .dispatched,
    .enterLoop, .recv true, .drained, .tend false true false]

/-- One more round: the message behind the hole is delivered. -/
def demoAtHole : List Act :=
  [.pollMessage (demoMessage 7 "c") true, .dispatched, .enterLoop, .drained,
    .tend false true false]

/-- At a hole the consumer seeks back to an offset that is no longer there.  The
client delivers the same message again, and the loop comes back to the same
state: the message is never accepted, however often it is delivered. -/
theorem hole_is_never_passed :
    ∃ s t, Lib.run (Feed.step demoConfig demoHoleLog) ⟨demoAssigned, 3, []⟩ demoBeforeHole =
        some s ∧
      Lib.RunAll (Feed.step demoConfig demoHoleLog) (Steady demoConfig demoPartition)
        ⟨demoAssigned, 3, []⟩ (demoBeforeHole ++ demoAtHole) ∧
      s.sys.phase = .polling ∧
      seekOf demoConfig s.sys (.pollMessage (demoMessage 7 "c") true) =
        some (demoPartition, 6) ∧
      Lib.run (Feed.step demoConfig demoHoleLog) s demoAtHole = some t ∧
      t.sys = s.sys ∧ t.pos = s.pos ∧
      t.taken = s.taken ++ [demoMessage 7 "c"] ∧
      t.sys.c.hist.filterMap (acceptedOffset demoPartition 1) = [5] := by
  refine ⟨_, _, rfl, by decide, rfl, rfl, rfl, rfl, rfl, rfl, rfl⟩

end Reading

end Kafka
end GoGuard
