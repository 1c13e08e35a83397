import GoGuard.Pipeline.Progress

/-!
# All attempts on a message

`Execute` and the runs of the `Handler` after it, seen as one history.  The
progress invariant holds from one attempt to the next, because a run starts from
the record the one before left, and a checkpoint that JSON has changed is not
accepted.  Two results are read off the history: finished steps are skipped and
the others run in order, and a saga undoes what was done, newest first, once it
has turned back.
-/

namespace GoGuard
namespace Pipe

open Lib Dlq List
open Kafka (Input Result)

section Messages

variable {tape : Nat → Answer} {p : Pipeline} {m : Message} {inp : Input}

/-- The first step that is not completed in the stored checkpoint. -/
def startOf (ev : List Event) : Nat :=
  (lastStored ev).elim 0 fun cp => cp.completed.length

/-- An attempt after the earlier ones. -/
structure AttemptOk (p : Pipeline) (pre : List Attempt) (a : Attempt) : Prop where
  order : InOrder (startOf (pre.flatMap Attempt.events)) (runs a.events)
  run : ∀ cp err, a.run = some (cp, err) →
    Fit p (pre.flatMap Attempt.events ++ a.events) cp ∧ Outcome p cp err ∧
      ∀ i err, .undid i err ∈ a.events → i < cp.completed.length
  idle : a.run = none → a.events = []
  success : a.ended.succeeded = true → ∃ cp, a.run = some (cp, none)

/-- The invariant of a message over all attempts. -/
structure Followed (p : Pipeline) (m : Message) : Prop where
  ok : Justified (EventOk p) m.events
  record : ∀ record, m.record = some record →
    ∃ cp, lastStored m.events = some cp ∧ record.checkpoint = cp.encode ∧ Fit p m.events cp
  past : Justified (AttemptOk p) m.past

theorem level_liveRun : Level p [] 0 (liveRun p) := by
  refine ⟨⟨justified_nil, fit_new p, ?_, fun _ => rfl, justified_nil, fun _ => rfl, ?_⟩, ?_⟩
  · intro record hr
    cases hr
  · intro i err hmem
    cases hmem
  · intro record hr
    cases hr

/-- What is left when `Execute` has dealt with the result of `advance`. -/
structure Settled (p : Pipeline) (r r' : Run) : Prop where
  ok : Justified (EventOk p) r'.events
  fit : Fit p r'.events r.cp
  cp : r'.cp = r.cp
  record : ∀ record, r'.record = some record →
    ∃ cp, lastStored r'.events = some cp ∧ record.checkpoint = cp.encode ∧
      Fit p r'.events cp
  runs : runs r'.events = runs r.events
  undos : ∀ i err, .undid i err ∈ r'.events → .undid i err ∈ r.events

theorem Sound.settled {r : Run} (h : Sound p [] 0 r) : Settled p r r :=
  ⟨h.ok, h.fit, rfl, h.record, rfl, fun _ _ hmem => hmem⟩

theorem Sound.settled_next {r : Run} (h : Sound p [] 0 r) : Settled p r r.next :=
  ⟨h.ok, h.fit, rfl, h.record, rfl, fun _ _ hmem => hmem⟩

theorem Sound.settled_appended {r : Run} (h : Sound p [] 0 r)
    (inp : Input) (state : State) (dep text : Bytes) :
    Settled p r (r.next.appended inp state dep text) := by
  have hok : Justified (EventOk p) r.events := h.ok
  have hfit : Fit p r.events r.cp := h.fit
  have hstored : Fit p (r.events ++ [.stored r.cp]) r.cp :=
    hfit.log (fun _ _ he => nomatch he) fun _ he => by cases he; exact Behind.refl _
  refine ⟨hok.snoc ⟨hfit.names, hfit.returned, hfit.behind⟩, hstored, rfl, ?_, ?_, ?_⟩
  · intro record hr
    cases hr
    exact ⟨r.cp, lastStored_stored _ _, rfl, hstored⟩
  · simp [Run.appended, Run.log, Run.next]
  · intro i err hmem
    simpa [Run.appended, Run.log, Run.next] using hmem

theorem Sound.settled_store {r : Run} (h : Sound p [] 0 r)
    (tape : Nat → Answer) (inp : Input) (state : State) (dep text : Bytes) (res : Result) :
    Settled p r (store tape r inp state dep text res).1 ∧
      ((store tape r inp state dep text res).2.1 = res ∨
        (store tape r inp state dep text res).2.1 = .failed) := by
  unfold store
  split
  · exact ⟨h.settled_appended inp state dep text, .inl rfl⟩
  · split
    · exact ⟨h.settled_appended inp state dep text, .inr rfl⟩
    · exact ⟨h.settled_next, .inr rfl⟩

/-- `Execute` reports a message done only when `advance` returned nil. -/
theorem Sound.settled_settle {r : Run} (h : Sound p [] 0 r)
    (tape : Nat → Answer) (inp : Input) (err : Option Err) :
    Settled p r (settle tape p inp r err).1 ∧
      ((settle tape p inp r err).2.1 = .done → err = none) := by
  -- what `store` returns is never done
  have hstore : ∀ {x res : Result}, x = res ∨ x = .failed → res ≠ .done → x = .done →
      err = none := by
    rintro x res (rfl | rfl) hne hdone
    · exact absurd hdone hne
    · cases hdone
  cases err with
  | none => exact ⟨h.settled, fun _ => rfl⟩
  | some e =>
    simp only [settle]
    split
    · next dep _ =>
      obtain ⟨hs, hres⟩ := h.settled_store tape inp .pending dep (p.redactor e) .deferred
      exact ⟨hs, hstore hres (by decide)⟩
    · split
      · obtain ⟨hs, hres⟩ := h.settled_store tape inp .parked [] (p.redactor e) .parked
        exact ⟨hs, hstore hres (by decide)⟩
      · exact ⟨h.settled, fun hdone => by cases hdone⟩

theorem followed_snoc {past : List Attempt} {a : Attempt} {record : Option Stored} {asked : Nat}
    (hpast : Justified (AttemptOk p) past) (ha : AttemptOk p past a)
    (hok : Justified (EventOk p) (past.flatMap Attempt.events ++ a.events))
    (hrecord : ∀ stored, record = some stored →
      ∃ cp, lastStored (past.flatMap Attempt.events ++ a.events) = some cp ∧
        stored.checkpoint = cp.encode ∧ Fit p (past.flatMap Attempt.events ++ a.events) cp) :
    Followed p ⟨record, asked, past ++ [a]⟩ := by
  have hev : Message.events ⟨record, asked, past ++ [a]⟩ =
      past.flatMap Attempt.events ++ a.events := by
    simp [Message.events]
  refine ⟨?_, ?_, hpast.snoc ha⟩
  · rw [hev]
    exact hok
  · rw [hev]
    exact hrecord

theorem attemptOk_idle (past : List Attempt) {ended : Ended} (hended : ended.succeeded = false) :
    AttemptOk p past ⟨none, none, [], ended⟩ := by
  refine ⟨justified_nil, ?_, fun _ => rfl, ?_⟩
  · intro cp err hrun
    cases hrun
  · intro hsucc
    rw [hended] at hsucc
    cases hsucc

theorem followed_execute (tape : Nat → Answer) (p : Pipeline) (inp : Input) :
    Followed p (execute tape p inp) := by
  unfold execute
  split
  · refine followed_snoc justified_nil (attemptOk_idle [] rfl) justified_nil ?_
    intro stored hr
    cases hr
  · obtain ⟨hsound, hout⟩ := (level_liveRun (p := p)).advance tape
    have hstate : Sound p [] 0 ((liveRun p).advance tape p).1.withState :=
      hsound.congr ⟨rfl, rfl, rfl⟩ rfl rfl rfl
    obtain ⟨hs, hdone⟩ := hstate.settled_settle tape inp ((liveRun p).advance tape p).2
    split
    · next r res err heq =>
      unfold executed at heq
      rw [heq] at hs hdone
      have hcp : r.cp = ((liveRun p).advance tape p).1.withState.cp := hs.cp
      refine followed_snoc justified_nil ⟨?_, ?_, ?_, ?_⟩ hs.ok hs.record
      · change InOrder 0 (runs r.events)
        rw [hs.runs]
        exact hsound.order
      · intro cp e hrun
        cases hrun
        refine ⟨hcp ▸ hs.fit, ?_, ?_⟩
        · rw [hcp]
          exact ⟨hout.done, hout.undone⟩
        · intro i err' hmem
          rw [hcp]
          exact hsound.undos i err' (hs.undos i err' hmem)
      · intro hnone
        cases hnone
      · intro hsucc
        have hres : res = .done := by
          cases res with
          | done => rfl
          | failed | deferred | parked => cases hsucc
        exact ⟨r.cp, by rw [hdone hres]⟩

theorem Followed.level_resumedRun {record : Stored} {cp : Checkpoint} (h : Followed p m)
    (hrecord : m.record = some record) (hload : p.load record.checkpoint = .ok cp) :
    Level p m.events (startOf m.events) (resumedRun m cp) := by
  obtain ⟨c, hlast, hcheckpoint, hfit⟩ := h.record record hrecord
  have hsame : SameProgress c cp := hfit.load (hcheckpoint ▸ hload)
  have hev : m.events ++ (resumedRun m cp).events = m.events := append_nil _
  refine ⟨⟨?_, ?_, ?_, ?_, justified_nil, ?_, ?_⟩, ?_⟩
  · rw [hev]
    exact h.ok
  · rw [hev]
    exact hfit.congr hsame
  · rw [hev]
    exact h.record
  · intro hlive
    cases hlive
  · intro _
    change cp.completed.length = startOf m.events + 0
    rw [startOf, hlast, hsame.completed]
    rfl
  · intro i err hmem
    cases hmem
  · rw [hev]
    intro _ _ c' hlast'
    cases hlast.symm.trans hlast'
    exact hsame.symm

theorem Followed.handle (h : Followed p m) (tape : Nat → Answer) :
    Followed p (handle tape p m) := by
  unfold Pipe.handle
  split
  · exact h
  · next record hrecord =>
    split
    · refine followed_snoc h.past (attemptOk_idle m.past rfl) ?_ ?_
      · rw [append_nil]
        exact h.ok
      · rw [append_nil]
        exact h.record
    · next cp hload =>
      obtain ⟨hsound, hout⟩ := (h.level_resumedRun hrecord hload).advance tape
      split
      · next r err heq =>
        rw [heq] at hsound hout
        refine followed_snoc h.past ⟨hsound.order, ?_, ?_, ?_⟩ hsound.ok hsound.record
        · intro cp' e hrun
          cases hrun
          exact ⟨hsound.fit, hout, hsound.undos⟩
        · intro hnone
          cases hnone
        · intro hsucc
          cases err with
          | none => exact ⟨r.cp, rfl⟩
          | some e => cases hsucc

theorem followed_attempts (tape : Nat → Answer) (p : Pipeline) (inp : Input) (n : Nat) :
    Followed p (attempts tape p inp n) := by
  induction n with
  | zero => exact followed_execute tape p inp
  | succ n ih => exact ih.handle tape

end Messages

section Resuming

variable {p : Pipeline} {m : Message}

/-- **Finished steps are skipped and the others run in order.**  In any sequence
of attempts on a message: -/
structure Resumes (p : Pipeline) (m : Message) : Prop where
  /-- a run of the handler starts from the checkpoint that was stored last -/
  resumed : ∀ record, m.record = some record →
    ∃ cp, lastStored m.events = some cp ∧ record.checkpoint = cp.encode
  /-- within an attempt the steps are called in pipeline order, starting at the
  first one that is not completed in the stored checkpoint -/
  order : ∀ pre a post, m.past = pre ++ a :: post →
    InOrder (startOf (pre.flatMap Attempt.events)) (runs a.events)
  /-- a step recorded in a stored checkpoint never runs forward again -/
  once : ∀ pre i err post, m.events = pre ++ .ran i err :: post →
    ∃ st, p.steps[i]? = some st ∧ ∀ cp, .stored cp ∈ pre → st.name ∉ cp.names
  /-- the stored steps are the first of the pipeline, only grow, and every one of
  them has returned nil -/
  stored : ∀ pre cp post, m.events = pre ++ .stored cp :: post →
    cp.names <+: p.stepNames ∧ (∀ i < cp.completed.length, .ran i none ∈ pre) ∧
      ∀ cp', .stored cp' ∈ pre → cp'.completed <+: cp.completed
  /-- an attempt succeeds only when every step has returned nil -/
  done : ∀ pre a post, m.past = pre ++ a :: post → a.ended.succeeded = true →
    ∀ i < p.steps.length, .ran i none ∈ (pre ++ [a]).flatMap Attempt.events

theorem name_not_mem_take {i n : Nat} {st : Step} (hst : p.steps[i]? = some st) (hn : n ≤ i) :
    st.name ∉ p.stepNames.take n := by
  intro hmem
  obtain ⟨j, hj, hname⟩ := mem_take_iff_getElem.mp hmem
  have hjn : j < n := lt_of_lt_of_le hj (Nat.min_le_left _ _)
  have hjlen : j < p.steps.length := by
    have := lt_of_lt_of_le hj (Nat.min_le_right _ _)
    simpa [Pipeline.stepNames] using this
  have heq := index_eq_of_name (List.getElem?_eq_getElem hjlen) hst
    (by simpa [Pipeline.stepNames] using hname)
  omega

theorem resume_skips_finished_steps (tape : Nat → Answer) (p : Pipeline) (inp : Input) (n : Nat) :
    Resumes p (attempts tape p inp n) := by
  have h := followed_attempts tape p inp n
  refine ⟨?_, ?_, ?_, ?_, ?_⟩
  · intro record hr
    obtain ⟨cp, hlast, hcheckpoint, -⟩ := h.record record hr
    exact ⟨cp, hlast, hcheckpoint⟩
  · intro pre a post heq
    exact (h.past pre a post heq).order
  · intro pre i err post heq
    obtain ⟨hlt, hstored⟩ := h.ok pre _ post heq
    refine ⟨_, List.getElem?_eq_getElem hlt, ?_⟩
    intro cp hcp
    obtain ⟨before, after, rfl⟩ := append_of_mem hcp
    obtain ⟨hnames, -, -⟩ := h.ok before (.stored cp) (after ++ .ran i err :: post)
      (by simpa using heq)
    rw [hnames]
    exact name_not_mem_take (List.getElem?_eq_getElem hlt) (hstored cp hcp).2
  · intro pre cp post heq
    obtain ⟨hnames, hreturned, hbehind⟩ := h.ok pre _ post heq
    refine ⟨?_, hreturned, fun cp' hcp' => (hbehind cp' hcp').completed⟩
    rw [hnames]
    exact take_prefix _ _
  · intro pre a post heq hsucc i hi
    have ha := h.past pre a post heq
    obtain ⟨cp, hrun⟩ := ha.success hsucc
    obtain ⟨hfit, hout, -⟩ := ha.run cp none hrun
    rw [flatMap_append, flatMap_singleton]
    exact hfit.returned i (hout.done rfl ▸ hi)

end Resuming

section Saga

variable {p : Pipeline} {m : Message}

/-- **Compensation is one-way, ordered and complete.**  In any sequence of
attempts on a message: -/
structure Compensates (p : Pipeline) (m : Message) : Prop where
  /-- once a stored checkpoint is compensating, no step runs forward again -/
  oneWay : ∀ pre cp post i err, m.events = pre ++ .stored cp :: post →
    cp.phase = .compensating → .ran i err ∉ post
  /-- only completed steps that have a `Compensate` are undone -/
  completed : ∀ pre a post i err, m.past = pre ++ a :: post → .undid i err ∈ a.events →
    ∃ cp end' st, a.run = some (cp, end') ∧ i < cp.completed.length ∧
      p.steps[i]? = some st ∧ st.compensate = true
  /-- newest first, over the whole history -/
  ordered : m.events.Pairwise fun e e' => ∀ i j err err',
    e = .undid i err → e' = .undid j err' → j ≤ i
  /-- a step stored as undone is not undone again -/
  once : ∀ pre i err post, m.events = pre ++ .undid i err :: post →
    ∃ st, p.steps[i]? = some st ∧ ∀ cp, .stored cp ∈ pre → st.name ∉ cp.compensated
  /-- and the failure is reported as compensated only when every completed step
  that has a `Compensate` was undone -/
  complete : ∀ pre a post cp pipeline step reason n, m.past = pre ++ a :: post →
    a.run = some (cp, some (.permanent (.compensated pipeline step reason n))) →
    ∀ i st, i < cp.completed.length → p.steps[i]? = some st → st.compensate = true →
      .undid i none ∈ (pre ++ [a]).flatMap Attempt.events

theorem saga_compensates (tape : Nat → Answer) (p : Pipeline) (inp : Input) (n : Nat) :
    Compensates p (attempts tape p inp n) := by
  have h := followed_attempts tape p inp n
  refine ⟨?_, ?_, ?_, ?_, ?_⟩
  · intro pre cp post i err heq hphase hmem
    obtain ⟨before, after, rfl⟩ := append_of_mem hmem
    obtain ⟨-, hstored⟩ := h.ok (pre ++ .stored cp :: before) (.ran i err) after
      (by simpa using heq)
    exact (hstored cp (by simp)).1 hphase
  · intro pre a post i err heq hmem
    have ha := h.past pre a post heq
    cases hrun : a.run with
    | none =>
      rw [ha.idle hrun] at hmem
      cases hmem
    | some x =>
      obtain ⟨before, after, hsplit⟩ := append_of_mem hmem
      obtain ⟨⟨st, hst, hcomp, -⟩, -, -⟩ :=
        h.ok (pre.flatMap Attempt.events ++ before) (.undid i err)
          (after ++ post.flatMap Attempt.events)
          (by simp [Message.events, heq, hsplit])
      exact ⟨x.1, x.2, st, rfl, (ha.run x.1 x.2 hrun).2.2 i err hmem, hst, hcomp⟩
  · refine h.ok.pairwise ?_
    rintro pre e hok e' he' i j err err' rfl rfl
    exact hok.2.2 i err he'
  · intro pre i err post heq
    obtain ⟨⟨st, hst, -, hnot⟩, -, -⟩ := h.ok pre _ post heq
    exact ⟨st, hst, hnot⟩
  · intro pre a post cp pipeline step reason n heq hrun i st hi hst hcomp
    obtain ⟨hfit, hout, -⟩ := (h.past pre a post heq).run cp _ hrun
    obtain ⟨j, st', -, hst', hname, hmem⟩ :=
      hfit.undone st.name (hout.undone pipeline step reason n rfl i st hi hst hcomp)
    rw [index_eq_of_name hst' hst hname] at hmem
    rw [flatMap_append, flatMap_singleton]
    exact hmem

end Saga

section Example

/-- A step without breaker and retries. -/
def demoStep (name : String) (compensate : Bool) : Step :=
  ⟨str name, [], none, ⟨0, none⟩, compensate⟩

/-- Charge, reserve, ship; the first two can be undone. -/
def demoSaga : Pipeline where
  name := str "order"
  version := str "1"
  steps := [demoStep "charge" true, demoStep "reserve" true, demoStep "ship" false]
  saga := true
  redactor := fun _ => str "error"
  name_ne := order_ne
  steps_ne := by decide
  step_name_ne := by decide
  nodup := by decide

def demoAnswer (err : Option Err) (saved : Saved) : Answer :=
  ⟨none, .returned err, .empty, none, true, true, saved, 0⟩

/-- The answers to three attempts: shipping is down at first and then refuses for
good; undoing the reservation works, but the save after it fails. -/
def demoTape (i : Nat) : Answer :=
  let down : Err := .other (str "down") false
  let lost : Err := .other (str "lease lost") false
  ([ -- Execute: charge, reserve, ship fails, and the message is stored
     demoAnswer none .ok, demoAnswer none .ok, demoAnswer none .ok, demoAnswer none .ok,
     demoAnswer (some down) .ok, demoAnswer none .ok, demoAnswer none .ok,
     -- Handler: ship fails for good, the turn is saved, reserve is undone, the save fails
     demoAnswer (some (.permanent down)) .ok, demoAnswer none .ok, demoAnswer none .ok,
     demoAnswer none .ok, demoAnswer none (.failed lost false)][i]?).getD (demoAnswer none .ok)

/-- The third attempt undoes the reservation again, then the charge. -/
example :
    ((attempts demoTape demoSaga ⟨str "m1", ⟨[], [], 0, 0⟩, none, none, [], []⟩ 2).events.filterMap
      fun e => match e with
        | .ran i err => some (i, err.isNone, true)
        | .undid i err => some (i, err.isNone, false)
        | .stored _ => none) =
      [(0, true, true), (1, true, true), (2, false, true), (2, false, true), (1, true, false),
        (1, true, false), (0, true, false)] := by
  decide +kernel

end Example

end Pipe
end GoGuard
