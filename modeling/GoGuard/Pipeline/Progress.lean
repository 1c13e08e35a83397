import GoGuard.Pipeline.Run
import GoGuard.Lib.History

/-!
# The checkpoint and the history of a message

One invariant ties the two stateful sides of a pipeline together: the run in
memory and the record in the store, each with the history of calls.  `Fit` says
what a checkpoint knows about a history: its completed steps are the first ones
of the pipeline and have returned nil, its undone steps have been undone, every
step above one that is being undone is undone already, and no stored checkpoint
is ahead of it.  `EventOk` says when an event may follow a history.

`Level` holds while the record is as far as the run, which is the case before
each call; `Sound` is what remains when the run is a step ahead and the save may
fail.
-/

namespace GoGuard
namespace Pipe

open Lib Dlq List
open Kafka (Input Result)

section Checkpoints

variable {p : Pipeline} {ev : List Event} {cp cp' : Checkpoint}

/-- Nothing recorded in `cp'` is missing in `cp`. -/
structure Behind (cp' cp : Checkpoint) : Prop where
  completed : cp'.completed <+: cp.completed
  compensated : cp'.compensated <+: cp.compensated
  phase : cp'.phase = .compensating → cp.phase = .compensating

theorem Behind.refl (cp : Checkpoint) : Behind cp cp :=
  ⟨prefix_refl _, prefix_refl _, id⟩

theorem Behind.trans {cp'' : Checkpoint} (h₁ : Behind cp'' cp') (h₂ : Behind cp' cp) :
    Behind cp'' cp :=
  ⟨h₁.completed.trans h₂.completed, h₁.compensated.trans h₂.compensated,
    fun h => h₂.phase (h₁.phase h)⟩

/-- What a checkpoint knows about the history of the message. -/
structure Fit (p : Pipeline) (ev : List Event) (cp : Checkpoint) : Prop where
  names : cp.names = p.stepNames.take cp.completed.length
  returned : ∀ i < cp.completed.length, .ran i none ∈ ev
  phase : cp.phase = .forward ∨ cp.phase = .compensating
  fresh : cp.phase = .forward → cp.compensated = [] ∧ ∀ j err, .undid j err ∉ ev
  undone : ∀ n ∈ cp.compensated, ∃ i st, i < cp.completed.length ∧
    p.steps[i]? = some st ∧ st.name = n ∧ .undid i none ∈ ev
  above : ∀ j err, .undid j err ∈ ev → ∀ k st, j < k → k < cp.completed.length →
    p.steps[k]? = some st → st.compensate = true → st.name ∈ cp.compensated
  behind : ∀ cp', .stored cp' ∈ ev → Behind cp' cp

/-- The checkpoint that was stored last. -/
def lastStored (ev : List Event) : Option Checkpoint :=
  ev.reverse.findSome? fun e =>
    match e with
    | .stored cp => some cp
    | _ => none

@[simp] theorem lastStored_ran (ev : List Event) (i : Nat) (err : Option Err) :
    lastStored (ev ++ [.ran i err]) = lastStored ev := by
  simp [lastStored]

@[simp] theorem lastStored_undid (ev : List Event) (i : Nat) (err : Option Err) :
    lastStored (ev ++ [.undid i err]) = lastStored ev := by
  simp [lastStored]

@[simp] theorem lastStored_stored (ev : List Event) (cp : Checkpoint) :
    lastStored (ev ++ [.stored cp]) = some cp := by
  simp [lastStored]

/-- When an event may follow a history. -/
def EventOk (p : Pipeline) (pre : List Event) : Event → Prop
  | .ran i _ =>
    i < p.steps.length ∧
    ∀ cp, .stored cp ∈ pre → cp.phase ≠ .compensating ∧ cp.completed.length ≤ i
  | .undid i _ =>
    (∃ st, p.steps[i]? = some st ∧ st.compensate = true ∧
      ∀ cp, .stored cp ∈ pre → st.name ∉ cp.compensated) ∧
    .ran i none ∈ pre ∧ ∀ j err, .undid j err ∈ pre → i ≤ j
  | .stored cp =>
    cp.names = p.stepNames.take cp.completed.length ∧
    (∀ i < cp.completed.length, .ran i none ∈ pre) ∧
    ∀ cp', .stored cp' ∈ pre → Behind cp' cp

/-- The fields `Fit` is about. -/
structure SameProgress (cp cp' : Checkpoint) : Prop where
  completed : cp'.completed = cp.completed
  compensated : cp'.compensated = cp.compensated
  phase : cp'.phase = cp.phase

theorem SameProgress.symm (h : SameProgress cp cp') : SameProgress cp' cp :=
  ⟨h.completed.symm, h.compensated.symm, h.phase.symm⟩

theorem SameProgress.behind (h : SameProgress cp cp') : Behind cp cp' :=
  ⟨h.completed ▸ prefix_refl _, h.compensated ▸ prefix_refl _,
    fun hp => h.phase.trans hp⟩

theorem Fit.congr (h : Fit p ev cp) (hsame : SameProgress cp cp') : Fit p ev cp' := by
  obtain ⟨hcompleted, hcompensated, hphase⟩ := hsame
  refine ⟨?_, ?_, hphase ▸ h.phase, ?_, ?_, ?_, ?_⟩
  · rw [Checkpoint.names, hcompleted]
    exact h.names
  · rw [hcompleted]
    exact h.returned
  · rw [hphase, hcompensated]
    exact h.fresh
  · rw [hcompensated, hcompleted]
    exact h.undone
  · rw [hcompensated, hcompleted]
    exact h.above
  · intro c hc
    exact (h.behind c hc).trans (SameProgress.behind ⟨hcompleted, hcompensated, hphase⟩)

theorem fit_new (p : Pipeline) : Fit p [] p.newCheckpoint := by
  refine ⟨rfl, ?_, .inl rfl, fun _ => ⟨rfl, by simp⟩, ?_, by simp, by simp⟩
  · intro i hi
    cases hi
  · intro n hn
    cases hn

/-- Another event, when a compensation comes with every step above undone and a
stored checkpoint is not ahead. -/
theorem Fit.log {e : Event} (h : Fit p ev cp)
    (hundid : ∀ i err, e = .undid i err → cp.phase = .compensating ∧
      ∀ k st, i < k → k < cp.completed.length → p.steps[k]? = some st →
        st.compensate = true → st.name ∈ cp.compensated)
    (hstored : ∀ c, e = .stored c → Behind c cp) :
    Fit p (ev ++ [e]) cp := by
  refine ⟨h.names, fun j hj => mem_append_left _ (h.returned j hj), h.phase, ?_, ?_, ?_, ?_⟩
  · intro hphase
    obtain ⟨hnone, hold⟩ := h.fresh hphase
    refine ⟨hnone, fun j err hmem => ?_⟩
    rcases mem_append.mp hmem with hmem | hnew
    · exact hold j err hmem
    · rw [(hundid j err (mem_singleton.mp hnew).symm).1] at hphase
      cases hphase
  · intro n hn
    obtain ⟨j, st, hj, hst, hname, hmem⟩ := h.undone n hn
    exact ⟨j, st, hj, hst, hname, mem_append_left _ hmem⟩
  · intro j err hmem
    rcases mem_append.mp hmem with hold | hnew
    · exact h.above j err hold
    · exact (hundid j err (mem_singleton.mp hnew).symm).2
  · intro c hc
    rcases mem_append.mp hc with hold | hnew
    · exact h.behind c hold
    · exact hstored c (mem_singleton.mp hnew).symm

theorem Fit.ran (h : Fit p ev cp) (i : Nat) (err : Option Err) : Fit p (ev ++ [.ran i err]) cp :=
  h.log (fun _ _ he => nomatch he) fun _ he => nomatch he

theorem Fit.length_le (h : Fit p ev cp) : cp.completed.length ≤ p.steps.length := by
  have hlen := congrArg List.length h.names
  simp only [Checkpoint.names, Pipeline.stepNames, length_map, length_take] at hlen
  omega

end Checkpoints

section Loading

variable {p : Pipeline} {ev : List Event} {cp c : Checkpoint}

theorem names_of_firstRenamed {i : Nat} {ds : List DoneStep} {sts : List Step}
    (h : firstRenamed i ds sts = none) (hlen : ds.length ≤ sts.length) :
    ds.map DoneStep.step = (sts.map Step.name).take ds.length := by
  induction ds generalizing i sts with
  | nil => rfl
  | cons d ds ih =>
    cases sts with
    | nil => cases hlen
    | cons st sts =>
      simp only [firstRenamed] at h
      obtain ⟨heq, h⟩ := of_unless h
      rw [map_cons, map_cons, length_cons, take_succ_cons,
        ih h (Nat.le_of_succ_le_succ hlen), not_not.mp heq]

theorem load_json_eq_ok (h : p.load (.json cp) = .ok c) :
    c = cp ∧ cp.names = p.stepNames.take cp.completed.length := by
  simp only [Pipeline.load] at h
  obtain ⟨-, h⟩ := of_unless h
  obtain ⟨-, h⟩ := of_unless h
  split at h
  · cases h
  · obtain ⟨hlen, h⟩ := of_unless h
    split at h
    · cases h
    · next hnames =>
      cases h
      exact ⟨rfl, names_of_firstRenamed hnames (not_lt.mp hlen)⟩

theorem Fit.name_mem (h : Fit p ev cp) {i : Nat} {st : Step} (hi : i < cp.completed.length)
    (hst : p.steps[i]? = some st) : st.name ∈ cp.names := by
  rw [h.names]
  refine mem_of_getElem? (i := i) ?_
  rw [List.getElem?_take_of_lt hi, Pipeline.stepNames, List.getElem?_map, hst]
  rfl

/-- A checkpoint that fits and is accepted when it is loaded comes back with its
progress: had JSON changed a name, it would not be accepted. -/
theorem Fit.load (h : Fit p ev cp) (hload : p.load cp.encode = .ok c) : SameProgress cp c := by
  obtain ⟨rfl, hnames⟩ := load_json_eq_ok hload
  have hmap : cp.names.map jsonString = cp.names.map id := by
    have hjson : cp.json.names = cp.names.map jsonString := by
      simp [Checkpoint.names, Checkpoint.json, DoneStep.json, Function.comp_def]
    have hlen : cp.json.completed.length = cp.completed.length := length_map _
    rw [map_id, ← hjson, hnames, hlen, h.names]
  have hvalid : ∀ n ∈ cp.names, jsonString n = n := map_inj_left.mp hmap
  refine ⟨?_, ?_, ?_⟩
  · refine (map_congr_left ?_).trans (map_id _)
    intro d hd
    have hd' := hvalid d.step (mem_map_of_mem hd)
    unfold DoneStep.json
    rw [hd']
    rfl
  · refine (map_congr_left ?_).trans (map_id _)
    intro n hn
    obtain ⟨i, st, hi, hst, rfl, -⟩ := h.undone n hn
    exact hvalid _ (h.name_mem hi hst)
  · rcases h.phase with hp | hp <;> simp [Checkpoint.json, Phase.json, hp]

end Loading

section Calls

variable {tape : Nat → Answer} {r r' : Run} {st : Step} {event : Option Err → Event}

/-- What a call leaves: the failed tries and, when it returns nil, the last one
are on record, and nothing else of the progress has changed. -/
structure Called (event : Option Err → Event) (r r' : Run) (err : Option Err) : Prop where
  cp : r'.cp = r.cp
  persist : r'.persist = r.persist
  record : r'.record = r.record
  events : ∃ fails : List Err, r'.events =
    r.events ++ fails.map (fun e => event (some e)) ++ if err = none then [event none] else []

theorem called_guarded :
    Called event r (r.guarded tape st event).1 (r.guarded tape st event).2 := by
  unfold Run.guarded
  split
  · exact ⟨rfl, rfl, rfl, [], by simp [Run.next]⟩
  · refine ⟨rfl, rfl, rfl, ?_⟩
    cases hres : (r.ask tape).result.err with
    | none => exact ⟨[], by simp [Run.attempt, Run.log, Run.next, hres]⟩
    | some e => exact ⟨[e], by simp [Run.attempt, Run.log, Run.next, hres]⟩

theorem Called.again {r'' : Run} {e : Err} {err : Option Err} (h₁ : Called event r r' (some e))
    (h₂ : Called event r' r'' err) : Called event r r'' err := by
  obtain ⟨fails₁, hev₁⟩ := h₁.events
  obtain ⟨fails₂, hev₂⟩ := h₂.events
  refine ⟨h₂.cp.trans h₁.cp, h₂.persist.trans h₁.persist, h₂.record.trans h₁.record,
    fails₁ ++ fails₂, ?_⟩
  rw [hev₂, hev₁]
  simp

theorem Called.error {e e' : Err} (h : Called event r r' (some e)) :
    Called event r r' (some e') := by
  obtain ⟨fails, hev⟩ := h.events
  exact ⟨h.cp, h.persist, h.record, fails, by simpa using hev⟩

theorem Called.next {err : Option Err} (h : Called event r r' err) : Called event r r'.next err :=
  ⟨h.cp, h.persist, h.record, h.events⟩

theorem called_retryDo (left : Nat) (r : Run) :
    Called event r (Run.retryDo tape st event left r).1 (Run.retryDo tape st event left r).2 := by
  induction left generalizing r with
  | zero =>
    have hcall : Called event r (r.guarded tape st event).1 (r.guarded tape st event).2 :=
      called_guarded
    simp only [Run.retryDo]
    split
    · next heq =>
      rw [heq] at hcall
      exact hcall
    · next heq =>
      rw [heq] at hcall
      exact hcall.error
  | succ left ih =>
    have hcall : Called event r (r.guarded tape st event).1 (r.guarded tape st event).2 :=
      called_guarded
    simp only [Run.retryDo]
    split
    · next heq =>
      rw [heq] at hcall
      exact hcall
    · next heq =>
      rw [heq] at hcall
      split
      · exact hcall.next.error
      · exact hcall.next.again (ih _)

theorem called_call : Called event r (r.call tape st event).1 (r.call tape st event).2 := by
  unfold Run.call
  split
  · exact called_retryDo _ r
  · exact called_guarded

end Calls

section Runs

variable {p : Pipeline} {base : List Event} {k : Nat} {r r' : Run} {st : Step}

/-- The calls of `Run` in a history: the step and what it returned. -/
def runs (ev : List Event) : List (Nat × Option Err) :=
  ev.filterMap fun e =>
    match e with
    | .ran i err => some (i, err)
    | _ => none

/-- How many of the calls returned nil. -/
def returns (calls : List (Nat × Option Err)) : Nat :=
  (calls.filter fun x => x.2.isNone).length

/-- From step `k` on, each step is called until it returns nil, then the next. -/
def InOrder (k : Nat) (calls : List (Nat × Option Err)) : Prop :=
  Justified (fun pre x => x.1 = k + returns pre) calls

@[simp] theorem runs_append (ev ev' : List Event) : runs (ev ++ ev') = runs ev ++ runs ev' := by
  simp [runs]

@[simp] theorem runs_ran (i : Nat) (err : Option Err) : runs [.ran i err] = [(i, err)] := by
  rfl

@[simp] theorem runs_undid (i : Nat) (err : Option Err) : runs [.undid i err] = [] := by
  rfl

@[simp] theorem runs_stored (cp : Checkpoint) : runs [.stored cp] = [] := by
  rfl

@[simp] theorem returns_append (calls calls' : List (Nat × Option Err)) :
    returns (calls ++ calls') = returns calls + returns calls' := by
  simp [returns]

/-- A run that started at step `k` after the history `base`. -/
structure Sound (p : Pipeline) (base : List Event) (k : Nat) (r : Run) : Prop where
  ok : Justified (EventOk p) (base ++ r.events)
  fit : Fit p (base ++ r.events) r.cp
  record : ∀ record, r.record = some record →
    ∃ cp, lastStored (base ++ r.events) = some cp ∧ record.checkpoint = cp.encode ∧
      Fit p (base ++ r.events) cp
  live : r.persist = false → r.record = none
  order : InOrder k (runs r.events)
  count : r.cp.phase = .forward → r.cp.completed.length = k + returns (runs r.events)
  undos : ∀ i err, .undid i err ∈ r.events → i < r.cp.completed.length

/-- The record is as far as the run. -/
structure Level (p : Pipeline) (base : List Event) (k : Nat) (r : Run) : Prop where
  sound : Sound p base k r
  level : ∀ record, r.record = some record →
    ∀ cp, lastStored (base ++ r.events) = some cp → SameProgress r.cp cp

theorem Sound.congr (h : Sound p base k r) (hcp : SameProgress r.cp r'.cp)
    (hevents : r'.events = r.events) (hrecord : r'.record = r.record)
    (hpersist : r'.persist = r.persist) : Sound p base k r' := by
  refine ⟨?_, ?_, ?_, ?_, ?_, ?_, ?_⟩
  · rw [hevents]
    exact h.ok
  · rw [hevents]
    exact h.fit.congr hcp
  · rw [hevents, hrecord]
    exact h.record
  · rw [hrecord, hpersist]
    exact h.live
  · rw [hevents]
    exact h.order
  · rw [hevents, hcp.phase, hcp.completed]
    exact h.count
  · rw [hevents, hcp.completed]
    exact h.undos

theorem Level.congr (h : Level p base k r) (hcp : SameProgress r.cp r'.cp)
    (hevents : r'.events = r.events) (hrecord : r'.record = r.record)
    (hpersist : r'.persist = r.persist) : Level p base k r' := by
  refine ⟨h.sound.congr hcp hevents hrecord hpersist, ?_⟩
  intro record hr cp hlast
  have hsame := h.level record (hrecord ▸ hr) cp (hevents ▸ hlast)
  exact ⟨hsame.completed.trans hcp.completed.symm,
    hsame.compensated.trans hcp.compensated.symm, hsame.phase.trans hcp.phase.symm⟩

theorem Sound.eventOk_ran (h : Sound p base k r) (hphase : r.cp.phase = .forward)
    (hst : p.steps[r.cp.completed.length]? = some st) (err : Option Err) :
    EventOk p (base ++ r.events) (.ran r.cp.completed.length err) := by
  refine ⟨(List.getElem?_eq_some_iff.mp hst).1, ?_⟩
  intro cp hcp
  have hbehind := h.fit.behind cp hcp
  refine ⟨?_, hbehind.completed.length_le⟩
  intro hcomp
  rw [hbehind.phase hcomp] at hphase
  cases hphase

variable {i : Nat} {err : Option Err}

theorem InOrder.snoc {calls : List (Nat × Option Err)} (h : InOrder k calls)
    (hi : i = k + returns calls) (err : Option Err) : InOrder k (calls ++ [(i, err)]) :=
  Justified.snoc h hi

section

variable (h : Level p base k r) (hphase : r.cp.phase = .forward)
    (hst : p.steps[r.cp.completed.length]? = some st)
include h hphase hst

theorem Level.ran (e : Err) : Level p base k (r.log (.ran r.cp.completed.length (some e))) := by
  have hev : base ++ (r.log (.ran r.cp.completed.length (some e))).events =
      base ++ r.events ++ [.ran r.cp.completed.length (some e)] :=
    (append_assoc _ _ _).symm
  refine ⟨⟨?_, ?_, ?_, h.sound.live, ?_, ?_, ?_⟩, ?_⟩
  · rw [hev]
    exact h.sound.ok.snoc (h.sound.eventOk_ran hphase hst _)
  · rw [hev]
    exact h.sound.fit.ran _ _
  · intro record hr
    obtain ⟨cp, hlast, hcheckpoint, hfit⟩ := h.sound.record record hr
    rw [hev, lastStored_ran]
    exact ⟨cp, hlast, hcheckpoint, hfit.ran _ _⟩
  · rw [Run.log, runs_append, runs_ran]
    exact h.sound.order.snoc (h.sound.count hphase) _
  · intro _
    rw [Run.log, runs_append, runs_ran, returns_append]
    exact h.sound.count hphase
  · intro i err hmem
    exact h.sound.undos i err (by simpa [Run.log] using hmem)
  · rw [hev, lastStored_ran]
    exact h.level

/-- A step's `Run` returns nil, and the checkpoint in memory says so. -/
theorem Level.completed (now : Int) :
    Sound p base k ((r.log (.ran r.cp.completed.length none)).completed st now) := by
  have hfit := h.sound.fit.ran r.cp.completed.length none
  have hev : base ++ ((r.log (.ran r.cp.completed.length none)).completed st now).events =
      base ++ r.events ++ [.ran r.cp.completed.length none] :=
    (append_assoc _ _ _).symm
  have hlen : ((r.log (.ran r.cp.completed.length none)).completed st now).cp.completed.length =
      r.cp.completed.length + 1 :=
    length_append
  refine ⟨?_, ⟨?_, ?_, h.sound.fit.phase, ?_, ?_, ?_, ?_⟩, ?_, h.sound.live, ?_, ?_, ?_⟩
  · rw [hev]
    exact h.sound.ok.snoc (h.sound.eventOk_ran hphase hst _)
  · have hname : p.stepNames[r.cp.completed.length]? = some st.name := by
      rw [Pipeline.stepNames, List.getElem?_map, hst]
      rfl
    rw [hlen, take_add_one, hname, ← h.sound.fit.names]
    simp [Checkpoint.names, Run.completed, Run.log]
  · intro i hi
    rw [hev]
    rw [hlen] at hi
    rcases Nat.lt_succ_iff_lt_or_eq.mp hi with hlt | rfl
    · exact hfit.returned i hlt
    · exact mem_append_right _ mem_cons_self
  · intro _
    rw [hev]
    exact hfit.fresh hphase
  · intro n hn
    change n ∈ r.cp.compensated at hn
    rw [(h.sound.fit.fresh hphase).1] at hn
    cases hn
  · intro j err hmem
    rw [hev] at hmem
    exact absurd hmem ((hfit.fresh hphase).2 j err)
  · intro cp hcp
    rw [hev] at hcp
    exact (hfit.behind cp hcp).trans ⟨prefix_append _ _, prefix_refl _, id⟩
  · intro record hr
    obtain ⟨cp, hlast, hcheckpoint, hold⟩ := h.sound.record record hr
    rw [hev, lastStored_ran]
    exact ⟨cp, hlast, hcheckpoint, hold.ran _ _⟩
  · rw [Run.completed, Run.log, runs_append, runs_ran]
    exact h.sound.order.snoc (h.sound.count hphase) _
  · intro _
    rw [hlen, h.sound.count hphase, Run.completed, Run.log, runs_append, runs_ran, returns_append]
    rfl
  · intro i err hmem
    have hlt := h.sound.undos i err (by simpa [Run.completed, Run.log] using hmem)
    omega

end

/-- A completed step's `Compensate` may be called when the steps above it are
undone. -/
structure MayUndo (p : Pipeline) (cp : Checkpoint) (i : Nat) (st : Step) : Prop where
  step : p.steps[i]? = some st
  lt : i < cp.completed.length
  compensate : st.compensate = true
  notYet : st.name ∉ cp.compensated
  above : ∀ k st, i < k → k < cp.completed.length → p.steps[k]? = some st →
    st.compensate = true → st.name ∈ cp.compensated

theorem Sound.eventOk_undid (h : Sound p base k r) (hmay : MayUndo p r.cp i st) (err : Option Err) :
    EventOk p (base ++ r.events) (.undid i err) := by
  refine ⟨⟨st, hmay.step, hmay.compensate, ?_⟩, h.fit.returned i hmay.lt, ?_⟩
  · intro cp hcp hmem
    exact hmay.notYet ((h.fit.behind cp hcp).compensated.subset hmem)
  · intro j err' hmem
    by_contra hlt
    exact hmay.notYet
      (h.fit.above j err' hmem i st (not_le.mp hlt) hmay.lt hmay.step hmay.compensate)

theorem Level.undid (h : Level p base k r) (hphase : r.cp.phase = .compensating)
    (hmay : MayUndo p r.cp i st) (err : Option Err) : Level p base k (r.log (.undid i err)) := by
  have hev : base ++ (r.log (.undid i err)).events = base ++ r.events ++ [.undid i err] :=
    (append_assoc _ _ _).symm
  have hfit := h.sound.fit.log (e := .undid i err)
    (fun _ _ he => by cases he; exact ⟨hphase, hmay.above⟩) fun _ he => nomatch he
  refine ⟨⟨?_, hev ▸ hfit, ?_, h.sound.live, ?_, ?_, ?_⟩, ?_⟩
  · rw [hev]
    exact h.sound.ok.snoc (h.sound.eventOk_undid hmay err)
  · intro record hr
    obtain ⟨cp, hlast, hcheckpoint, -⟩ := h.sound.record record hr
    rw [hev, lastStored_undid]
    exact ⟨cp, hlast, hcheckpoint, hfit.congr (h.level record hr cp hlast)⟩
  · rw [Run.log, runs_append, runs_undid, append_nil]
    exact h.sound.order
  · intro hforward
    cases hphase.symm.trans hforward
  · intro j err' hmem
    rcases mem_append.mp hmem with hold | hnew
    · exact h.sound.undos j err' hold
    · cases mem_singleton.mp hnew
      exact hmay.lt
  · rw [hev, lastStored_undid]
    exact h.level

theorem Level.undone (h : Level p base k r) (hphase : r.cp.phase = .compensating)
    (hst : p.steps[i]? = some st) (hi : i < r.cp.completed.length)
    (hdone : .undid i none ∈ base ++ r.events) : Sound p base k (r.undone st) := by
  have hbehind : Behind r.cp (r.undone st).cp :=
    ⟨prefix_refl _, prefix_append _ _, id⟩
  refine ⟨h.sound.ok, ⟨h.sound.fit.names, h.sound.fit.returned, h.sound.fit.phase, ?_, ?_, ?_, ?_⟩,
    h.sound.record, h.sound.live, h.sound.order, h.sound.count, h.sound.undos⟩
  · intro hforward
    cases hphase.symm.trans hforward
  · intro n hn
    rcases mem_append.mp hn with hold | hnew
    · exact h.sound.fit.undone n hold
    · rw [mem_singleton.mp hnew]
      exact ⟨i, st, hi, hst, rfl, hdone⟩
  · intro j err hmem k' st' hlt hk hst' hcomp
    exact mem_append_left _ (h.sound.fit.above j err hmem k' st' hlt hk hst' hcomp)
  · intro cp hcp
    exact (h.sound.fit.behind cp hcp).trans hbehind

theorem Level.turned (h : Level p base k r) (hphase : r.cp.phase = .forward) (text : Bytes) :
    Sound p base k (r.turned st text) := by
  obtain ⟨hnone, hundid⟩ := h.sound.fit.fresh hphase
  refine ⟨h.sound.ok, ⟨h.sound.fit.names, h.sound.fit.returned, .inr rfl, ?_, ?_, ?_, ?_⟩,
    h.sound.record, h.sound.live, h.sound.order, ?_, h.sound.undos⟩
  · intro hforward
    cases hforward
  · exact h.sound.fit.undone
  · exact h.sound.fit.above
  · intro cp hcp
    have hbehind := h.sound.fit.behind cp hcp
    exact ⟨hbehind.completed, hbehind.compensated, fun _ => rfl⟩
  · intro hforward
    cases hforward

theorem Sound.commit (h : Sound p base k r) : Level p base k r.commit := by
  have hev : base ++ r.commit.events = base ++ r.events ++ [.stored r.cp] :=
    (append_assoc _ _ _).symm
  have hfit : Fit p (base ++ r.commit.events) r.cp := by
    rw [hev]
    exact h.fit.log (fun _ _ he => nomatch he) fun _ he => by cases he; exact Behind.refl _
  have hrecord : ∀ record, r.commit.record = some record →
      record.checkpoint = r.cp.encode := by
    intro record hr
    obtain ⟨old, -, rfl⟩ := Option.map_eq_some_iff.mp hr
    rfl
  have hruns : runs r.commit.events = runs r.events := by
    simp [Run.commit, Run.log]
  have hlast : lastStored (base ++ r.commit.events) = some r.cp := by
    rw [hev, lastStored_stored]
  refine ⟨⟨?_, hfit, fun record hr => ⟨r.cp, hlast, hrecord record hr, hfit⟩, ?_,
    hruns ▸ h.order, hruns ▸ h.count, ?_⟩, ?_⟩
  · rw [hev]
    exact h.ok.snoc ⟨h.fit.names, h.fit.returned, h.fit.behind⟩
  · intro hlive
    simp [Run.commit, Run.log, h.live hlive]
  · intro i err hmem
    exact h.undos i err (by simpa [Run.commit, Run.log] using hmem)
  · intro _ _ cp hcp
    cases hlast.symm.trans hcp
    exact ⟨rfl, rfl, rfl⟩

/-- After `save` the record is as far as the run if it returned nil. -/
theorem Sound.save (h : Sound p base k r) (tape : Nat → Answer) :
    Sound p base k (r.save tape).1 ∧
      ((r.save tape).2 = none → Level p base k (r.save tape).1) ∧
      SameProgress r.cp (r.save tape).1.cp := by
  have hstate : Sound p base k r.withState := h.congr ⟨rfl, rfl, rfl⟩ rfl rfl rfl
  unfold Run.save
  split
  · next hlive =>
    refine ⟨hstate, fun _ => ⟨hstate, ?_⟩, rfl, rfl, rfl⟩
    intro record hr
    have hnone : r.record = none := h.live hlive
    change r.record = some record at hr
    rw [hnone] at hr
    cases hr
  · have hnext : Sound p base k r.withState.next := hstate.congr ⟨rfl, rfl, rfl⟩ rfl rfl rfl
    unfold Run.persisted
    split
    · exact ⟨hnext.commit.sound, fun _ => hnext.commit, rfl, rfl, rfl⟩
    · split
      · exact ⟨hnext.commit.sound, (fun h => by cases h), rfl, rfl, rfl⟩
      · exact ⟨hnext, (fun h => by cases h), rfl, rfl, rfl⟩

theorem Level.tries (h : Level p base k r) (event : Option Err → Event)
    (htry : ∀ r₁ : Run, r₁.cp = r.cp → Level p base k r₁ → ∀ e,
      Level p base k (r₁.log (event (some e))))
    (fails : List Err) :
    Level p base k { r with events := r.events ++ fails.map fun e => event (some e) } := by
  induction fails using List.reverseRecOn with
  | nil => exact h.congr ⟨rfl, rfl, rfl⟩ (by simp) rfl rfl
  | append_singleton fails e ih =>
    have hlog := htry { r with events := r.events ++ fails.map fun e => event (some e) } rfl ih e
    exact hlog.congr ⟨rfl, rfl, rfl⟩ (by simp [Run.log]) rfl rfl

/-- A call of the next step's `Run`: with an error nothing is ahead of the
record, with nil the step is completed. -/
theorem Level.call_ran (h : Level p base k r) (hphase : r.cp.phase = .forward)
    (hst : p.steps[r.cp.completed.length]? = some st)
    (hcall : Called (.ran r.cp.completed.length) r r' err) :
    (∀ e, err = some e → Level p base k r') ∧
      (err = none → ∀ now, Sound p base k (r'.next.completed st now)) := by
  obtain ⟨fails, hev⟩ := hcall.events
  have htries := h.tries (.ran r.cp.completed.length) (fun r₁ hcp h₁ e => by
    have hran := h₁.ran (hcp ▸ hphase) (hcp ▸ hst) e
    rwa [hcp] at hran) fails
  constructor
  · rintro e rfl
    refine htries.congr ?_ (by simpa using hev) hcall.record hcall.persist
    rw [hcall.cp]
    exact ⟨rfl, rfl, rfl⟩
  · rintro rfl now
    refine (htries.completed hphase hst now).congr ?_
      (by simpa [Run.log, Run.next, Run.completed] using hev) hcall.record hcall.persist
    rw [Run.next, Run.completed, hcall.cp]
    exact ⟨rfl, rfl, rfl⟩

theorem Level.call_undid (h : Level p base k r) (hphase : r.cp.phase = .compensating)
    (hmay : MayUndo p r.cp i st) (hcall : Called (.undid i) r r' err) :
    Level p base k r' ∧ (err = none → .undid i none ∈ base ++ r'.events) := by
  obtain ⟨fails, hev⟩ := hcall.events
  have htries := h.tries (.undid i)
    (fun r₁ hcp h₁ e => h₁.undid (hcp ▸ hphase) (hcp ▸ hmay) (some e)) fails
  have hsame : SameProgress r.cp r'.cp := by
    rw [hcall.cp]
    exact ⟨rfl, rfl, rfl⟩
  cases err with
  | some e => exact ⟨htries.congr hsame (by simpa using hev) hcall.record hcall.persist, by simp⟩
  | none =>
    refine ⟨(htries.undid hphase hmay none).congr hsame (by simpa [Run.log] using hev)
      hcall.record hcall.persist, ?_⟩
    rw [hev]
    simp

end Runs

section Undoing

variable {tape : Nat → Answer} {p : Pipeline} {base : List Event} {k : Nat} {r : Run}

/-- What the end of a run says about its checkpoint. -/
structure Outcome (p : Pipeline) (cp : Checkpoint) (err : Option Err) : Prop where
  done : err = none → cp.completed.length = p.steps.length
  undone : ∀ pipeline step reason n,
    err = some (.permanent (.compensated pipeline step reason n)) →
    ∀ i st, i < cp.completed.length → p.steps[i]? = some st → st.compensate = true →
      st.name ∈ cp.compensated

variable {cp : Checkpoint} {e : Err} {st : Step} {m : Nat} {done : List Bytes}

theorem outcome_error
    (he : ∀ pipeline step reason n, e ≠ .permanent (.compensated pipeline step reason n)) :
    Outcome p cp (some e) :=
  ⟨by simp, fun _ _ _ _ h => absurd (Option.some.inj h) (he _ _ _ _)⟩

theorem ne_compensated_of_not_permanent (h : e.isPermanent = false)
    (pipeline step reason : Bytes) (n : Nat) :
    e ≠ .permanent (.compensated pipeline step reason n) := by
  rintro rfl
  cases h

theorem outcome_undoError (st : Step) (cp : Checkpoint) (e : Err) :
    Outcome p cp (some (Run.undoError p st e)) := by
  refine outcome_error ?_
  unfold Run.undoError
  split
  · simp
  · next h => exact ne_compensated_of_not_permanent (by simpa using h)

theorem outcome_save (h : (r.save tape).2 = some e) : Outcome p cp (some e) := by
  refine outcome_error ?_
  rintro _ _ _ _ rfl
  unfold Run.save Run.persisted at h
  split at h
  · cases h
  · split at h <;> cases h

/-- The steps of a pipeline have distinct names. -/
theorem index_eq_of_name {i j : Nat} {st' : Step} (hi : p.steps[i]? = some st)
    (hj : p.steps[j]? = some st') (hname : st.name = st'.name) : i = j := by
  have hlt : i < (p.steps.map Step.name).length := by
    rw [length_map]
    exact (List.getElem?_eq_some_iff.mp hi).1
  refine (List.getElem?_inj hlt p.nodup).mp ?_
  rw [List.getElem?_map, List.getElem?_map, hi, hj]
  simp [hname]

theorem zipIdx_take_succ (hst : p.steps[m]? = some st) :
    (p.steps.take (m + 1)).zipIdx.reverse = (st, m) :: (p.steps.take m).zipIdx.reverse := by
  have hlt : m < p.steps.length := (List.getElem?_eq_some_iff.mp hst).1
  rw [take_add_one, hst, Option.toList_some, zipIdx_append, reverse_append]
  simp [Nat.min_eq_left hlt.le]

/-- Where the loop of `compensate` is: the steps from `m` on are dealt with, and
only they were added to what was undone before. -/
structure Undoing (p : Pipeline) (done : List Bytes) (m : Nat) (cp : Checkpoint) : Prop where
  phase : cp.phase = .compensating
  le : m ≤ cp.completed.length
  above : ∀ i st, m ≤ i → i < cp.completed.length → p.steps[i]? = some st →
    st.compensate = true → st.name ∈ cp.compensated
  old : ∀ n ∈ done, n ∈ cp.compensated
  new : ∀ n ∈ cp.compensated, n ∈ done ∨ ∃ i st, m ≤ i ∧ p.steps[i]? = some st ∧ st.name = n

theorem Undoing.mayUndo (h : Undoing p done (m + 1) cp) (hst : p.steps[m]? = some st)
    (hcomp : st.compensate = true) (hdone : st.name ∉ done) : MayUndo p cp m st := by
  refine ⟨hst, h.le, hcomp, ?_, fun i st' hlt => h.above i st' hlt⟩
  intro hmem
  rcases h.new st.name hmem with hold | ⟨i, st', hi, hst', hname⟩
  · exact hdone hold
  · have heq := index_eq_of_name hst' hst hname
    omega

theorem Undoing.next {cp' : Checkpoint} (h : Undoing p done (m + 1) cp)
    (hst : p.steps[m]? = some st)
    (hsame : SameProgress { cp with compensated := cp.compensated ++ [st.name] } cp') :
    Undoing p done m cp' := by
  obtain ⟨hcompleted, hcompensated, hphase⟩ := hsame
  refine ⟨hphase.trans h.phase, ?_, ?_, ?_, ?_⟩
  · rw [hcompleted]
    exact Nat.le_of_succ_le h.le
  · rw [hcompleted, hcompensated]
    intro i st' hi hlt hst' hcomp
    rcases Nat.eq_or_lt_of_le hi with rfl | hlt'
    · obtain rfl : st = st' := Option.some.inj (hst.symm.trans hst')
      exact mem_append_right _ mem_cons_self
    · exact mem_append_left _ (h.above i st' hlt' hlt hst' hcomp)
  · rw [hcompensated]
    exact fun n hn => mem_append_left _ (h.old n hn)
  · rw [hcompensated]
    intro n hn
    rcases mem_append.mp hn with hn | hn
    · rcases h.new n hn with hold | ⟨i, st', hi, hst', hname⟩
      · exact .inl hold
      · exact .inr ⟨i, st', Nat.le_of_succ_le hi, hst', hname⟩
    · exact .inr ⟨m, st, le_refl m, hst, (mem_singleton.mp hn).symm⟩

theorem Level.undo (h : Level p base k r) (hu : Undoing p done m r.cp) :
    Sound p base k (Run.undo tape p done (p.steps.take m).zipIdx.reverse r).1 ∧
      Outcome p (Run.undo tape p done (p.steps.take m).zipIdx.reverse r).1.cp
        (Run.undo tape p done (p.steps.take m).zipIdx.reverse r).2 := by
  induction m generalizing r with
  | zero =>
    refine ⟨h.sound, by simp [Run.undo], ?_⟩
    intro _ _ _ _ _ i st hi hst hcomp
    exact hu.above i st (Nat.zero_le i) hi hst hcomp
  | succ m ih =>
    obtain ⟨st, hst⟩ : ∃ st, p.steps[m]? = some st := by
      refine ⟨_, List.getElem?_eq_getElem ?_⟩
      exact lt_of_lt_of_le (Nat.lt_of_succ_le hu.le) h.sound.fit.length_le
    rw [zipIdx_take_succ hst]
    simp only [Run.undo]
    split
    · next hskip =>
      -- the step has nothing to undo, or it was undone in an earlier attempt
      refine ih h ⟨hu.phase, Nat.le_of_succ_le hu.le, ?_, hu.old, ?_⟩
      · intro i st' hi hlt hst' hcomp
        rcases Nat.eq_or_lt_of_le hi with rfl | hlt'
        · obtain rfl : st = st' := Option.some.inj (hst.symm.trans hst')
          rcases hskip with hno | hold
          · rw [hcomp] at hno
            cases hno
          · exact hu.old _ hold
        · exact hu.above i st' hlt' hlt hst' hcomp
      · intro n hn
        rcases hu.new n hn with hold | ⟨i, st', hi, hst', hname⟩
        · exact .inl hold
        · exact .inr ⟨i, st', Nat.le_of_succ_le hi, hst', hname⟩
    · next hrun =>
      obtain ⟨hcomp, hdone⟩ := not_or.mp hrun
      have hmay := hu.mayUndo hst (by simpa using hcomp) hdone
      have hcall : Called (.undid m) r (r.call tape st (.undid m)).1
          (r.call tape st (.undid m)).2 := called_call
      split
      · next r₁ e heq =>
        rw [heq] at hcall
        have h₁ := (h.call_undid hu.phase hmay hcall).1
        exact ⟨h₁.sound.congr ⟨rfl, rfl, rfl⟩ rfl rfl rfl, outcome_undoError _ _ _⟩
      · next r₁ heq =>
        rw [heq] at hcall
        obtain ⟨h₁, hmem⟩ := h.call_undid hu.phase hmay hcall
        have hcp : r₁.cp = r.cp := hcall.cp
        have hundone := h₁.undone (hcp ▸ hu.phase) hst (hcp ▸ hmay.lt) (hmem rfl)
        obtain ⟨hs, hlevel, hsame⟩ := hundone.save tape
        split
        · next hsave =>
          rw [hsave] at hs
          exact ⟨hs, outcome_save (congrArg Prod.snd hsave)⟩
        · next hsave =>
          rw [hsave] at hlevel hsame
          have hundoneCp : (r₁.undone st).cp =
              { r.cp with compensated := r.cp.compensated ++ [st.name] } := by
            rw [Run.undone, hcp]
          exact ih (hlevel rfl) (hu.next hst (hundoneCp ▸ hsame))

theorem Level.compensate (h : Level p base k r) (hphase : r.cp.phase = .compensating) :
    Sound p base k (r.compensate tape p).1 ∧
      Outcome p (r.compensate tape p).1.cp (r.compensate tape p).2 := by
  refine h.undo ⟨hphase, le_refl _, ?_, fun n hn => hn, fun n hn => .inl hn⟩
  intro i st hi hlt
  omega

end Undoing

section Advancing

variable {tape : Nat → Answer} {p : Pipeline} {base : List Event} {k : Nat} {r : Run}

theorem Level.failed (h : Level p base k r) (hphase : r.cp.phase = .forward) (st : Step) (e : Err) :
    Sound p base k (r.failed tape p st e).1 ∧
      Outcome p (r.failed tape p st e).1.cp (r.failed tape p st e).2 := by
  have hnext : Level p base k r.next := h.congr ⟨rfl, rfl, rfl⟩ rfl rfl rfl
  unfold Run.failed Run.failedAs
  split
  · next hperm => exact ⟨hnext.sound, outcome_error (ne_compensated_of_not_permanent hperm)⟩
  · split
    · have hturned : Sound p base k
          (r.next.turned st (p.redactor (Run.classify (r.ask tape).ctx st e))) :=
        hnext.turned hphase _
      obtain ⟨hs, hlevel, hsame⟩ := hturned.save tape
      split
      · next hsave =>
        rw [hsave] at hs
        exact ⟨hs, outcome_save (congrArg Prod.snd hsave)⟩
      · next hsave =>
        rw [hsave] at hlevel hsame
        exact (hlevel rfl).compensate hsame.phase
    · exact ⟨hnext.sound, outcome_error (by simp)⟩

theorem Level.forward {todo : List Step} {i : Nat} (h : Level p base k r)
    (hphase : r.cp.phase = .forward) (hi : i = r.cp.completed.length)
    (htodo : todo = p.steps.drop i) :
    Sound p base k (Run.forward tape p todo i r).1 ∧
      Outcome p (Run.forward tape p todo i r).1.cp (Run.forward tape p todo i r).2 := by
  induction todo generalizing i r with
  | nil =>
    refine ⟨h.sound, ?_, by simp [Run.forward]⟩
    intro _
    have hge : p.steps.length ≤ i := drop_eq_nil_iff.mp htodo.symm
    have hle := h.sound.fit.length_le
    change r.cp.completed.length = p.steps.length
    omega
  | cons st rest ih =>
    subst hi
    have hst : p.steps[r.cp.completed.length]? = some st := by
      have hhead := congrArg List.head? htodo
      rw [List.head?_drop] at hhead
      exact hhead.symm
    have hrest : rest = p.steps.drop (r.cp.completed.length + 1) := by
      have htail := congrArg List.tail htodo
      rwa [tail_drop] at htail
    have hcall : Called (.ran r.cp.completed.length) r
        (r.call tape st (.ran r.cp.completed.length)).1
        (r.call tape st (.ran r.cp.completed.length)).2 := called_call
    obtain ⟨hbad, hgood⟩ := h.call_ran hphase hst hcall
    simp only [Run.forward]
    split
    · next r₁ e heq =>
      rw [heq] at hcall hbad
      exact (hbad e rfl).failed (hcall.cp ▸ hphase) st e
    · next r₁ heq =>
      rw [heq] at hcall hgood
      obtain ⟨hs, hlevel, hsame⟩ := (hgood rfl (r₁.ask tape).now).save tape
      have hcp : r₁.cp = r.cp := hcall.cp
      split
      · next hsave =>
        rw [hsave] at hs
        exact ⟨hs, outcome_save (congrArg Prod.snd hsave)⟩
      · next r₂ hsave =>
        rw [hsave] at hlevel hsame
        refine ih (hlevel rfl) ?_ ?_ hrest
        · exact hsame.phase.trans ((congrArg Checkpoint.phase hcp).trans hphase)
        · rw [hsame.completed, Run.completed, Run.next, hcp]
          simp

/-- `advance` keeps the run sound, and its result fits the checkpoint. -/
theorem Level.advance (h : Level p base k r) (tape : Nat → Answer) :
    Sound p base k (r.advance tape p).1 ∧
      Outcome p (r.advance tape p).1.cp (r.advance tape p).2 := by
  unfold Run.advance
  split
  · next hphase => exact h.compensate hphase
  · next hphase =>
    exact h.forward (h.sound.fit.phase.resolve_right hphase) rfl rfl

end Advancing

end Pipe
end GoGuard
