import GoGuard.Pipeline.Rewind
import Mathlib.Logic.Relation

/-!
# What one run does

`advance` is a sequence of small acts: a try of a step that fails, a step that
completes, the turn of a saga, a try of a `Compensate`, a step that is undone, a
write to the store.  What a run leaves behind is proved once per act: no step
runs forward after one has been undone, and every stored checkpoint reflects the
calls before it.
-/

namespace GoGuard
namespace Pipe

open Lib Dlq List
open Kafka (Input Result)

namespace Run

section Acts

/-- Only the data and the answers used are different. -/
structure Quiet (r r' : Run) : Prop where
  cp : r'.cp = { r.cp with state := r'.cp.state }
  persist : r'.persist = r.persist
  record : r'.record = r.record
  events : r'.events = r.events

/-- One act of a run. -/
inductive Act (p : Pipeline) : Run → Run → Prop where
  | quiet {r r' : Run} :
      Quiet r r' → Act p r r'
  /-- a try of the next step fails -/
  | failed (r : Run) (e : Err) :
      r.cp.phase ≠ .compensating →
      Act p r (r.log (.ran r.cp.completed.length (some e)))
  /-- the next step returns nil -/
  | completed (r : Run) (st : Step) (now : Int) :
      r.cp.phase ≠ .compensating → p.steps[r.cp.completed.length]? = some st →
      Act p r ((r.log (.ran r.cp.completed.length none)).completed st now)
  /-- the saga turns back -/
  | turned (r : Run) (st : Step) (text : Bytes) :
      Act p r (r.turned st text)
  /-- a try of a step's `Compensate` fails -/
  | stuck (r : Run) (i : Nat) (e : Err) :
      r.cp.phase = .compensating →
      Act p r (r.log (.undid i (some e)))
  /-- a step's `Compensate` returns nil -/
  | undone (r : Run) (i : Nat) (st : Step) :
      r.cp.phase = .compensating → i < r.cp.completed.length → p.steps[i]? = some st →
      Act p r ((r.log (.undid i none)).undone st)
  /-- the checkpoint becomes durable -/
  | commit (r : Run) :
      r.persist = true →
      Act p r r.commit

/-- A number of acts. -/
abbrev Acts (p : Pipeline) : Run → Run → Prop :=
  Relation.ReflTransGen (Act p)

variable {tape : Nat → Answer} {p : Pipeline} {r r' r'' : Run} {st : Step}

theorem Quiet.acts (h : Quiet r r') : Acts p r r' :=
  .single (.quiet h)

theorem acts_tries {event : Option Err → Event}
    (htry : ∀ r₁ : Run, r₁.cp = r.cp → ∀ e, Act p r₁ (r₁.log (event (some e)))) (fails : List Err) :
    Acts p r { r with events := r.events ++ fails.map fun e => event (some e) } := by
  induction fails using List.reverseRecOn with
  | nil => exact Quiet.acts ⟨rfl, rfl, rfl, by simp⟩
  | append_singleton fails e ih =>
    refine ih.tail ?_
    have hact := htry { r with events := r.events ++ fails.map fun e => event (some e) } rfl e
    simpa [Run.log] using hact

theorem acts_ran_failed {e : Err} (hphase : r.cp.phase ≠ .compensating)
    (hcall : Called (.ran r.cp.completed.length) r r' (some e)) : Acts p r r' := by
  obtain ⟨fails, hev⟩ := hcall.events
  have htries : Acts p r
      { r with events := r.events ++ fails.map fun e => .ran r.cp.completed.length (some e) } :=
    acts_tries (fun r₁ hcp e' => by
      rw [← hcp]
      exact .failed r₁ e' (hcp ▸ hphase)) fails
  refine htries.trans (Quiet.acts ⟨?_, hcall.persist, hcall.record, ?_⟩)
  · rw [hcall.cp]
  · rw [hev]
    simp

/-- A call of the next step that returns nil, and the step is completed. -/
theorem acts_ran (hphase : r.cp.phase ≠ .compensating)
    (hst : p.steps[r.cp.completed.length]? = some st)
    (hcall : Called (.ran r.cp.completed.length) r r' none) (now : Int) :
    Acts p r (r'.next.completed st now) := by
  obtain ⟨fails, hev⟩ := hcall.events
  have htries : Acts p r
      { r with events := r.events ++ fails.map fun e => .ran r.cp.completed.length (some e) } :=
    acts_tries (fun r₁ hcp e' => by
      rw [← hcp]
      exact .failed r₁ e' (hcp ▸ hphase)) fails
  refine (htries.tail (.completed _ st now hphase hst)).trans
    (Quiet.acts ⟨?_, hcall.persist, hcall.record, ?_⟩)
  · simp [Run.completed, Run.next, Run.log, hcall.cp]
  · simp [Run.completed, Run.next, Run.log, hev]

theorem acts_undid_failed {i : Nat} {e : Err} (hphase : r.cp.phase = .compensating)
    (hcall : Called (.undid i) r r' (some e)) : Acts p r r' := by
  obtain ⟨fails, hev⟩ := hcall.events
  have htries : Acts p r { r with events := r.events ++ fails.map fun e => .undid i (some e) } :=
    acts_tries (fun r₁ hcp e' => .stuck r₁ i e' (hcp ▸ hphase)) fails
  refine htries.trans (Quiet.acts ⟨?_, hcall.persist, hcall.record, ?_⟩)
  · rw [hcall.cp]
  · rw [hev]
    simp

theorem acts_undid {i : Nat} (hphase : r.cp.phase = .compensating) (hi : i < r.cp.completed.length)
    (hst : p.steps[i]? = some st) (hcall : Called (.undid i) r r' none) :
    Acts p r (r'.undone st) := by
  obtain ⟨fails, hev⟩ := hcall.events
  have htries : Acts p r { r with events := r.events ++ fails.map fun e => .undid i (some e) } :=
    acts_tries (fun r₁ hcp e' => .stuck r₁ i e' (hcp ▸ hphase)) fails
  refine (htries.tail (.undone _ i st hphase hi hst)).trans
    (Quiet.acts ⟨?_, hcall.persist, hcall.record, ?_⟩)
  · simp [Run.undone, Run.log, hcall.cp]
  · simp [Run.undone, Run.log, hev]

theorem acts_save : Acts p r (r.save tape).1 := by
  have hstate : Acts p r r.withState := Quiet.acts ⟨rfl, rfl, rfl, rfl⟩
  unfold Run.save
  split
  · exact hstate
  · next hpersist =>
    have hnext : Acts p r r.withState.next := hstate.trans (Quiet.acts ⟨rfl, rfl, rfl, rfl⟩)
    have hcommit : Acts p r r.withState.next.commit :=
      hnext.tail (.commit _ (by simpa [Run.withState, Run.next] using hpersist))
    unfold Run.persisted
    split
    · exact hcommit
    · split
      · exact hcommit
      · exact hnext

/-- `save` changes only the data of the checkpoint. -/
theorem save_cp : (r.save tape).1.cp = { r.cp with state := r.state } := by
  unfold Run.save Run.persisted
  split
  · rfl
  · split
    · rfl
    · split <;> rfl

theorem acts_undo {done : List Bytes} {todo : List (Step × Nat)}
    (hphase : r.cp.phase = .compensating)
    (htodo : ∀ x ∈ todo, x.2 < r.cp.completed.length ∧ p.steps[x.2]? = some x.1) :
    Acts p r (Run.undo tape p done todo r).1 := by
  induction todo generalizing r with
  | nil => exact .refl
  | cons x rest ih =>
    obtain ⟨st, i⟩ := x
    obtain ⟨hi, hst⟩ := htodo (st, i) mem_cons_self
    have hrest := fun x hx => htodo x (mem_cons_of_mem _ hx)
    simp only [Run.undo]
    split
    · exact ih hphase hrest
    · have hcall : Called (.undid i) r (r.call tape st (.undid i)).1
          (r.call tape st (.undid i)).2 := called_call
      split
      · next r₁ e heq =>
        rw [heq] at hcall
        exact (acts_undid_failed hphase hcall).trans (Quiet.acts ⟨rfl, rfl, rfl, rfl⟩)
      · next r₁ heq =>
        rw [heq] at hcall
        have hacts : Acts p r ((r₁.undone st).save tape).1 :=
          (acts_undid hphase hi hst hcall).trans acts_save
        have hcp : ((r₁.undone st).save tape).1.cp.phase = r.cp.phase ∧
            ((r₁.undone st).save tape).1.cp.completed = r.cp.completed := by
          have hcp₁ : r₁.cp = r.cp := hcall.cp
          simp [save_cp, Run.undone, hcp₁]
        split
        · next hsave =>
          rw [hsave] at hacts
          exact hacts
        · next hsave =>
          rw [hsave] at hacts hcp
          refine hacts.trans (ih (hcp.1.trans hphase) ?_)
          rw [hcp.2]
          exact hrest

theorem acts_compensate (hphase : r.cp.phase = .compensating) :
    Acts p r (r.compensate tape p).1 := by
  refine acts_undo hphase ?_
  rintro ⟨st, i⟩ hx
  have hget : (p.steps.take r.cp.completed.length)[i]? = some st :=
    mk_mem_zipIdx_iff_getElem?.mp (mem_reverse.mp hx)
  rw [List.getElem?_take] at hget
  obtain ⟨hi, hget⟩ := of_when hget
  exact ⟨hi, hget⟩

theorem acts_failed (st : Step) (e : Err) : Acts p r (r.failed tape p st e).1 := by
  have hnext : Acts p r r.next := Quiet.acts ⟨rfl, rfl, rfl, rfl⟩
  unfold Run.failed Run.failedAs
  split
  · exact hnext
  · split
    · have hturned : Acts p r
          ((r.next.turned st (p.redactor (Run.classify (r.ask tape).ctx st e))).save tape).1 :=
        (hnext.tail (.turned _ st _)).trans acts_save
      split
      · next hsave =>
        rw [hsave] at hturned
        exact hturned
      · next r₁ hsave =>
        rw [hsave] at hturned
        refine hturned.trans (acts_compensate ?_)
        have hcp := congrArg (fun x => x.1.cp.phase) hsave
        rw [save_cp] at hcp
        exact hcp.symm
    · exact hnext

theorem acts_forward {todo : List Step} {i : Nat} (hphase : r.cp.phase ≠ .compensating)
    (hi : i = r.cp.completed.length) (htodo : todo = p.steps.drop i) :
    Acts p r (Run.forward tape p todo i r).1 := by
  induction todo generalizing i r with
  | nil => exact .refl
  | cons st rest ih =>
    subst hi
    have hst : p.steps[r.cp.completed.length]? = some st := by
      have hhead := congrArg List.head? htodo
      rw [List.head?_drop] at hhead
      exact hhead.symm
    have hrest : rest = p.steps.drop (r.cp.completed.length + 1) := by
      have htail := congrArg List.tail htodo
      rwa [tail_drop] at htail
    have hcall : Called (.ran r.cp.completed.length) r
        (r.call tape st (.ran r.cp.completed.length)).1
        (r.call tape st (.ran r.cp.completed.length)).2 := called_call
    simp only [Run.forward]
    split
    · next r₁ e heq =>
      rw [heq] at hcall
      exact (acts_ran_failed hphase hcall).trans (acts_failed st e)
    · next r₁ heq =>
      rw [heq] at hcall
      have hacts : Acts p r ((r₁.next.completed st (r₁.ask tape).now).save tape).1 :=
        (acts_ran hphase hst hcall _).trans acts_save
      have hcp : ((r₁.next.completed st (r₁.ask tape).now).save tape).1.cp.phase =
            r.cp.phase ∧
          ((r₁.next.completed st (r₁.ask tape).now).save tape).1.cp.completed.length =
            r.cp.completed.length + 1 := by
        have hcp₁ : r₁.cp = r.cp := hcall.cp
        simp [save_cp, Run.completed, Run.next, hcp₁]
      split
      · next hsave =>
        rw [hsave] at hacts
        exact hacts
      · next hsave =>
        rw [hsave] at hacts hcp
        exact hacts.trans (ih (hcp.1 ▸ hphase) hcp.2.symm hrest)

theorem acts_advance (tape : Nat → Answer) (p : Pipeline) (r : Run) :
    Acts p r (r.advance tape p).1 := by
  unfold Run.advance
  split
  · next hphase => exact acts_compensate hphase
  · next hphase => exact acts_forward hphase rfl rfl

end Acts

end Run

section Reflects

variable {p : Pipeline} {cp₀ cp : Checkpoint} {ev : List Event}

theorem nameAt_eq {i : Nat} {st : Step} (hst : p.steps[i]? = some st) : p.nameAt i = st.name := by
  simp [Pipeline.nameAt, Pipeline.stepNames, hst]

/-- What a checkpoint says about the calls of a run that started from `cp₀`. -/
structure Reflects (p : Pipeline) (cp₀ : Checkpoint) (ev : List Event) (cp : Checkpoint) : Prop where
  epoch : cp.epoch = cp₀.epoch
  completed : cp₀.completed <+: cp.completed
  compensated : cp₀.compensated <+: cp.compensated
  phase : cp₀.phase = .compensating → cp.phase = .compensating
  turned : ∀ i err, .undid i err ∈ ev → cp.phase = .compensating
  returned : ∀ i, cp₀.completed.length ≤ i → i < cp.completed.length → .ran i none ∈ ev
  undone : ∀ i, .undid i none ∈ ev → i < cp.completed.length ∧ p.nameAt i ∈ cp.compensated
  recorded : ∀ n ∈ cp.compensated, n ∈ cp₀.compensated ∨ ∃ i, p.nameAt i = n ∧ .undid i none ∈ ev
  names : cp₀.names = p.stepNames.take cp₀.completed.length →
    cp.names = p.stepNames.take cp.completed.length

theorem reflects_start (p : Pipeline) (cp : Checkpoint) : Reflects p cp [] cp := by
  refine ⟨rfl, prefix_refl _, prefix_refl _, id, ?_, ?_, ?_, fun n hn => .inl hn, id⟩
  · intro i err hmem
    cases hmem
  · intro i hle hlt
    omega
  · intro i hmem
    cases hmem

section

variable (h : Reflects p cp₀ ev cp)
include h

theorem Reflects.snoc {e : Event} (he : ∀ i err, e ≠ .undid i err) :
    Reflects p cp₀ (ev ++ [e]) cp := by
  have hundid : ∀ i err, .undid i err ∈ ev ++ [e] → .undid i err ∈ ev := by
    intro i err hmem
    rcases mem_append.mp hmem with hold | hnew
    · exact hold
    · exact absurd (mem_singleton.mp hnew).symm (he i err)
  refine ⟨h.epoch, h.completed, h.compensated, h.phase, ?_, ?_, ?_, ?_, h.names⟩
  · intro i err hmem
    exact h.turned i err (hundid i err hmem)
  · intro i hle hlt
    exact mem_append_left _ (h.returned i hle hlt)
  · intro i hmem
    exact h.undone i (hundid i none hmem)
  · intro n hn
    rcases h.recorded n hn with hold | ⟨i, hname, hmem⟩
    · exact .inl hold
    · exact .inr ⟨i, hname, mem_append_left _ hmem⟩

theorem Reflects.ran {st : Step} (hst : p.steps[cp.completed.length]? = some st) (now : Int) :
    Reflects p cp₀ (ev ++ [.ran cp.completed.length none])
      { cp with completed := cp.completed ++ [⟨st.name, now⟩] } := by
  have hev := h.snoc (e := .ran cp.completed.length none) (by simp)
  refine ⟨h.epoch, h.completed.trans (prefix_append _ _), h.compensated, h.phase,
    hev.turned, ?_, ?_, hev.recorded, ?_⟩
  · intro i hle hlt
    rw [length_append, length_singleton] at hlt
    rcases Nat.lt_succ_iff_lt_or_eq.mp hlt with hlt | rfl
    · exact hev.returned i hle hlt
    · exact mem_append_right _ mem_cons_self
  · intro i hmem
    obtain ⟨hlt, hname⟩ := hev.undone i hmem
    refine ⟨?_, hname⟩
    rw [length_append]
    omega
  · intro hnames
    have hname : p.stepNames[cp.completed.length]? = some st.name := by
      rw [Pipeline.stepNames, List.getElem?_map, hst]
      rfl
    rw [length_append, length_singleton, take_add_one, hname, ← h.names hnames]
    simp [Checkpoint.names]

theorem Reflects.undid (hphase : cp.phase = .compensating) {i : Nat}
    (hi : i < cp.completed.length) :
    Reflects p cp₀ (ev ++ [.undid i none])
      { cp with compensated := cp.compensated ++ [p.nameAt i] } := by
  refine ⟨h.epoch, h.completed, h.compensated.trans (prefix_append _ _), h.phase,
    fun _ _ _ => hphase, ?_, ?_, ?_, h.names⟩
  · intro j hle hlt
    exact mem_append_left _ (h.returned j hle hlt)
  · intro j hmem
    rcases mem_append.mp hmem with hold | hnew
    · exact ⟨(h.undone j hold).1, mem_append_left _ (h.undone j hold).2⟩
    · cases mem_singleton.mp hnew
      exact ⟨hi, mem_append_right _ mem_cons_self⟩
  · intro n hn
    rcases mem_append.mp hn with hold | hnew
    · rcases h.recorded n hold with hstart | ⟨j, hname, hmem⟩
      · exact .inl hstart
      · exact .inr ⟨j, hname, mem_append_left _ hmem⟩
    · exact .inr ⟨i, (mem_singleton.mp hnew).symm,
        mem_append_right _ mem_cons_self⟩

theorem Reflects.stuck (hphase : cp.phase = .compensating)
    (i : Nat) (e : Err) : Reflects p cp₀ (ev ++ [.undid i (some e)]) cp := by
  have hundid : ∀ j, .undid j none ∈ ev ++ [.undid i (some e)] → .undid j none ∈ ev := by
    intro j hmem
    simpa using hmem
  refine ⟨h.epoch, h.completed, h.compensated, h.phase, fun _ _ _ => hphase, ?_, ?_, ?_, h.names⟩
  · intro j hle hlt
    exact mem_append_left _ (h.returned j hle hlt)
  · intro j hmem
    exact h.undone j (hundid j hmem)
  · intro n hn
    rcases h.recorded n hn with hold | ⟨j, hname, hmem⟩
    · exact .inl hold
    · exact .inr ⟨j, hname, mem_append_left _ hmem⟩

theorem Reflects.turn {cp' : Checkpoint} (hepoch : cp'.epoch = cp.epoch)
    (hcompleted : cp'.completed = cp.completed) (hcompensated : cp'.compensated = cp.compensated)
    (hphase : cp.phase = .compensating → cp'.phase = .compensating) : Reflects p cp₀ ev cp' := by
  refine ⟨hepoch.trans h.epoch, ?_, ?_, fun h₀ => hphase (h.phase h₀),
    fun i err hmem => hphase (h.turned i err hmem), ?_, ?_, ?_, ?_⟩
  · rw [hcompleted]
    exact h.completed
  · rw [hcompensated]
    exact h.compensated
  · rw [hcompleted]
    exact h.returned
  · rw [hcompleted, hcompensated]
    exact h.undone
  · rw [hcompensated]
    exact h.recorded
  · have hsame : cp'.names = cp.names := congrArg (List.map DoneStep.step) hcompleted
    rw [hsame, hcompleted]
    exact h.names

end

end Reflects

section Tracked

variable {p : Pipeline} {r₀ r r' : Run}

/-- When an event may follow the earlier ones of a run from `cp₀`. -/
def RunOk (p : Pipeline) (cp₀ : Checkpoint) (pre : List Event) : Event → Prop
  | .ran i _ =>
    cp₀.phase ≠ .compensating ∧ cp₀.completed.length ≤ i ∧ ∀ j err, .undid j err ∉ pre
  | .undid _ _ => True
  | .stored cp => Reflects p cp₀ pre cp

/-- The record with the checkpoint that was stored last. -/
def recordAfter (record : Option Stored) (ev : List Event) : Option Stored :=
  match lastStored ev with
  | none => record
  | some cp => record.map fun record => { record with checkpoint := cp.encode }

/-- A run that started as `r₀`. -/
structure Tracked (p : Pipeline) (r₀ r : Run) : Prop where
  persist : r.persist = r₀.persist
  reflects : Reflects p r₀.cp r.events r.cp
  ok : Justified (RunOk p r₀.cp) r.events
  live : r₀.persist = false → ∀ cp, .stored cp ∉ r.events
  record : r.record = recordAfter r₀.record r.events

theorem tracked_start (p : Pipeline) (hevents : r₀.events = []) : Tracked p r₀ r₀ := by
  refine ⟨rfl, ?_, ?_, ?_, ?_⟩
  · rw [hevents]
    exact reflects_start p r₀.cp
  · rw [hevents]
    exact justified_nil
  · rw [hevents]
    intro _ cp hmem
    cases hmem
  · rw [hevents]
    rfl

theorem Tracked.runOk_ran (h : Tracked p r₀ r) (hphase : r.cp.phase ≠ .compensating)
    (err : Option Err) : RunOk p r₀.cp r.events (.ran r.cp.completed.length err) := by
  refine ⟨fun h₀ => hphase (h.reflects.phase h₀), h.reflects.completed.length_le, ?_⟩
  intro j err' hmem
  exact hphase (h.reflects.turned j err' hmem)

theorem Tracked.log (h : Tracked p r₀ r) {e : Event} {r' : Run} (hpersist : r'.persist = r.persist)
    (hrecord : r'.record = r.record) (hevents : r'.events = r.events ++ [e])
    (he : ∀ cp, e ≠ .stored cp) (hok : RunOk p r₀.cp r.events e)
    (hreflects : Reflects p r₀.cp (r.events ++ [e]) r'.cp) : Tracked p r₀ r' := by
  have hlast : lastStored (r.events ++ [e]) = lastStored r.events := by
    cases e with
    | ran i err => exact lastStored_ran _ _ _
    | undid i err => exact lastStored_undid _ _ _
    | stored cp => exact absurd rfl (he cp)
  refine ⟨hpersist.trans h.persist, hevents ▸ hreflects, ?_, ?_, ?_⟩
  · rw [hevents]
    exact h.ok.snoc hok
  · intro hlive cp hmem
    rw [hevents] at hmem
    rcases mem_append.mp hmem with hold | hnew
    · exact h.live hlive cp hold
    · exact he cp (mem_singleton.mp hnew).symm
  · rw [hrecord, hevents, h.record, recordAfter, recordAfter, hlast]

theorem Tracked.commit (h : Tracked p r₀ r) (hpersist : r.persist = true) :
    Tracked p r₀ r.commit := by
  refine ⟨h.persist, h.reflects.snoc (by simp), h.ok.snoc h.reflects, ?_, ?_⟩
  · intro hlive
    rw [← h.persist, hpersist] at hlive
    cases hlive
  · have hlast : recordAfter r₀.record (r.events ++ [.stored r.cp]) =
        r₀.record.map fun record => { record with checkpoint := r.cp.encode } := by
      rw [recordAfter, lastStored_stored]
    change r.record.map _ = recordAfter r₀.record (r.events ++ [.stored r.cp])
    rw [hlast, h.record, recordAfter]
    split
    · rfl
    · rw [Option.map_map]
      rfl

theorem Tracked.act (h : Tracked p r₀ r) (hact : Run.Act p r r') : Tracked p r₀ r' := by
  cases hact with
  | quiet hq =>
    refine ⟨hq.persist.trans h.persist, ?_, ?_, ?_, ?_⟩
    · rw [hq.events, hq.cp]
      exact h.reflects.turn rfl rfl rfl id
    · rw [hq.events]
      exact h.ok
    · rw [hq.events]
      exact h.live
    · rw [hq.events, hq.record]
      exact h.record
  | failed e hphase =>
    exact h.log rfl rfl rfl (by simp) (h.runOk_ran hphase _) (h.reflects.snoc (by simp))
  | completed st now hphase hst =>
    exact h.log rfl rfl rfl (by simp) (h.runOk_ran hphase _) (h.reflects.ran hst now)
  | turned st text =>
    exact ⟨h.persist, h.reflects.turn rfl rfl rfl (fun _ => rfl), h.ok, h.live, h.record⟩
  | stuck i e hphase =>
    exact h.log rfl rfl rfl (by simp) trivial (h.reflects.stuck hphase i e)
  | undone i st hphase hi hst =>
    refine h.log rfl rfl rfl (by simp) trivial ?_
    have hundid := h.reflects.undid hphase hi
    rw [nameAt_eq hst] at hundid
    exact hundid
  | commit hpersist => exact h.commit hpersist

theorem tracked_advance (tape : Nat → Answer) (p : Pipeline) (r₀ : Run) (hevents : r₀.events = []) :
    Tracked p r₀ (r₀.advance tape p).1 := by
  have hacts := Run.acts_advance tape p r₀
  generalize (r₀.advance tape p).1 = r at hacts ⊢
  induction hacts with
  | refl => exact tracked_start p hevents
  | tail _ hact ih => exact ih.act hact

theorem Tracked.record_none (h : Tracked p r₀ r) (hnone : r₀.record = none) : r.record = none := by
  rw [h.record, recordAfter, hnone]
  split <;> rfl

end Tracked

end Pipe
end GoGuard
