import GoGuard.Pipeline.Keys

/-!
# Checkpoints through storage

`load` compares the names of a stored checkpoint with those of the pipeline byte for
byte, and JSON keeps a string only when it is valid UTF-8.  A checkpoint of a run
carries the names of its pipeline (`Own`), so it is read back with its progress when
those names are valid (`Own.load_encode`), and with its data when the keys are.

`New` and `Exec.Set` accept any names and keys.
-/

namespace GoGuard
namespace Pipe

open Lib Dlq List
open Kafka (Input Result)

section Strings

/-- Every byte belongs to a character, behind `n` more bytes of the current one. -/
def runesOk : Nat → Bytes → Bool
  | _, [] => true
  | n + 1, _ :: rest => runesOk n rest
  | 0, b :: rest =>
    match runeTail b rest with
    | some n => runesOk n rest
    | none => false

/-- `utf8.ValidString`. -/
def validUtf8 (s : Bytes) : Bool :=
  runesOk 0 s

theorem toValid_of_runesOk {n : Nat} {s : Bytes} (h : runesOk n s = true) : toValid n s = s := by
  induction s generalizing n with
  | nil => cases n <;> rfl
  | cons b rest ih =>
    cases n with
    | succ n =>
      simp only [toValid]
      rw [ih h]
    | zero =>
      simp only [runesOk] at h
      split at h
      · next n htail =>
        simp only [toValid, htail]
        rw [ih h]
      · cases h

/-- JSON keeps valid strings. -/
theorem jsonString_of_valid {s : Bytes} (h : validUtf8 s = true) : jsonString s = s :=
  toValid_of_runesOk h

theorem map_jsonString {l : List Bytes} (h : ∀ s ∈ l, validUtf8 s = true) :
    l.map jsonString = l := by
  refine (map_congr_left ?_).trans (map_id l)
  intro s hs
  exact jsonString_of_valid (h s hs)

theorem map_json {l : List DoneStep} (h : ∀ d ∈ l, validUtf8 d.step = true) :
    l.map DoneStep.json = l := by
  refine (map_congr_left ?_).trans (map_id l)
  intro d hd
  unfold DoneStep.json
  rw [jsonString_of_valid (h d hd)]
  rfl

theorem get_foldl_set (f : Bytes → Bytes) (l : List Bytes) (acc : GoMap Bytes Bytes) (k : Bytes) :
    (l.foldl (fun acc k => acc.set k (f k)) acc).get k =
      if k ∈ l then some (f k) else acc.get k := by
  induction l generalizing acc with
  | nil => simp
  | cons x l ih =>
    rw [foldl_cons, ih, GoMap.get_set]
    by_cases hl : k ∈ l
    · simp [hl]
    · by_cases hx : k = x
      · simp [hx]
      · simp [hl, hx]

theorem get_jsonState {m : GoMap Bytes Bytes} (h : ∀ k ∈ m.keys, validUtf8 k = true) (k : Bytes) :
    (jsonState m).get k = m.get k := by
  have hmem : ∀ x, x ∈ m.keys.insertionSort (· ≤ ·) ↔ x ∈ m.keys := fun x =>
    (perm_insertionSort (· ≤ ·) m.keys).mem_iff
  have hsame : jsonState m = (m.keys.insertionSort (· ≤ ·)).foldl
      (fun acc k => acc.set k ((m.get k).getD [])) .empty := by
    refine foldl_ext _ _ _ ?_
    intro acc x hx
    rw [jsonString_of_valid (h x ((hmem x).mp hx))]
  rw [hsame, get_foldl_set, GoMap.get_empty]
  by_cases hk : k ∈ m.keys
  · obtain ⟨v, hv⟩ := GoMap.mem_keys_iff.mp hk
    rw [if_pos ((hmem k).mpr hk), hv]
    rfl
  · have hnone : m.get k = none := by
      cases hget : m.get k with
      | none => rfl
      | some v => exact absurd (GoMap.mem_keys_iff.mpr ⟨v, hget⟩) hk
    rw [if_neg fun hx => hk ((hmem k).mp hx), hnone]

end Strings

section Checkpoints

variable {p : Pipeline} {cp : Checkpoint}

/-- The names `New` was given are valid UTF-8. -/
structure Pipeline.Readable (p : Pipeline) : Prop where
  name : validUtf8 p.name = true
  steps : ∀ n ∈ p.stepNames, validUtf8 n = true

/-- A checkpoint of this pipeline. -/
structure Own (p : Pipeline) (cp : Checkpoint) : Prop where
  v : cp.v = checkpointVersion
  pipeline : cp.pipeline = p.name
  names : cp.names = p.stepNames.take cp.completed.length
  phase : cp.phase = .forward ∨ cp.phase = .compensating
  undone : ∀ n ∈ cp.compensated, n ∈ p.stepNames

theorem own_new (p : Pipeline) : Own p p.newCheckpoint := by
  refine ⟨rfl, rfl, rfl, .inl rfl, ?_⟩
  intro n hn
  cases hn

theorem Own.step_mem (h : Own p cp) {d : DoneStep} (hd : d ∈ cp.completed) :
    d.step ∈ p.stepNames := by
  have hname : d.step ∈ cp.names := mem_map_of_mem hd
  rw [h.names] at hname
  exact mem_of_mem_take hname

/-- The names in a checkpoint are valid UTF-8. -/
structure Checkpoint.Readable (cp : Checkpoint) : Prop where
  pipeline : validUtf8 cp.pipeline = true
  completed : ∀ d ∈ cp.completed, validUtf8 d.step = true
  compensated : ∀ n ∈ cp.compensated, validUtf8 n = true

theorem Own.readable (h : Own p cp) (hp : p.Readable) : cp.Readable := by
  refine ⟨?_, fun d hd => hp.steps _ (h.step_mem hd), fun n hn => hp.steps n (h.undone n hn)⟩
  rw [h.pipeline]
  exact hp.name

/-- What JSON keeps of a checkpoint with valid names. -/
structure ReadAs (cp c : Checkpoint) : Prop where
  completed : c.completed = cp.completed
  phase : c.phase = cp.phase
  compensated : c.compensated = cp.compensated
  epoch : c.epoch = cp.epoch

theorem Own.readAs_json (h : Own p cp) (hcp : cp.Readable) : ReadAs cp cp.json := by
  refine ⟨map_json hcp.completed, ?_, map_jsonString hcp.compensated, rfl⟩
  rcases h.phase with hphase | hphase <;> simp [Checkpoint.json, Phase.json, hphase]

theorem Own.json (h : Own p cp) (hcp : cp.Readable) : Own p cp.json := by
  have hread := h.readAs_json hcp
  refine ⟨h.v, (jsonString_of_valid hcp.pipeline).trans h.pipeline, ?_, ?_, ?_⟩
  · have hnames : cp.json.names = cp.names := congrArg (List.map DoneStep.step) hread.completed
    rw [hnames, hread.completed]
    exact h.names
  · rw [hread.phase]
    exact h.phase
  · rw [hread.compensated]
    exact h.undone

theorem firstRenamed_eq_none {i : Nat} {ds : List DoneStep} {sts : List Step}
    (h : ds.map DoneStep.step = (sts.map Step.name).take ds.length) :
    firstRenamed i ds sts = none := by
  induction ds generalizing i sts with
  | nil => rfl
  | cons d ds ih =>
    cases sts with
    | nil => rfl
    | cons st sts =>
      rw [map_cons, map_cons, length_cons, take_succ_cons,
        List.cons.injEq] at h
      simp only [firstRenamed]
      rw [if_neg (not_not.mpr h.1)]
      exact ih h.2

/-- `load` accepts what is the pipeline's own. -/
theorem Own.load (h : Own p cp) : p.load (.json cp) = .ok cp := by
  have hlen : ¬ p.steps.length < cp.completed.length := by
    have hcount := congrArg List.length h.names
    rw [Checkpoint.names, length_map, length_take, Pipeline.stepNames,
      length_map] at hcount
    omega
  have hnone : firstRenamed 0 cp.completed p.steps = none := firstRenamed_eq_none h.names
  simp only [Pipeline.load]
  rw [if_neg (not_not.mpr h.v), if_neg (not_not.mpr h.pipeline)]
  rcases h.phase with hphase | hphase
  · rw [hphase]
    simp only
    rw [if_neg hlen, hnone]
  · rw [hphase]
    simp only
    rw [if_neg hlen, hnone]

theorem Own.load_encode (h : Own p cp) (hcp : cp.Readable) : p.load cp.encode = .ok cp.json :=
  (h.json hcp).load

theorem Own.rewound (h : Own p cp) (idx : Nat) : Own p (cp.rewound idx) := by
  refine ⟨h.v, h.pipeline, ?_, .inl rfl, ?_⟩
  · have hnames : (cp.rewound idx).names = cp.names.take idx := map_take
    have hlen : (cp.rewound idx).completed.length = min idx cp.completed.length :=
      length_take
    rw [hnames, hlen, h.names, take_take]
  · intro n hn
    cases hn

end Checkpoints

section Runs

variable {tape : Nat → Answer} {p : Pipeline} {r r' : Run}

/-- Every checkpoint of the run is the pipeline's own. -/
structure Writes (p : Pipeline) (r : Run) : Prop where
  own : Own p r.cp
  stored : ∀ cp, .stored cp ∈ r.events → Own p cp

theorem Writes.log (h : Writes p r) {e : Event} (he : ∀ cp, e ≠ .stored cp) :
    Writes p (r.log e) := by
  refine ⟨h.own, ?_⟩
  intro cp hmem
  rcases mem_append.mp hmem with hold | hnew
  · exact h.stored cp hold
  · exact absurd (mem_singleton.mp hnew).symm (he cp)

theorem Writes.act (h : Writes p r) (hact : Run.Act p r r') : Writes p r' := by
  cases hact with
  | quiet hq =>
    refine ⟨?_, hq.events ▸ h.stored⟩
    rw [hq.cp]
    exact ⟨h.own.v, h.own.pipeline, h.own.names, h.own.phase, h.own.undone⟩
  | failed e hphase => exact h.log (by simp)
  | completed st now hphase hst =>
    refine ⟨⟨h.own.v, h.own.pipeline, ?_, h.own.phase, h.own.undone⟩, (h.log (by simp)).stored⟩
    exact ((reflects_start p r.cp).ran hst now).names h.own.names
  | turned st text =>
    exact ⟨⟨h.own.v, h.own.pipeline, h.own.names, .inr rfl, h.own.undone⟩, h.stored⟩
  | stuck i e hphase => exact h.log (by simp)
  | undone i st hphase hi hst =>
    refine ⟨⟨h.own.v, h.own.pipeline, h.own.names, h.own.phase, ?_⟩, (h.log (by simp)).stored⟩
    intro n hn
    rcases mem_append.mp hn with hold | hnew
    · exact h.own.undone n hold
    · obtain rfl := mem_singleton.mp hnew
      exact mem_map_of_mem (mem_of_getElem? hst)
  | commit hpersist =>
    refine ⟨h.own, ?_⟩
    intro cp hmem
    rcases mem_append.mp hmem with hold | hnew
    · exact h.stored cp hold
    · cases mem_singleton.mp hnew
      exact h.own

theorem writes_advance (tape : Nat → Answer) (hown : Own p r.cp) (hevents : r.events = []) :
    Writes p (r.advance tape p).1 := by
  have hacts := Run.acts_advance tape p r
  generalize (r.advance tape p).1 = r' at hacts ⊢
  induction hacts with
  | refl =>
    refine ⟨hown, ?_⟩
    intro cp hmem
    rw [hevents] at hmem
    cases hmem
  | tail _ hact ih => exact ih.act hact

end Runs

section Histories

variable {tape : Nat → Answer} {p : Pipeline} {inp : Input} {m m' : Message}

/-- A checkpoint that an attempt has made: the one its run ended with, or one that became
durable. -/
def Attempt.Made (a : Attempt) (cp : Checkpoint) : Prop :=
  (∃ err, a.run = some (cp, err)) ∨ .stored cp ∈ a.events

/-- Every checkpoint made so far is the pipeline's own, and so is the one in the store. -/
structure Authored (p : Pipeline) (m : Message) : Prop where
  past : ∀ a ∈ m.past, ∀ cp, a.Made cp → Own p cp
  record : ∀ record, m.record = some record →
    ∃ cp, Own p cp ∧ record.checkpoint = cp.encode

theorem authored_new (p : Pipeline) : Authored p .new := by
  refine ⟨?_, ?_⟩
  · intro a ha
    cases ha
  · intro record hrecord
    cases hrecord

theorem Authored.attempted (h : Authored p m) {a : Attempt} (hpast : m'.past = m.past ++ [a])
    (ha : ∀ cp, a.Made cp → Own p cp)
    (hrecord : ∀ record, m'.record = some record →
      ∃ cp, Own p cp ∧ record.checkpoint = cp.encode) :
    Authored p m' := by
  refine ⟨?_, hrecord⟩
  intro x hx
  rw [hpast] at hx
  rcases mem_append.mp hx with hold | hnew
  · exact h.past x hold
  · obtain rfl := mem_singleton.mp hnew
    exact ha

theorem not_made_idle {ended : Ended} {cp : Checkpoint} :
    ¬ (⟨none, none, [], ended⟩ : Attempt).Made cp := by
  rintro (⟨err, hrun⟩ | hmem)
  · cases hrun
  · cases hmem

theorem Writes.made {r : Run} (h : Writes p r)
    {loaded : Option Checkpoint} {err : Option Err} {ended : Ended} {cp : Checkpoint}
    (hmade : (⟨loaded, some (r.cp, err), r.events, ended⟩ : Attempt).Made cp) : Own p cp := by
  rcases hmade with ⟨err', hrun⟩ | hmem
  · cases hrun
    exact h.own
  · exact h.stored cp hmem

theorem settle_cp (r : Run) (err : Option Err) : (settle tape p inp r err).1.cp = r.cp := by
  have hstore : ∀ state dep text res,
      (store tape r inp state dep text res).1.cp = r.cp := by
    intro state dep text res
    unfold store
    split
    · rfl
    · split <;> rfl
  cases err with
  | none => rfl
  | some e =>
    simp only [settle]
    split
    · exact hstore _ _ _ _
    · split
      · exact hstore _ _ _ _
      · rfl

theorem Authored.deliver (h : Authored p m) : Authored p (deliver tape p inp m) := by
  unfold Pipe.deliver
  split
  · exact h.attempted rfl (fun cp hmade => absurd hmade not_made_idle) h.record
  · have hwrites : Writes p (Run.advance tape { liveRun p with asked := m.asked } p).1 :=
      writes_advance tape (own_new p) rfl
    have htracked := tracked_advance tape p { liveRun p with asked := m.asked } rfl
    rcases hadv : Run.advance tape { liveRun p with asked := m.asked } p with ⟨r, err⟩
    rw [hadv] at hwrites htracked
    have hquiet : Run.Act p r r.withState := .quiet ⟨rfl, rfl, rfl, rfl⟩
    have hown : Own p r.withState.cp := (hwrites.act hquiet).own
    have hnone : r.record = none := htracked.record_none rfl
    have hcases := settle_cases tape p inp r.withState err
    have hcp : (settle tape p inp r.withState err).1.cp = r.withState.cp := settle_cp _ _
    simp only
    rcases hset : settle tape p inp r.withState err with ⟨r', res, err'⟩
    rw [hset] at hcases hcp
    simp only at hcases hcp ⊢
    have hsettled : Writes p r' := by
      refine ⟨hcp ▸ hown, ?_⟩
      intro cp hmem
      rcases hcases with ⟨-, hev⟩ | ⟨state, dep, text, -, hev⟩
      · rw [hev] at hmem
        exact hwrites.stored cp hmem
      · rw [hev] at hmem
        rcases mem_append.mp hmem with hold | hnew
        · exact hwrites.stored cp hold
        · cases mem_singleton.mp hnew
          exact hown
    split
    · refine h.attempted rfl (fun cp hmade => hsettled.made hmade) ?_
      intro record hrecord
      rcases hcases with ⟨hrec, -⟩ | ⟨state, dep, text, hrec, -⟩
      · cases (hrec.trans hnone).symm.trans hrecord
      · cases hrec.symm.trans hrecord
        exact ⟨r.withState.cp, hown, rfl⟩
    · next record₀ hrecord₀ =>
      refine h.attempted rfl ?_ ?_
      · rintro cp (⟨err₁, hrun⟩ | hmem)
        · cases hrun
          exact hsettled.own
        · exact hwrites.stored cp hmem
      · intro record hrecord
        exact h.record record (hrecord₀.trans hrecord)

theorem Authored.handle (h : Authored p m) (hp : p.Readable) : Authored p (handle tape p m) := by
  unfold Pipe.handle
  split
  · exact h
  · next record hrecord =>
    split
    · exact h.attempted rfl (fun cp hmade => absurd hmade not_made_idle) h.record
    · next cp hload =>
      obtain ⟨cp₀, hown₀, hraw⟩ := h.record record hrecord
      have hown : Own p cp := by
        rw [hraw] at hload
        rw [load_encode hload]
        exact hown₀.json (hown₀.readable hp)
      have hwrites : Writes p ((resumedRun m cp).advance tape p).1 :=
        writes_advance tape hown rfl
      have htracked := tracked_advance tape p (resumedRun m cp) rfl
      rcases hadv : (resumedRun m cp).advance tape p with ⟨r, err⟩
      rw [hadv] at hwrites htracked
      refine h.attempted rfl (fun cp hmade => hwrites.made hmade) ?_
      intro record' hrecord'
      have hrec : r.record = recordAfter m.record r.events := htracked.record
      rw [hrecord] at hrec
      rcases lastStored_cases r.events with ⟨hnone, -⟩ | ⟨pre, c, post, hlast, hev, -⟩
      · rw [recordAfter, hnone] at hrec
        cases hrec.symm.trans hrecord'
        exact ⟨cp₀, hown₀, hraw⟩
      · rw [recordAfter, hlast] at hrec
        cases hrec.symm.trans hrecord'
        exact ⟨c, hwrites.stored c (by rw [hev]; simp), rfl⟩

theorem Authored.requeueWith (h : Authored p m) {record : Stored} {raw : Raw}
    (hraw : ∃ cp, Own p cp ∧ raw = cp.encode) : Authored p (requeueWith tape m record raw) := by
  rcases requeueWith_cases tape m record raw with heq | heq
  · rw [heq]
    exact ⟨h.past, h.record⟩
  · rw [heq]
    refine ⟨h.past, ?_⟩
    intro record' hrecord'
    cases hrecord'
    exact hraw

theorem Authored.redrive (h : Authored p m) (hp : p.Readable) (fromStep : Bytes) :
    Authored p (redrive tape p m fromStep) := by
  unfold Pipe.redrive
  split
  · exact h
  · next record hrecord =>
    obtain ⟨cp₀, hown₀, hraw⟩ := h.record record hrecord
    split
    · exact h
    · split
      · exact h.requeueWith ⟨cp₀, hown₀, hraw⟩
      · split
        · exact h
        · next raw hrewind =>
          obtain ⟨cp, idx, hload, -, -, -, rfl⟩ := rewind_eq_ok hrewind
          rw [hraw] at hload
          rw [load_encode hload]
          exact h.requeueWith ⟨_, (hown₀.json (hown₀.readable hp)).rewound idx, rfl⟩

theorem Authored.step {mv : Move} (h : Authored p m) (hp : p.Readable)
    (hstep : m.step tape p inp mv = some m') : Authored p m' := by
  cases mv with
  | deliver =>
    cases hstep
    exact h.deliver
  | resume =>
    cases hstep
    exact h.handle hp
  | settle state =>
    cases hstep
    refine ⟨h.past, ?_⟩
    intro record' hrecord'
    obtain ⟨record, hrecord, hstate⟩ := Option.bind_eq_some_iff.mp hrecord'
    obtain ⟨s, -, rfl⟩ := Option.map_eq_some_iff.mp hstate
    exact h.record record hrecord
  | redrive fromStep =>
    cases hstep
    exact h.redrive hp fromStep

end Histories

section Stored

/-- A checkpoint that a run of a pipeline with valid names has made, first or last, is
accepted when it is read back, with the steps it names, the phase and the epoch, and with
the data under keys that are valid. -/
theorem checkpoint_survives_storage
    (tape : Nat → Answer) (p : Pipeline) (inp : Input) (moves : List Move) (m : Message)
    (hname : validUtf8 p.name = true) (hsteps : ∀ n ∈ p.stepNames, validUtf8 n = true)
    (hrun : run (Message.step tape p inp) Message.new moves = some m)
    (a : Attempt) (ha : a ∈ m.past) (cp : Checkpoint) (hmade : a.Made cp) :
    ∃ c, p.load cp.encode = .ok c ∧ c.completed = cp.completed ∧ c.phase = cp.phase ∧
      c.compensated = cp.compensated ∧ c.epoch = cp.epoch ∧
        ((∀ k ∈ cp.state.keys, validUtf8 k = true) → ∀ k, c.state.get k = cp.state.get k) := by
  have hp : p.Readable := ⟨hname, hsteps⟩
  have hm : Authored p m :=
    run_invariant (Message.step tape p inp) (fun _ _ _ h hstep => h.step hp hstep)
      (authored_new p) hrun
  have hown := hm.past a ha cp hmade
  have hcp := hown.readable hp
  have hread := hown.readAs_json hcp
  exact ⟨cp.json, hown.load_encode hcp, hread.completed, hread.phase, hread.compensated,
    hread.epoch, get_jsonState⟩

/-- Shipping is refused for good, the steps before it are undone and the message is stored. -/
theorem checkpoint_survives_storage_undone :
    ∃ m a cp c, run (Message.step (undoneTape .ok) demoSaga demoInput) Message.new
        [.deliver] = some m ∧ a ∈ m.past ∧ a.Made cp ∧
      cp.names = [str "charge", str "reserve"] ∧ cp.compensated = [str "reserve", str "charge"] ∧
        demoSaga.load cp.encode = .ok c ∧ c.compensated = cp.compensated := by
  have hends : (run (Message.step (undoneTape .ok) demoSaga demoInput) Message.new
      [.deliver]).map (fun m => m.past.map fun a => a.run.map fun x =>
        (x.1.names, x.1.compensated)) =
      some [some ([str "charge", str "reserve"], [str "reserve", str "charge"])] := by
    decide +kernel
  obtain ⟨m, hrun, hpast⟩ := Option.map_eq_some_iff.mp hends
  obtain ⟨a, hone, ha⟩ := map_eq_singleton_iff.mp hpast
  obtain ⟨⟨cp, err⟩, hcp, heq⟩ := Option.map_eq_some_iff.mp ha
  simp only [Prod.mk.injEq] at heq
  have hmem : a ∈ m.past := by
    rw [hone]
    exact mem_singleton_self a
  obtain ⟨c, hload, -, -, hcompensated, -⟩ := checkpoint_survives_storage (undoneTape .ok)
    demoSaga demoInput [.deliver] m (by decide) (by decide) hrun a hmem cp (.inl ⟨err, hcp⟩)
  exact ⟨m, a, cp, c, hrun, hmem, .inl ⟨err, hcp⟩, heq.1, heq.2, hload, hcompensated⟩

/-- A pipeline whose name is one byte that is no character. -/
def oddPipeline : Pipeline where
  name := [0xFF]
  version := str "1"
  steps := [demoStep "ship" false]
  saga := false
  redactor := fun _ => str "error"
  name_ne := by decide
  steps_ne := by decide
  step_name_ne := by decide
  nodup := by decide

/-- Shipping is down, and the message is stored with its progress: its checkpoint is taken
for one of another pipeline. -/
theorem odd_name_is_mismatched :
    ∃ m record, run (Message.step (fun _ => demoAnswer (some (.other (str "down") false)) .ok)
        oddPipeline demoInput) Message.new [.deliver] = some m ∧
      m.record = some record ∧ record.state = .pending ∧
        oddPipeline.load record.checkpoint =
          .error (mismatch (.otherPipeline [0xEF, 0xBF, 0xBD] [0xFF])) := by
  refine ⟨_, _, rfl, rfl, rfl, rfl⟩

end Stored

end Pipe
end GoGuard
