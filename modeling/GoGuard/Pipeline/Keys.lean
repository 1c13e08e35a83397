import GoGuard.Pipeline.Epochs
import GoGuard.Pipeline.Resume

/-!
# Keys over the life of a message

The calls of a message carry the key of the epoch in which they are made.  What
a move can do to the record and to the calls is stated once; the two results on
keys are invariants over it.  Work that was undone is not redone under its old
key as long as the undoing is on record, and a rewind changes the keys of all
completed steps or of none.
-/

namespace GoGuard
namespace Pipe

open Lib Dlq List
open Kafka (Input Result)

section Moves

variable {tape : Nat → Answer} {p : Pipeline} {inp : Input} {m m' : Message}

/-- The next run of the handler starts from this checkpoint. -/
def Loaded (p : Pipeline) (m : Message) (cp : Checkpoint) : Prop :=
  ∃ record, m.record = some record ∧ p.load record.checkpoint = .ok cp

theorem lastStored_cases (ev : List Event) :
    (lastStored ev = none ∧ ∀ cp, .stored cp ∉ ev) ∨
      ∃ pre cp post, lastStored ev = some cp ∧ ev = pre ++ .stored cp :: post ∧
        ∀ c, .stored c ∉ post := by
  induction ev using List.reverseRecOn with
  | nil => exact .inl ⟨rfl, by simp⟩
  | append_singleton ev e ih =>
    cases e with
    | stored cp => exact .inr ⟨ev, cp, [], lastStored_stored _ _, rfl, by simp⟩
    | ran i err =>
      rw [lastStored_ran]
      rcases ih with ⟨hnone, hno⟩ | ⟨pre, cp, post, hlast, rfl, hpost⟩
      · exact .inl ⟨hnone, by simpa using hno⟩
      · exact .inr ⟨pre, cp, post ++ [.ran i err], hlast, by simp, by simpa using hpost⟩
    | undid i err =>
      rw [lastStored_undid]
      rcases ih with ⟨hnone, hno⟩ | ⟨pre, cp, post, hlast, rfl, hpost⟩
      · exact .inl ⟨hnone, by simpa using hno⟩
      · exact .inr ⟨pre, cp, post ++ [.undid i err], hlast, by simp, by simpa using hpost⟩

/-- An attempt that ran from `cp₀`: its events, and what is in the store behind
it. -/
structure Attempted
    (p : Pipeline) (m m' : Message) (cp₀ : Checkpoint) (ev : List Event) : Prop where
  past : ∃ a, m'.past = m.past ++ [a] ∧ a.events = ev ∧ a.epoch = cp₀.epoch
  ok : Justified (RunOk p cp₀) ev
  record : (m'.record = m.record ∧ ∀ cp, .stored cp ∉ ev) ∨
    ∃ pre cp post, ev = pre ++ .stored cp :: post ∧ (∀ c, .stored c ∉ post) ∧
      ∀ c, Loaded p m' c → c = cp.json

/-- A rewind of the record. -/
structure Rewound (p : Pipeline) (m m' : Message) (cp : Checkpoint) (idx : Nat) : Prop where
  loaded : Loaded p m cp
  le : idx ≤ cp.completed.length
  kept : ∀ n ∈ cp.names.take idx, n ∉ cp.compensated
  timed : m'.timed = m.timed
  record : ∀ c, Loaded p m' c → c = (cp.rewound idx).json

/-- What a move can do. -/
inductive Moved (p : Pipeline) (m m' : Message) : Move → Prop where
  /-- the calls are the same, and so is the checkpoint of the record if there is one -/
  | quiet {mv : Move} :
      m'.timed = m.timed → (∀ cp, Loaded p m' cp → Loaded p m cp) → Moved p m m' mv
  | delivered {ev : List Event} :
      Attempted p m m' p.newCheckpoint ev → Moved p m m' .deliver
  | resumed {cp : Checkpoint} {ev : List Event} :
      Loaded p m cp → Attempted p m m' cp ev → Moved p m m' .resume
  | rewound {cp : Checkpoint} {idx : Nat} {fromStep : Bytes} :
      p.stepIndex fromStep = some idx → Rewound p m m' cp idx → Moved p m m' (.redrive fromStep)

theorem load_encode {cp c : Checkpoint} (h : p.load cp.encode = .ok c) : c = cp.json :=
  (load_json_eq_ok h).1

theorem Attempted.timed {cp₀ : Checkpoint} {ev : List Event} (h : Attempted p m m' cp₀ ev) :
    m'.timed = m.timed ++ ev.map fun e => (cp₀.epoch, e) := by
  obtain ⟨a, hpast, rfl, hepoch⟩ := h.past
  simp [Message.timed, hpast, hepoch]

theorem timed_idle (asked : Nat) (ended : Ended) :
    Message.timed ⟨m.record, asked, m.past ++ [⟨none, none, [], ended⟩]⟩ = m.timed := by
  simp [Message.timed]

theorem moved_handle : Moved p m (handle tape p m) .resume := by
  unfold handle
  split
  · exact .quiet rfl fun _ h => h
  · next record hrecord =>
    split
    · exact .quiet (timed_idle _ _) fun _ h => h
    · next cp hload =>
      have htracked := tracked_advance tape p (resumedRun m cp) rfl
      rcases hadv : (resumedRun m cp).advance tape p with ⟨r, err⟩
      rw [hadv] at htracked
      refine .resumed ⟨record, hrecord, hload⟩ ⟨⟨_, rfl, rfl, rfl⟩, htracked.ok, ?_⟩
      have hrec : r.record = recordAfter m.record r.events := htracked.record
      rcases lastStored_cases r.events with ⟨hnone, hno⟩ | ⟨pre, c, post, hlast, hev, hpost⟩
      · refine .inl ⟨?_, hno⟩
        rw [recordAfter, hnone] at hrec
        exact hrec
      · refine .inr ⟨pre, c, post, hev, hpost, ?_⟩
        rintro c' ⟨record', hr, hload'⟩
        rw [recordAfter, hlast, hrecord] at hrec
        cases hrec.symm.trans hr
        exact load_encode hload'

/-- What `Execute` leaves when `advance` has returned: the calls, and the message
is stored or not. -/
theorem settle_cases
    (tape : Nat → Answer) (p : Pipeline) (inp : Input) (r : Run) (err : Option Err) :
    ((settle tape p inp r err).1.record = r.record ∧
        (settle tape p inp r err).1.events = r.events) ∨
      ∃ state dep text, (settle tape p inp r err).1.record =
          some ⟨inp, state, dep, text, r.cp.encode⟩ ∧
        (settle tape p inp r err).1.events = r.events ++ [.stored r.cp] := by
  have hstore : ∀ state dep text res,
      ((store tape r inp state dep text res).1.record = r.record ∧
          (store tape r inp state dep text res).1.events = r.events) ∨
        ((store tape r inp state dep text res).1.record =
            some ⟨inp, state, dep, text, r.cp.encode⟩ ∧
          (store tape r inp state dep text res).1.events = r.events ++ [.stored r.cp]) := by
    intro state dep text res
    unfold store
    split
    · exact .inr ⟨rfl, rfl⟩
    · split
      · exact .inr ⟨rfl, rfl⟩
      · exact .inl ⟨rfl, rfl⟩
  cases err with
  | none => exact .inl ⟨rfl, rfl⟩
  | some e =>
    simp only [settle]
    split
    · next dep _ =>
      exact (hstore .pending dep (p.redactor e) .deferred).imp id fun h => ⟨_, _, _, h⟩
    · split
      · exact (hstore .parked [] (p.redactor e) .parked).imp id fun h => ⟨_, _, _, h⟩
      · exact .inl ⟨rfl, rfl⟩

theorem moved_deliver : Moved p m (deliver tape p inp m) .deliver := by
  unfold deliver
  split
  · exact .quiet (timed_idle _ _) fun _ h => h
  · have htracked := tracked_advance tape p { liveRun p with asked := m.asked } rfl
    rcases hadv : Run.advance tape { liveRun p with asked := m.asked } p with ⟨r, err⟩
    rw [hadv] at htracked
    have hok : Justified (RunOk p p.newCheckpoint) r.events := htracked.ok
    have hlive : ∀ cp, .stored cp ∉ r.events := htracked.live rfl
    have hnone : r.record = none := htracked.record_none rfl
    have hcases := settle_cases tape p inp r.withState err
    simp only
    rcases hset : settle tape p inp r.withState err with ⟨r', res, err'⟩
    rw [hset] at hcases
    simp only
    split
    · next hrecord =>
      -- the store does not have the message
      rcases hcases with ⟨hrec, hev⟩ | ⟨state, dep, text, hrec, hev⟩
      · exact .delivered ⟨⟨_, rfl, hev, rfl⟩, hok,
          .inl ⟨(hrec.trans hnone).trans hrecord.symm, hlive⟩⟩
      · have hreflects : Reflects p p.newCheckpoint r.events r.withState.cp :=
          htracked.reflects.turn rfl rfl rfl id
        refine .delivered ⟨⟨_, rfl, hev, rfl⟩, hok.snoc hreflects,
          .inr ⟨r.events, r.withState.cp, [], rfl, by simp, ?_⟩⟩
        rintro c ⟨record', hr, hload⟩
        cases hrec.symm.trans hr
        exact load_encode hload
    · next record hrecord =>
      exact .delivered ⟨⟨_, rfl, rfl, rfl⟩, hok, .inl ⟨hrecord.symm, hlive⟩⟩

theorem rewind_eq_ok {raw raw' : Raw} {toStep : Bytes} (h : p.rewind raw toStep = .ok raw') :
    ∃ cp idx, p.load raw = .ok cp ∧ p.stepIndex toStep = some idx ∧
      idx ≤ cp.completed.length ∧ (∀ n ∈ cp.names.take idx, n ∉ cp.compensated) ∧
      raw' = (cp.rewound idx).encode := by
  simp only [Pipeline.rewind] at h
  split at h
  · cases h
  · next cp hload =>
    split at h
    · cases h
    · next idx hidx =>
      obtain ⟨hle, h⟩ := of_unless h
      split at h
      · cases h
      · next hfind =>
        cases h
        refine ⟨cp, idx, hload, hidx, not_lt.mp hle, ?_, rfl⟩
        intro n hn hmem
        exact List.find?_eq_none.mp hfind n hn (contains_iff_mem.mpr hmem)

theorem requeueWith_cases (tape : Nat → Answer) (m : Message) (record : Stored) (raw : Raw) :
    requeueWith tape m record raw = { m with asked := m.asked + 1 } ∨
      requeueWith tape m record raw =
        { m with
          asked := m.asked + 1
          record := some { record with state := .pending, checkpoint := raw } } := by
  unfold requeueWith
  split
  · exact .inl rfl
  · exact .inr rfl

theorem moved_redrive (fromStep : Bytes) :
    Moved p m (redrive tape p m fromStep) (.redrive fromStep) := by
  unfold redrive
  split
  · exact .quiet rfl fun _ h => h
  · next record hrecord =>
    split
    · exact .quiet rfl fun _ h => h
    · split
      · rcases requeueWith_cases tape m record record.checkpoint with heq | heq
        · rw [heq]
          exact .quiet rfl fun _ h => h
        · rw [heq]
          refine .quiet rfl ?_
          rintro cp ⟨record', hr, hload⟩
          cases hr
          exact ⟨record, hrecord, hload⟩
      · split
        · exact .quiet rfl fun _ h => h
        · next raw hrewind =>
          obtain ⟨cp, idx, hload, hidx, hle, hkept, rfl⟩ := rewind_eq_ok hrewind
          rcases requeueWith_cases tape m record (cp.rewound idx).encode with heq | heq
          · rw [heq]
            exact .quiet rfl fun _ h => h
          · rw [heq]
            refine .rewound hidx ⟨⟨record, hrecord, hload⟩, hle, hkept, rfl, ?_⟩
            rintro c ⟨record', hr, hload'⟩
            cases hr
            exact load_encode hload'

theorem moved_step {mv : Move} (h : m.step tape p inp mv = some m') : Moved p m m' mv := by
  cases mv with
  | deliver =>
    cases h
    exact moved_deliver
  | resume =>
    cases h
    exact moved_handle
  | settle state =>
    cases h
    refine .quiet rfl ?_
    rintro cp ⟨record', hr, hload⟩
    obtain ⟨record, hrecord, hstate⟩ := Option.bind_eq_some_iff.mp hr
    obtain ⟨s, -, rfl⟩ := Option.map_eq_some_iff.mp hstate
    exact ⟨record, hrecord, hload⟩
  | redrive fromStep =>
    cases h
    exact moved_redrive fromStep

/-- What is loaded is determined by the record. -/
theorem Loaded.unique {c c' : Checkpoint} (h : Loaded p m c) (h' : Loaded p m c') : c = c' := by
  obtain ⟨record, hrecord, hload⟩ := h
  obtain ⟨record', hrecord', hload'⟩ := h'
  cases hrecord.symm.trans hrecord'
  cases hload.symm.trans hload'
  rfl

theorem Loaded.congr {c : Checkpoint} (h : Loaded p m' c) (hrecord : m'.record = m.record) :
    Loaded p m c := by
  obtain ⟨record, hr, hload⟩ := h
  exact ⟨record, hrecord ▸ hr, hload⟩

end Moves

section FirstEpoch

variable {tape : Nat → Answer} {p : Pipeline} {inp : Input} {m m' : Message}
variable {cp₀ : Checkpoint} {ev : List Event}

/-- A `Compensate` that returned nil. -/
def Event.isUndone : Event → Bool
  | .undid _ none => true
  | _ => false

/-- Some `Compensate` of the message has returned nil. -/
def Message.anyUndone (m : Message) : Bool :=
  m.past.any fun a => a.events.any Event.isUndone

theorem anyUndone_eq_false : m.anyUndone = false ↔ ∀ e i, (e, Event.undid i none) ∉ m.timed := by
  simp only [Message.anyUndone, Message.timed, any_eq_false, mem_flatMap, mem_map,
    not_exists, not_and, Prod.mk.injEq, Bool.not_eq_true]
  constructor
  · rintro h e i a ha ev hev - rfl
    cases h a ha _ hev
  · intro h a ha ev hev
    cases hu : ev.isUndone with
    | false => rfl
    | true =>
      cases ev with
      | undid i err =>
        cases err with
        | none => exact absurd rfl (h a.epoch i a ha _ hev rfl)
        | some e => cases hu
      | ran i err => cases hu
      | stored cp => cases hu

/-- Epochs are counted from zero, and until something is undone all calls are in
the first one. -/
structure EpochsOk (p : Pipeline) (m : Message) : Prop where
  nonneg : ∀ x ∈ m.timed, 0 ≤ x.1
  loaded : ∀ cp, Loaded p m cp → 0 ≤ cp.epoch
  first : m.anyUndone = false → ∀ x ∈ m.timed, x.1 = 0
  start : m.anyUndone = false → ∀ cp, Loaded p m cp → cp.epoch = 0 ∧ cp.compensated = []

theorem Attempted.nothing_undone (h : Attempted p m m' cp₀ ev) (hnone : m'.anyUndone = false) :
    m.anyUndone = false ∧ ∀ i, .undid i none ∉ ev := by
  rw [anyUndone_eq_false] at hnone ⊢
  rw [h.timed] at hnone
  refine ⟨fun e i hmem => hnone e i (mem_append_left _ hmem), ?_⟩
  intro i hmem
  exact hnone cp₀.epoch i (mem_append_right _ (mem_map_of_mem hmem))

theorem Attempted.loaded_cases (h : Attempted p m m' cp₀ ev) {c : Checkpoint} (hc : Loaded p m' c) :
    (Loaded p m c ∧ ∀ cp, .stored cp ∉ ev) ∨
      ∃ pre cp post, ev = pre ++ .stored cp :: post ∧ (∀ c, .stored c ∉ post) ∧
        Reflects p cp₀ pre cp ∧ c = cp.json := by
  rcases h.record with ⟨hsame, hno⟩ | ⟨pre, cp, post, hev, hpost, hload⟩
  · exact .inl ⟨hc.congr hsame, hno⟩
  · exact .inr ⟨pre, cp, post, hev, hpost, h.ok pre (.stored cp) post hev, hload c hc⟩

theorem EpochsOk.attempted (h : EpochsOk p m) (hnonneg : 0 ≤ cp₀.epoch)
    (hstart : m.anyUndone = false → cp₀.epoch = 0 ∧ cp₀.compensated = [])
    (hatt : Attempted p m m' cp₀ ev) : EpochsOk p m' := by
  refine ⟨?_, ?_, ?_, ?_⟩
  · intro x hx
    rw [hatt.timed] at hx
    rcases mem_append.mp hx with hold | hnew
    · exact h.nonneg x hold
    · obtain ⟨e, -, rfl⟩ := mem_map.mp hnew
      exact hnonneg
  · intro c hc
    rcases hatt.loaded_cases hc with ⟨hold, -⟩ | ⟨pre, cp, post, -, -, hreflects, rfl⟩
    · exact h.loaded c hold
    · exact hreflects.epoch ▸ hnonneg
  · intro hnone x hx
    have hbefore := (hatt.nothing_undone hnone).1
    rw [hatt.timed] at hx
    rcases mem_append.mp hx with hold | hnew
    · exact h.first hbefore x hold
    · obtain ⟨e, -, rfl⟩ := mem_map.mp hnew
      exact (hstart hbefore).1
  · intro hnone c hc
    obtain ⟨hbefore, hno⟩ := hatt.nothing_undone hnone
    rcases hatt.loaded_cases hc with ⟨hold, -⟩ | ⟨pre, cp, post, rfl, -, hreflects, rfl⟩
    · exact h.start hbefore c hold
    · refine ⟨hreflects.epoch.trans (hstart hbefore).1, ?_⟩
      have hempty : cp.compensated = [] := by
        refine eq_nil_iff_forall_not_mem.mpr ?_
        intro n hn
        rcases hreflects.recorded n hn with hold | ⟨i, -, hmem⟩
        · rw [(hstart hbefore).2] at hold
          cases hold
        · exact hno i (mem_append_left _ hmem)
      simp [Checkpoint.json, hempty]

theorem EpochsOk.rewound {idx : Nat} (h : EpochsOk p m) (hrew : Rewound p m m' cp₀ idx)
    (hany : m'.anyUndone = m.anyUndone) : EpochsOk p m' := by
  refine ⟨?_, ?_, ?_, ?_⟩
  · rw [hrew.timed]
    exact h.nonneg
  · intro c hc
    have hnonneg := h.loaded cp₀ hrew.loaded
    rw [hrew.record c hc]
    simp only [Checkpoint.json, Checkpoint.rewound]
    split
    · omega
    · exact hnonneg
  · rw [hrew.timed, hany]
    exact h.first
  · intro hnone c hc
    obtain ⟨hepoch, hempty⟩ := h.start (hany ▸ hnone) cp₀ hrew.loaded
    rw [hrew.record c hc]
    simp [Checkpoint.json, Checkpoint.rewound, hempty, hepoch]

theorem anyUndone_congr (h : m'.timed = m.timed) : m'.anyUndone = m.anyUndone := by
  rw [Bool.eq_iff_iff, ← not_iff_not, Bool.not_eq_true, Bool.not_eq_true, anyUndone_eq_false,
    anyUndone_eq_false, h]

theorem epochsOk_new : EpochsOk p Message.new := by
  refine ⟨?_, ?_, ?_, ?_⟩
  · intro x hx
    cases hx
  · rintro cp ⟨record, hr, -⟩
    cases hr
  · intro _ x hx
    cases hx
  · rintro _ cp ⟨record, hr, -⟩
    cases hr

theorem EpochsOk.moved {mv : Move} (h : EpochsOk p m) (hmoved : Moved p m m' mv) :
    EpochsOk p m' := by
  cases hmoved with
  | quiet htimed hload =>
    have hany := anyUndone_congr htimed
    refine ⟨htimed ▸ h.nonneg, fun cp hcp => h.loaded cp (hload cp hcp), ?_, ?_⟩
    · rw [htimed, hany]
      exact h.first
    · intro hnone cp hcp
      exact h.start (hany ▸ hnone) cp (hload cp hcp)
  | delivered hatt => exact h.attempted (le_refl 0) (fun _ => ⟨rfl, rfl⟩) hatt
  | resumed hloaded hatt =>
    exact h.attempted (h.loaded _ hloaded) (fun hnone => h.start hnone _ hloaded) hatt
  | rewound _ hrew => exact h.rewound hrew (anyUndone_congr hrew.timed)

end FirstEpoch

section Undone

variable {tape : Nat → Answer} {p : Pipeline} {inp : Input} {m m' : Message}
variable {cp₀ : Checkpoint} {ev : List Event}

def Event.isStored : Event → Bool
  | .stored _ => true
  | _ => false

/-- Behind each `Compensate` that returned nil a checkpoint was stored. -/
def undoRecorded : List Event → Bool
  | [] => true
  | e :: rest => (!e.isUndone || rest.any Event.isStored) && undoRecorded rest

variable {pre post : List Event} {i : Nat} {mv : Move}

theorem stored_behind (h : undoRecorded (pre ++ .undid i none :: post) = true) :
    ∃ cp, .stored cp ∈ post := by
  induction pre with
  | nil =>
    simp only [nil_append, undoRecorded, Event.isUndone, Bool.not_true, Bool.false_or,
      Bool.and_eq_true, any_eq_true] at h
    obtain ⟨⟨e, he, hstored⟩, -⟩ := h
    cases e with
    | stored cp => exact ⟨cp, he⟩
    | ran i err => cases hstored
    | undid i err => cases hstored
  | cons e pre ih =>
    simp only [cons_append, undoRecorded, Bool.and_eq_true] at h
    exact ih h.2

/-- The checkpoint that was stored last comes behind all of them. -/
theorem undone_before_last {cp : Checkpoint} (h : undoRecorded (pre ++ .stored cp :: post) = true)
    (hpost : ∀ c, .stored c ∉ post) (hmem : .undid i none ∈ pre ++ .stored cp :: post) :
    .undid i none ∈ pre := by
  rcases mem_append.mp hmem with hpre | hrest
  · exact hpre
  · have hin : .undid i none ∈ post := by simpa using hrest
    obtain ⟨before, after, rfl⟩ := append_of_mem hin
    have hsplit : pre ++ .stored cp :: (before ++ .undid i none :: after) =
        (pre ++ .stored cp :: before) ++ .undid i none :: after := by simp
    rw [hsplit] at h
    obtain ⟨c, hc⟩ := stored_behind h
    exact absurd (mem_append_right _ (mem_cons_of_mem _ hc)) (hpost c)

theorem not_undone_of_not_stored (h : undoRecorded ev = true) (hno : ∀ cp, .stored cp ∉ ev)
    (i : Nat) : .undid i none ∉ ev := by
  intro hmem
  obtain ⟨pre, post, rfl⟩ := append_of_mem hmem
  obtain ⟨cp, hcp⟩ := stored_behind h
  exact hno cp (mem_append_right _ (mem_cons_of_mem _ hcp))

/-- The undoing of steps is on record: a message of which something was undone is
not executed from the start, and an attempt in which a `Compensate` returned nil
stores a checkpoint behind it. -/
def OnRecord (tape : Nat → Answer) (p : Pipeline) (inp : Input) (m : Message) (mv : Move) : Prop :=
  (mv = .deliver → m.anyUndone = false) ∧
    ∀ m' ∈ m.step tape p inp mv, ∀ a ∈ m'.past.drop m.past.length, undoRecorded a.events = true

instance (m : Message) (mv : Move) : Decidable (OnRecord tape p inp m mv) :=
  inferInstanceAs (Decidable ((mv = .deliver → m.anyUndone = false) ∧
    ∀ m' ∈ m.step tape p inp mv, ∀ a ∈ m'.past.drop m.past.length, undoRecorded a.events = true))

theorem OnRecord.recorded (hon : OnRecord tape p inp m mv) (hstep : m.step tape p inp mv = some m')
    (hatt : Attempted p m m' cp₀ ev) : undoRecorded ev = true := by
  obtain ⟨a, hpast, rfl, -⟩ := hatt.past
  refine hon.2 m' hstep a ?_
  rw [hpast, drop_left]
  exact mem_cons_self

/-- What was undone in the epoch of the record is on record, and no step was run
again under the key it had when it was undone. -/
structure Kept (p : Pipeline) (m : Message) : Prop where
  separated : m.timed.Pairwise fun x y =>
    ∀ i err, x.2 = .undid i none → y.2 = .ran i err → y.1 ≠ x.1
  bound : ∀ cp, Loaded p m cp → ∀ x ∈ m.timed, x.1 ≤ cp.epoch
  current : ∀ cp, Loaded p m cp → ∀ i, (cp.epoch, .undid i none) ∈ m.timed →
    cp.phase = .compensating ∧ cp.compensated ≠ []

/-- Within a run no step runs forward after one was undone. -/
theorem separated_run (hok : Justified (RunOk p cp₀) ev) (epoch : Int) :
    (ev.map fun e => (epoch, e)).Pairwise fun x y =>
      ∀ i err, x.2 = .undid i none → y.2 = .ran i err → y.1 ≠ x.1 := by
  rw [pairwise_map]
  refine hok.pairwise ?_
  rintro pre e he e' he' i err rfl rfl
  exact absurd he' (he.2.2 i none)

theorem Kept.attempted (h : Kept p m) (hbound : ∀ x ∈ m.timed, x.1 ≤ cp₀.epoch)
    (hcurrent : ∀ i, (cp₀.epoch, .undid i none) ∈ m.timed →
      cp₀.phase = .compensating ∧ cp₀.compensated ≠ [])
    (hsame : ∀ c, Loaded p m c → cp₀.epoch ≤ c.epoch)
    (hatt : Attempted p m m' cp₀ ev)
    (hrec : undoRecorded ev = true) :
    Kept p m' := by
  refine ⟨?_, ?_, ?_⟩
  · rw [hatt.timed]
    refine pairwise_append.mpr ⟨h.separated, separated_run hatt.ok _, ?_⟩
    intro x hx y hy i err hundid hran hepoch
    obtain ⟨e, he, rfl⟩ := mem_map.mp hy
    obtain ⟨pre, post, hev⟩ := append_of_mem he
    have hforward := hatt.ok pre e post hev
    obtain rfl : e = .ran i err := hran
    -- a step runs only when the checkpoint is not compensating
    refine hforward.1 (hcurrent i ?_).1
    obtain ⟨xe, xev⟩ := x
    cases hundid
    cases hepoch
    exact hx
  · intro c hc x hx
    have hle : cp₀.epoch ≤ c.epoch := by
      rcases hatt.loaded_cases hc with ⟨hold, -⟩ | ⟨pre, cp, post, -, -, hreflects, rfl⟩
      · exact hsame c hold
      · exact hreflects.epoch.ge
    rw [hatt.timed] at hx
    rcases mem_append.mp hx with hold | hnew
    · exact (hbound x hold).trans hle
    · obtain ⟨e, -, rfl⟩ := mem_map.mp hnew
      exact hle
  · intro c hc i hmem
    rw [hatt.timed] at hmem
    rcases hatt.loaded_cases hc with ⟨hold, hno⟩ | ⟨pre, cp, post, rfl, hpost, hreflects, rfl⟩
    · -- nothing was stored, so nothing was undone
      rcases mem_append.mp hmem with hbefore | hnew
      · exact h.current c hold i hbefore
      · obtain ⟨e, he, heq⟩ := mem_map.mp hnew
        obtain rfl : e = .undid i none := congrArg Prod.snd heq
        exact absurd he (not_undone_of_not_stored hrec hno i)
    · have hepoch : cp.json.epoch = cp₀.epoch := hreflects.epoch
      rw [hepoch] at hmem
      have hcp : cp.phase = .compensating ∧ cp.compensated ≠ [] := by
        rcases mem_append.mp hmem with hbefore | hnew
        · obtain ⟨hphase, hne⟩ := hcurrent i hbefore
          refine ⟨hreflects.phase hphase, ?_⟩
          intro hnil
          exact hne (prefix_nil.mp (hnil ▸ hreflects.compensated))
        · obtain ⟨e, he, heq⟩ := mem_map.mp hnew
          cases heq
          have hpre := undone_before_last hrec hpost he
          exact ⟨hreflects.turned i none hpre,
            ne_nil_of_mem (hreflects.undone i hpre).2⟩
      refine ⟨?_, ?_⟩
      · simp [Checkpoint.json, hcp.1, Phase.json]
      · simpa [Checkpoint.json] using hcp.2

theorem Kept.rewound {idx : Nat} (h : Kept p m) (hrew : Rewound p m m' cp₀ idx) : Kept p m' := by
  have hbound := h.bound cp₀ hrew.loaded
  refine ⟨hrew.timed ▸ h.separated, ?_, ?_⟩
  · intro c hc x hx
    rw [hrew.timed] at hx
    rw [hrew.record c hc]
    have hle := hbound x hx
    simp only [Checkpoint.json, Checkpoint.rewound]
    split
    · omega
    · exact hle
  · intro c hc i hmem
    rw [hrew.timed, hrew.record c hc] at hmem
    simp only [Checkpoint.json, Checkpoint.rewound] at hmem
    split at hmem
    · -- the epoch is new
      have hle := hbound _ hmem
      omega
    · next hnone =>
      have hne := (h.current cp₀ hrew.loaded i hmem).2
      exact absurd (length_pos_iff.mpr hne) hnone

theorem kept_new : Kept p Message.new := by
  refine ⟨List.Pairwise.nil, ?_, ?_⟩
  · rintro cp ⟨record, hr, -⟩
    cases hr
  · rintro cp ⟨record, hr, -⟩
    cases hr

theorem Kept.step (h : EpochsOk p m ∧ Kept p m) (hon : OnRecord tape p inp m mv)
    (hstep : m.step tape p inp mv = some m') : EpochsOk p m' ∧ Kept p m' := by
  have hmoved := moved_step hstep
  refine ⟨h.1.moved hmoved, ?_⟩
  cases hmoved with
  | quiet htimed hload =>
    refine ⟨htimed ▸ h.2.separated, ?_, ?_⟩
    · rw [htimed]
      exact fun cp hcp => h.2.bound cp (hload cp hcp)
    · rw [htimed]
      exact fun cp hcp => h.2.current cp (hload cp hcp)
  | delivered hatt =>
    have hnone := hon.1 rfl
    refine h.2.attempted ?_ ?_ h.1.loaded hatt (hon.recorded hstep hatt)
    · intro x hx
      exact (h.1.first hnone x hx).le
    · intro i hmem
      exact absurd hmem (anyUndone_eq_false.mp hnone _ i)
  | resumed hloaded hatt =>
    refine h.2.attempted (h.2.bound _ hloaded) (h.2.current _ hloaded) ?_ hatt (hon.recorded hstep hatt)
    intro c hc
    rw [hc.unique hloaded]
  | rewound _ hrew => exact h.2.rewound hrew

/-- The events of calls with the same key are in the same epoch. -/
theorem callOf_eq_some {sha : Bytes → Bytes} {x : Int × Event} {c : Call}
    (h : callOf sha p inp x = some c) :
    c.event = x.2 ∧ ∃ i, x.2.step = some i ∧
      c.key = idempotencyKeyEpoch sha inp.id (p.nameAt i) x.1 := by
  obtain ⟨i, hi, rfl⟩ := Option.map_eq_some_iff.mp h
  exact ⟨rfl, i, hi, rfl⟩

/-- **Undone work is never redone under its old key**, in every life of a message
in which the undoing of its steps is on record. -/
theorem undone_work_is_not_redone_under_its_key (sha : Bytes → Bytes)
    (hsha : Function.Injective sha) (tape : Nat → Answer) (p : Pipeline) (inp : Input)
    {moves : List Move} {m : Message}
    (hon : RunAll (Message.step tape p inp) (OnRecord tape p inp) Message.new moves)
    (hrun : run (Message.step tape p inp) Message.new moves = some m) :
    (m.calls sha p inp).Pairwise fun c c' =>
      ∀ i err, c.event = .undid i none → c'.event = .ran i err → c'.key ≠ c.key := by
  obtain ⟨hepochs, hkept⟩ : EpochsOk p m ∧ Kept p m :=
    run_invariant_of _ (fun _ _ _ hon h hstep => Kept.step h hon hstep) hon
      ⟨epochsOk_new, kept_new⟩ hrun
  refine pairwise_filterMap.mpr (hkept.separated.imp_of_mem ?_)
  intro x y hx hy hsep c hc c' hc' i err hundid hran hkey
  obtain ⟨hcx, j, hj, hkeyx⟩ := callOf_eq_some hc
  obtain ⟨hcy, k, hk, hkeyy⟩ := callOf_eq_some hc'
  rw [hundid] at hcx
  rw [hran] at hcy
  rw [← hcx] at hj
  rw [← hcy] at hk
  cases hj
  cases hk
  refine hsep i err hcx.symm hcy.symm ?_
  rw [hkeyx, hkeyy] at hkey
  exact epoch_eq_of_key hsha (hepochs.nonneg y hy) (hepochs.nonneg x hx) hkey

/-- One message. -/
def demoInput : Input :=
  ⟨str "m1", ⟨[], [], 0, 0⟩, none, none, [], []⟩

/-- `Execute`: shipping refuses for good, the reservation and the charge are undone,
and then the message is to be stored.  After that everything works. -/
def undoneTape (stored : Saved) (i : Nat) : Answer :=
  let refused : Err := .permanent (.other (str "no such address") false)
  ([ demoAnswer none .ok, demoAnswer none .ok, demoAnswer none .ok, demoAnswer none .ok,
     demoAnswer (some refused) .ok, demoAnswer none .ok, demoAnswer none .ok, demoAnswer none .ok,
     demoAnswer none stored][i]?).getD (demoAnswer none .ok)

/-- The message is stored, and an operator sends it back to its first step. -/
theorem undone_work_is_not_redone_under_its_key_demo :
    ∃ m, run (Message.step (undoneTape .ok) demoSaga demoInput) Message.new
        [.deliver, .redrive (str "charge"), .resume] = some m ∧
      (m.calls id demoSaga demoInput).map Call.event =
        [.ran 0 none, .ran 1 none, .ran 2 (some (.permanent (.other (str "no such address") false))),
          .undid 1 none, .undid 0 none, .ran 0 none, .ran 1 none, .ran 2 none] ∧
      (m.calls id demoSaga demoInput).Pairwise fun c c' =>
        ∀ i err, c.event = .undid i none → c'.event = .ran i err → c'.key ≠ c.key := by
  obtain ⟨m, hrun, hcalls⟩ : ∃ m, run (Message.step (undoneTape .ok) demoSaga demoInput)
      Message.new [.deliver, .redrive (str "charge"), .resume] = some m ∧
        (m.calls id demoSaga demoInput).map Call.event = [.ran 0 none, .ran 1 none,
          .ran 2 (some (.permanent (.other (str "no such address") false))),
          .undid 1 none, .undid 0 none, .ran 0 none, .ran 1 none, .ran 2 none] := by
    decide +kernel
  exact ⟨m, hrun, hcalls, undone_work_is_not_redone_under_its_key id Function.injective_id _ _ _
    (by decide +kernel) hrun⟩

/-- The store is full when the message is to be stored.  It is delivered again, and
the charge that was undone is made once more under the key it had. -/
theorem undone_charge_is_redone_under_its_key :
    ∃ m, run (Message.step (undoneTape (.failed (.other (str "store full") false) false)) demoSaga
        demoInput) Message.new [.deliver, .deliver] = some m ∧
      ¬ (m.calls id demoSaga demoInput).Pairwise fun c c' =>
        ∀ i err, c.event = .undid i none → c'.event = .ran i err → c'.key ≠ c.key := by
  obtain ⟨m, hrun, htwo⟩ : ∃ m, run (Message.step
      (undoneTape (.failed (.other (str "store full") false) false)) demoSaga demoInput)
      Message.new [.deliver, .deliver] = some m ∧
        ((m.calls id demoSaga demoInput).drop 4).take 2 =
          [⟨keyInput (str "m1") (str "charge") 0, .undid 0 none⟩,
            ⟨keyInput (str "m1") (str "charge") 0, .ran 0 none⟩] := by
    decide +kernel
  refine ⟨m, hrun, ?_⟩
  intro hpair
  have hsub := (hpair.drop (i := 4)).take (i := 2)
  rw [htwo] at hsub
  exact rel_of_pairwise_cons hsub mem_cons_self 0 none rfl rfl rfl

end Undone

end Pipe
end GoGuard
