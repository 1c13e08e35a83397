import GoGuard.Pipeline.Keys

/-!
# Keys after a rewind

A rewound record resumes with one epoch for all of its steps, while steps are
undone one by one.  When the completed steps were all undone, or none of them
was, every step that runs again has the key it should have: a new one for work
that was undone, the old one for work that was really done.
-/

namespace GoGuard
namespace Pipe

open Lib Dlq List
open Kafka (Input Result)

section LastRun

variable {sha : Bytes → Bytes} {p : Pipeline} {inp : Input} {i : Nat}

/-- A call of this step's `Run`. -/
def Event.isRun (i : Nat) : Event → Bool
  | .ran j _ => j == i
  | _ => false

/-- The epoch of the last run of a step. -/
def lastRun (i : Nat) (timed : List (Int × Event)) : Option Int :=
  (timed.reverse.find? fun x => x.2.isRun i).map Prod.fst

/-- The key of the last run of a step. -/
def lastKey (i : Nat) (calls : List Call) : Option Bytes :=
  (calls.reverse.find? fun c => c.event.isRun i).map Call.key

theorem lastRun_append (i : Nat) (l l' : List (Int × Event)) :
    lastRun i (l ++ l') = (lastRun i l').or (lastRun i l) := by
  simp only [lastRun, reverse_append, List.find?_append, Option.map_or]

theorem lastRun_map (i : Nat) (epoch : Int) (ev : List Event) :
    lastRun i (ev.map fun e => (epoch, e)) = none ∨
      lastRun i (ev.map fun e => (epoch, e)) = some epoch := by
  unfold lastRun
  cases hfind : (ev.map fun e => (epoch, e)).reverse.find? fun x => x.2.isRun i with
  | none => exact .inl rfl
  | some x =>
    obtain ⟨e, -, rfl⟩ := mem_map.mp (mem_reverse.mp (mem_of_find?_eq_some hfind))
    exact .inr rfl

theorem lastRun_of_mem {ev : List Event} {err : Option Err} (hmem : .ran i err ∈ ev) (epoch : Int) :
    lastRun i (ev.map fun e => (epoch, e)) = some epoch := by
  refine (lastRun_map i epoch ev).resolve_left ?_
  intro hnone
  have hfind := List.find?_eq_none.mp (Option.map_eq_none_iff.mp hnone)
  exact hfind (epoch, .ran i err) (mem_reverse.mpr (mem_map_of_mem hmem))
    (beq_self_eq_true i)

theorem lastKey_filterMap (i : Nat) (timed : List (Int × Event)) :
    lastKey i (timed.filterMap (callOf sha p inp)) =
      (lastRun i timed).map fun e => idempotencyKeyEpoch sha inp.id (p.nameAt i) e := by
  induction timed using List.reverseRecOn with
  | nil => rfl
  | append_singleton timed x ih =>
    obtain ⟨e, ev⟩ := x
    rw [lastRun_append, filterMap_append]
    cases ev with
    | stored cp =>
      have hnone : [(e, Event.stored cp)].filterMap (callOf sha p inp) = [] := rfl
      rw [hnone, append_nil, ih]
      rfl
    | undid j err =>
      simp only [lastKey, callOf, Event.step, Option.map_some, filterMap_cons,
        filterMap_nil, reverse_append, reverse_cons, reverse_nil,
        nil_append, cons_append, List.find?_cons, Event.isRun]
      exact ih
    | ran j err =>
      by_cases hj : j = i
      · subst hj
        simp [lastKey, lastRun, callOf, Event.step, Event.isRun]
      · have hne : (j == i) = false := beq_false_of_ne hj
        simp only [lastKey, lastRun, callOf, Event.step, Option.map_some,
          filterMap_cons, filterMap_nil, reverse_append, reverse_cons,
          reverse_nil, nil_append, cons_append, List.find?_cons,
          Event.isRun, hne, List.find?_nil, Option.map_none, Option.none_or]
        exact ih

end LastRun

section Aligned

variable {tape : Nat → Answer} {p : Pipeline} {inp : Input} {m m' : Message}
variable {cp₀ : Checkpoint} {ev : List Event}

/-- Every completed step was undone, or none was. -/
def Checkpoint.Whole (cp : Checkpoint) : Prop :=
  cp.compensated = [] ∨ ∀ n ∈ cp.names, n ∈ cp.compensated

instance (cp : Checkpoint) : Decidable cp.Whole :=
  inferInstanceAs (Decidable (cp.compensated = [] ∨ ∀ n ∈ cp.names, n ∈ cp.compensated))

/-- An operator rewinds a record only when every completed step was undone or none
was, and a message of which something was undone is not executed from the
start. -/
def RewindsWhole (p : Pipeline) (m : Message) : Move → Prop
  | .deliver => m.anyUndone = false
  | .redrive fromStep =>
    fromStep ≠ [] → ∀ record ∈ m.record,
      match p.load record.checkpoint with
      | .ok cp => cp.Whole
      | .error _ => True
  | _ => True

variable {toStep : Bytes} {idx : Nat}

theorem stepIndex_eq_some (h : p.stepIndex toStep = some idx) :
    ∃ st, p.steps[idx]? = some st ∧ st.name = toStep := by
  have hfold : ∀ (l : List (Step × Nat)) (acc : Option Nat),
      l.foldl (fun idx x => if x.1.name = toStep then some x.2 else idx) acc = some idx →
      acc = some idx ∨ ∃ st, (st, idx) ∈ l ∧ st.name = toStep := by
    intro l
    induction l with
    | nil => exact fun _ hacc => .inl hacc
    | cons x l ih =>
      intro acc hacc
      rcases ih _ hacc with hx | ⟨st, hst, hname⟩
      · dsimp only at hx
        split at hx
        · next hname =>
          cases hx
          exact .inr ⟨x.1, mem_cons_self, hname⟩
        · exact .inl hx
      · exact .inr ⟨st, mem_cons_of_mem _ hst, hname⟩
  rcases hfold _ _ h with hnone | ⟨st, hst, hname⟩
  · cases hnone
  · exact ⟨st, mk_mem_zipIdx_iff_getElem?.mp hst, hname⟩

theorem ne_nil_of_stepIndex (h : p.stepIndex toStep = some idx) : toStep ≠ [] := by
  obtain ⟨st, hst, rfl⟩ := stepIndex_eq_some h
  exact p.step_name_ne st (mem_of_getElem? hst)

/-- The completed steps were last run in the epoch of the record. -/
structure Aligned (p : Pipeline) (m : Message) : Prop where
  bound : ∀ cp, Loaded p m cp → ∀ x ∈ m.timed, x.1 ≤ cp.epoch
  last : ∀ cp, Loaded p m cp → ∀ i < cp.completed.length, lastRun i m.timed = some cp.epoch

theorem Aligned.attempted (h : Aligned p m) (hbound : ∀ x ∈ m.timed, x.1 ≤ cp₀.epoch)
    (hlast : ∀ i < cp₀.completed.length, lastRun i m.timed = some cp₀.epoch)
    (hsame : ∀ c, Loaded p m c → c.epoch = cp₀.epoch) (hatt : Attempted p m m' cp₀ ev) :
    Aligned p m' := by
  have hepoch : ∀ c, Loaded p m' c → c.epoch = cp₀.epoch := by
    intro c hc
    rcases hatt.loaded_cases hc with ⟨hold, -⟩ | ⟨pre, cp, post, -, -, hreflects, rfl⟩
    · exact hsame c hold
    · exact hreflects.epoch
  -- a step that was last run in this epoch still was
  have hkeep : ∀ i, lastRun i m.timed = some cp₀.epoch → lastRun i m'.timed = some cp₀.epoch := by
    intro i hi
    rw [hatt.timed, lastRun_append]
    rcases lastRun_map i cp₀.epoch ev with hnew | hnew
    · rw [hnew, hi]
      rfl
    · rw [hnew]
      rfl
  refine ⟨?_, ?_⟩
  · intro c hc x hx
    rw [hepoch c hc]
    rw [hatt.timed] at hx
    rcases mem_append.mp hx with hold | hnew
    · exact hbound x hold
    · obtain ⟨e, -, rfl⟩ := mem_map.mp hnew
      exact le_refl _
  · intro c hc i hi
    rw [hepoch c hc]
    rcases hatt.loaded_cases hc with ⟨hold, -⟩ | ⟨pre, cp, post, hev, -, hreflects, rfl⟩
    · exact hkeep i (hsame c hold ▸ h.last c hold i hi)
    · have hlen : cp.json.completed.length = cp.completed.length := length_map _
      rw [hlen] at hi
      rcases Nat.lt_or_ge i cp₀.completed.length with hlt | hge
      · exact hkeep i (hlast i hlt)
      · have hmem : .ran i none ∈ ev := by
          rw [hev]
          exact mem_append_left _ (hreflects.returned i hge hi)
        rw [hatt.timed, lastRun_append, lastRun_of_mem hmem]
        rfl

theorem Rewound.take_eq_nil (hrew : Rewound p m m' cp₀ idx)
    (hall : ∀ n ∈ cp₀.names, n ∈ cp₀.compensated) : cp₀.completed.take idx = [] := by
  refine eq_nil_iff_forall_not_mem.mpr ?_
  intro d hd
  have hname : d.step ∈ cp₀.names.take idx := by
    rw [Checkpoint.names, ← map_take]
    exact mem_map_of_mem hd
  exact hrew.kept d.step hname (hall d.step (mem_of_mem_take hname))

theorem Aligned.rewound (h : Aligned p m) (hrew : Rewound p m m' cp₀ idx) (hwhole : cp₀.Whole) :
    Aligned p m' := by
  have hbound := h.bound cp₀ hrew.loaded
  refine ⟨?_, ?_⟩
  · intro c hc x hx
    rw [hrew.timed] at hx
    rw [hrew.record c hc]
    have hle := hbound x hx
    simp only [Checkpoint.json, Checkpoint.rewound]
    split
    · omega
    · exact hle
  · intro c hc i hi
    rw [hrew.record c hc] at hi ⊢
    have hlen : i < (cp₀.completed.take idx).length := by
      simpa [Checkpoint.json, Checkpoint.rewound] using hi
    rcases hwhole with hnone | hall
    · have hepoch : (cp₀.rewound idx).json.epoch = cp₀.epoch := by
        simp [Checkpoint.json, Checkpoint.rewound, hnone]
      rw [hepoch, hrew.timed]
      refine h.last cp₀ hrew.loaded i (lt_of_lt_of_le hlen ?_)
      exact length_take_le' _ _
    · rw [hrew.take_eq_nil hall] at hlen
      cases hlen

theorem aligned_new : Aligned p Message.new := by
  refine ⟨?_, ?_⟩
  · rintro cp ⟨record, hr, -⟩
    cases hr
  · rintro cp ⟨record, hr, -⟩
    cases hr

theorem Aligned.step {mv : Move} (h : EpochsOk p m ∧ Aligned p m) (hok : RewindsWhole p m mv)
    (hstep : m.step tape p inp mv = some m') : EpochsOk p m' ∧ Aligned p m' := by
  have hmoved := moved_step hstep
  refine ⟨h.1.moved hmoved, ?_⟩
  cases hmoved with
  | quiet htimed hload =>
    refine ⟨?_, ?_⟩
    · rw [htimed]
      exact fun cp hcp => h.2.bound cp (hload cp hcp)
    · rw [htimed]
      exact fun cp hcp => h.2.last cp (hload cp hcp)
  | delivered hatt =>
    have hnone : m.anyUndone = false := hok
    refine h.2.attempted ?_ ?_ ?_ hatt
    · intro x hx
      exact (h.1.first hnone x hx).le
    · intro i hi
      cases hi
    · intro c hc
      exact (h.1.start hnone c hc).1
  | resumed hloaded hatt =>
    refine h.2.attempted (h.2.bound _ hloaded) (h.2.last _ hloaded) ?_ hatt
    intro c hc
    rw [hc.unique hloaded]
  | rewound hidx hrew =>
    refine h.2.rewound hrew ?_
    obtain ⟨record, hrecord, hload⟩ := hrew.loaded
    have hwhole := hok (ne_nil_of_stepIndex hidx) record hrecord
    rw [hload] at hwhole
    exact hwhole

end Aligned

section Resumed

variable {tape : Nat → Answer} {p : Pipeline} {inp : Input} {m m' : Message}

/-- A move after which the record resumes where it was. -/
def Move.resumes : Move → Bool
  | .resume => true
  | .settle _ => true
  | _ => false

/-- The calls since then are all in one epoch, that of the record. -/
def Since (p : Pipeline) (before : List (Int × Event)) (epoch : Int) (m : Message) : Prop :=
  (∃ new, m.timed = before ++ new ∧ ∀ x ∈ new, x.1 = epoch) ∧
    ∀ cp, Loaded p m cp → cp.epoch = epoch

variable {before : List (Int × Event)} {epoch : Int}

theorem Since.step {mv : Move} (h : Since p before epoch m) (hmv : mv.resumes = true)
    (hstep : m.step tape p inp mv = some m') : Since p before epoch m' := by
  obtain ⟨⟨new, htimed, hnew⟩, hloaded⟩ := h
  cases moved_step hstep with
  | quiet hsame hload =>
    exact ⟨⟨new, hsame.trans htimed, hnew⟩, fun cp hcp => hloaded cp (hload cp hcp)⟩
  | delivered hatt => cases hmv
  | @resumed cp ev hcp hatt =>
    have hepoch := hloaded cp hcp
    refine ⟨⟨new ++ ev.map fun e => (cp.epoch, e), ?_, ?_⟩, ?_⟩
    · rw [hatt.timed, htimed, append_assoc]
    · intro x hx
      rcases mem_append.mp hx with hold | hlate
      · exact hnew x hold
      · obtain ⟨e, -, rfl⟩ := mem_map.mp hlate
        exact hepoch
    · intro c hc
      rcases hatt.loaded_cases hc with ⟨hold, -⟩ | ⟨pre, cp, post, -, -, hreflects, rfl⟩
      · exact hloaded c hold
      · exact hreflects.epoch.trans hepoch
  | rewound _ hrew => cases hmv

theorem since_run {later : List Move} (hlater : ∀ mv ∈ later, mv.resumes = true)
    (h : Since p before epoch m) (hrun : run (Message.step tape p inp) m later = some m') :
    Since p before epoch m' := by
  induction later generalizing m with
  | nil =>
    cases hrun
    exact h
  | cons mv later ih =>
    obtain ⟨u, hu, hrest⟩ := (run_cons_eq_some _).mp hrun
    exact ih (fun mv' hmv' => hlater mv' (mem_cons_of_mem _ hmv'))
      (h.step (hlater mv mem_cons_self) hu) hrest

end Resumed

section Compensated

variable {tape : Nat → Answer} {p : Pipeline} {inp : Input} {m m' : Message}
variable {cp₀ cp : Checkpoint} {ev : List Event} {i : Nat}

/-- Whether a step is undone after an event. -/
def undoneBy (i : Nat) (undone : Bool) : Event → Bool
  | .ran j _ => if j = i then false else undone
  | .undid j none => if j = i then true else undone
  | _ => undone

/-- The step's `Compensate` has returned nil since its last run. -/
def Message.undone (m : Message) (i : Nat) : Bool :=
  m.events.foldl (undoneBy i) false

/-- In a run all calls of `Run` come first. -/
theorem undoneBy_run (hok : Justified (RunOk p cp₀) ev) (i : Nat) (before : Bool) :
    ev.foldl (undoneBy i) before = true ↔
      .undid i none ∈ ev ∨ (∀ err, .ran i err ∉ ev) ∧ before = true := by
  induction ev using List.reverseRecOn with
  | nil => simp
  | append_singleton ev e ih =>
    rw [foldl_append, foldl_cons, foldl_nil]
    have ih := ih hok.of_append
    cases e with
    | stored cp => simpa [undoneBy] using ih
    | undid j err =>
      cases err with
      | some e => simpa [undoneBy] using ih
      | none =>
        by_cases hj : j = i
        · subst hj
          simp [undoneBy]
        · simpa [undoneBy, hj, Ne.symm hj] using ih
    | ran j err =>
      have hno := (hok ev (.ran j err) [] rfl).2.2
      by_cases hj : j = i
      · subst hj
        simp only [undoneBy, if_true, mem_append, hno, false_or, Bool.false_eq_true,
          false_iff, not_and, mem_singleton, reduceCtorEq]
        exact fun hnot => absurd (.inr rfl) (hnot err)
      · simpa [undoneBy, hj, Ne.symm hj] using ih

theorem load_names {raw : Raw} (h : p.load raw = .ok cp) :
    cp.names = p.stepNames.take cp.completed.length := by
  cases raw with
  | empty =>
    cases h
    rfl
  | unreadable => cases h
  | json c =>
    obtain ⟨rfl, hnames⟩ := load_json_eq_ok h
    exact hnames

section

variable (hnames : cp.names = p.stepNames.take cp.completed.length)
include hnames

theorem getElem?_names (hi : i < cp.completed.length) : cp.names[i]? = some (p.nameAt i) := by
  have hlt : i < p.stepNames.length := by
    have hlen := congrArg List.length hnames
    simp only [Checkpoint.names, length_map, length_take] at hlen
    omega
  rw [hnames, List.getElem?_take_of_lt hi, Pipeline.nameAt, List.getElem?_eq_getElem hlt]
  rfl

theorem nameAt_inj {j : Nat}
    (hi : i < cp.completed.length) (hj : j < cp.completed.length) (h : p.nameAt i = p.nameAt j) :
    i = j := by
  have hnodup : cp.names.Nodup := hnames ▸ p.nodup.sublist (take_sublist _ _)
  have hlen : i < cp.names.length := by simpa [Checkpoint.names] using hi
  refine (List.getElem?_inj hlen hnodup).mp ?_
  rw [getElem?_names hnames hi, getElem?_names hnames hj, h]

/-- The names of completed steps are not changed by JSON when the checkpoint is
accepted. -/
theorem jsonString_nameAt (hread : cp.json.names = p.stepNames.take cp.json.completed.length)
    (hi : i < cp.completed.length) : jsonString (p.nameAt i) = p.nameAt i := by
  have hlen : cp.json.completed.length = cp.completed.length := length_map _
  have hjson : cp.json.names[i]? = some (p.nameAt i) :=
    getElem?_names hread (hlen.symm ▸ hi)
  have hmap : cp.json.names = cp.names.map jsonString := by
    simp [Checkpoint.names, Checkpoint.json, DoneStep.json, Function.comp_def]
  rw [hmap, List.getElem?_map, getElem?_names hnames hi] at hjson
  exact Option.some.inj hjson

end

/-- The record names exactly the completed steps that are undone. -/
structure Faithful (p : Pipeline) (m : Message) (cp : Checkpoint) : Prop where
  owned : ∀ n ∈ cp.compensated, ∃ j < cp.completed.length, p.nameAt j = n
  undone : ∀ i < cp.completed.length, p.nameAt i ∈ cp.compensated ↔ m.undone i = true

theorem events_attempted (hatt : Attempted p m m' cp₀ ev) : m'.events = m.events ++ ev := by
  obtain ⟨a, hpast, rfl, -⟩ := hatt.past
  simp [Message.events, hpast]

theorem Attempted.undone (hatt : Attempted p m m' cp₀ ev) (i : Nat) :
    m'.undone i = true ↔
      .undid i none ∈ ev ∨ (∀ err, .ran i err ∉ ev) ∧ m.undone i = true := by
  rw [Message.undone, events_attempted hatt, foldl_append]
  exact undoneBy_run hatt.ok i _

theorem Attempted.not_ran (hatt : Attempted p m m' cp₀ ev) (hi : i < cp₀.completed.length)
    (err : Option Err) : .ran i err ∉ ev := by
  intro hmem
  obtain ⟨pre, post, hev⟩ := append_of_mem hmem
  have hle := (hatt.ok pre _ post hev).2.1
  omega

theorem Faithful.stored {pre post : List Event} (h : Faithful p m cp₀)
    (hnames₀ : cp₀.names = p.stepNames.take cp₀.completed.length) (hatt : Attempted p m m' cp₀ ev)
    (hrec : undoRecorded ev = true) (hev : ev = pre ++ .stored cp :: post)
    (hpost : ∀ c, .stored c ∉ post) (hreflects : Reflects p cp₀ pre cp)
    (hread : cp.json.names = p.stepNames.take cp.json.completed.length) :
    Faithful p m' cp.json := by
  have hnames := hreflects.names hnames₀
  have hlen : cp.json.completed.length = cp.completed.length := length_map _
  have hundid : ∀ j, .undid j none ∈ ev ↔ .undid j none ∈ pre := by
    intro j
    subst hev
    exact ⟨undone_before_last hrec hpost, mem_append_left _⟩
  have howned : ∀ n ∈ cp.compensated, ∃ j < cp.completed.length, p.nameAt j = n := by
    intro n hn
    rcases hreflects.recorded n hn with hold | ⟨j, hname, hmem⟩
    · obtain ⟨j, hj, hname⟩ := h.owned n hold
      exact ⟨j, lt_of_lt_of_le hj hreflects.completed.length_le, hname⟩
    · exact ⟨j, (hreflects.undone j hmem).1, hname⟩
  -- JSON does not change the names of completed steps
  have hjson : cp.json.compensated = cp.compensated := by
    refine (map_congr_left ?_).trans (map_id _)
    intro n hn
    obtain ⟨j, hj, rfl⟩ := howned n hn
    exact jsonString_nameAt hnames hread hj
  refine ⟨?_, ?_⟩
  · rw [hjson, hlen]
    exact howned
  · intro i hi
    rw [hlen] at hi
    have hmem : p.nameAt i ∈ cp.compensated ↔
        p.nameAt i ∈ cp₀.compensated ∨ .undid i none ∈ pre := by
      constructor
      · intro hn
        rcases hreflects.recorded _ hn with hold | ⟨j, hname, hj⟩
        · exact .inl hold
        · rw [← nameAt_inj hnames (hreflects.undone j hj).1 hi hname]
          exact .inr hj
      · rintro (hold | hnew)
        · exact hreflects.compensated.subset hold
        · exact (hreflects.undone i hnew).2
    rw [hjson, hmem, hatt.undone i, hundid i]
    rcases Nat.lt_or_ge i cp₀.completed.length with hlt | hge
    · rw [h.undone i hlt, or_comm]
      exact or_congr Iff.rfl ⟨fun hu => ⟨hatt.not_ran hlt, hu⟩, fun hu => hu.2⟩
    · -- the step was completed in this attempt
      have hran : .ran i none ∈ ev := by
        rw [hev]
        exact mem_append_left _ (hreflects.returned i hge hi)
      have hnot : p.nameAt i ∉ cp₀.compensated := by
        intro hold
        obtain ⟨j, hj, hname⟩ := h.owned _ hold
        have hjlt := lt_of_lt_of_le hj hreflects.completed.length_le
        have heq := nameAt_inj hnames hjlt hi hname
        omega
      exact ⟨fun hu => .inl (hu.resolve_left hnot),
        fun hu => .inr (hu.resolve_right fun hno => hno.1 none hran)⟩

theorem not_undone_of_anyUndone (h : m.anyUndone = false) (i : Nat) : m.undone i = false := by
  have hno : ∀ e ∈ m.events, e.isUndone = false := by
    intro e he
    obtain ⟨a, ha, hea⟩ := mem_flatMap.mp he
    simp only [Message.anyUndone, any_eq_false, Bool.not_eq_true] at h
    exact h a ha e hea
  unfold Message.undone
  generalize m.events = ev at hno
  induction ev using List.reverseRecOn with
  | nil => rfl
  | append_singleton ev e ih =>
    have ih := ih fun e' he' => hno e' (mem_append_left _ he')
    have he := hno e (mem_append_right _ mem_cons_self)
    rw [foldl_append, ih]
    cases e with
    | stored cp => rfl
    | ran j err => simp [undoneBy]
    | undid j err =>
      cases err with
      | none => cases he
      | some e => rfl

theorem events_eq_timed (m : Message) : m.events = m.timed.map Prod.snd := by
  simp [Message.events, Message.timed, map_flatMap, Function.comp_def]

theorem undone_congr (h : m'.timed = m.timed) (i : Nat) : m'.undone i = m.undone i := by
  rw [Message.undone, Message.undone, events_eq_timed, events_eq_timed, h]

theorem Loaded.names (h : Loaded p m cp) : cp.names = p.stepNames.take cp.completed.length := by
  obtain ⟨record, -, hload⟩ := h
  exact load_names hload

theorem faithful_new (m : Message) : Faithful p m p.newCheckpoint := by
  refine ⟨?_, ?_⟩
  · intro n hn
    cases hn
  · intro i hi
    cases hi

theorem Faithful.rewound {idx : Nat} (h : Faithful p m cp₀) (hrew : Rewound p m m' cp₀ idx) :
    Faithful p m' (cp₀.rewound idx).json := by
  refine ⟨?_, ?_⟩
  · intro n hn
    cases hn
  · intro i hi
    have hi' : i < idx ∧ i < cp₀.completed.length := by
      simpa [Checkpoint.json, Checkpoint.rewound] using hi
    have hkept : p.nameAt i ∉ cp₀.compensated := by
      refine hrew.kept _ (mem_of_getElem? (i := i) ?_)
      rw [List.getElem?_take_of_lt hi'.1, getElem?_names hrew.loaded.names hi'.2]
    rw [h.undone i hi'.2] at hkept
    rw [undone_congr hrew.timed]
    exact ⟨by rintro ⟨⟩, fun hu => absurd hu hkept⟩

theorem Faithful.step {mv : Move} (h : EpochsOk p m ∧ ∀ cp, Loaded p m cp → Faithful p m cp)
    (hon : OnRecord tape p inp m mv) (hstep : m.step tape p inp mv = some m') :
    EpochsOk p m' ∧ ∀ cp, Loaded p m' cp → Faithful p m' cp := by
  have hmoved := moved_step hstep
  refine ⟨h.1.moved hmoved, ?_⟩
  intro c hc
  cases hmoved with
  | quiet htimed hload =>
    have hfaithful := h.2 c (hload c hc)
    refine ⟨hfaithful.owned, ?_⟩
    intro i hi
    rw [undone_congr htimed]
    exact hfaithful.undone i hi
  | delivered hatt =>
    have hnone := hon.1 rfl
    have hrec := hon.recorded hstep hatt
    rcases hatt.loaded_cases hc with ⟨hold, hno⟩ | ⟨pre, cp, post, hev, hpost, hreflects, rfl⟩
    · have hempty := (h.1.start hnone c hold).2
      refine ⟨(h.2 c hold).owned, ?_⟩
      intro i _
      rw [hempty, hatt.undone i, not_undone_of_anyUndone hnone]
      have hundid := not_undone_of_not_stored hrec hno i
      simp [hundid]
    · exact (faithful_new m).stored rfl hatt hrec hev hpost hreflects hc.names
  | resumed hloaded hatt =>
    have hfaithful := h.2 _ hloaded
    have hrec := hon.recorded hstep hatt
    rcases hatt.loaded_cases hc with ⟨hold, hno⟩ | ⟨pre, cp, post, hev, hpost, hreflects, rfl⟩
    · rw [hold.unique hloaded]
      refine ⟨hfaithful.owned, ?_⟩
      intro i hi
      have hundid := not_undone_of_not_stored hrec hno i
      rw [hfaithful.undone i hi, hatt.undone i]
      exact ⟨fun hu => .inr ⟨hatt.not_ran hi, hu⟩, fun hu => (hu.resolve_left hundid).2⟩
    · exact hfaithful.stored hloaded.names hatt hrec hev hpost hreflects hc.names
  | rewound _ hrew =>
    rw [hrew.record c hc]
    exact (h.2 _ hrew.loaded).rewound hrew

end Compensated

section Results

variable {sha : Bytes → Bytes} {tape : Nat → Answer} {p : Pipeline} {inp : Input} {m : Message}

theorem key_of_mem {new : List (Int × Event)} {epoch : Int} {c : Call} {i : Nat} {err : Option Err}
    (hnew : ∀ x ∈ new, x.1 = epoch) (hc : c ∈ new.filterMap (callOf sha p inp))
    (hran : c.event = .ran i err) : c.key = idempotencyKeyEpoch sha inp.id (p.nameAt i) epoch := by
  obtain ⟨x, hx, hcall⟩ := mem_filterMap.mp hc
  obtain ⟨hevent, j, hj, hkey⟩ := callOf_eq_some hcall
  rw [hran] at hevent
  rw [← hevent] at hj
  cases hj
  rw [hkey, hnew x hx]

/-- **A rewind keeps the keys of work that was really done.**  In a life of a
message in which records are rewound only when all completed steps were undone or
none was, let a rewind be accepted, and let the record resume any number of times.
A step that was completed before and runs again has the key of its last run if it
is not recorded as undone, and a key it never had if it is.  What is recorded as
undone is what was undone, if the undoing of steps is on record. -/
theorem rewind_keeps_keys_of_done_work (sha : Bytes → Bytes) (hsha : Function.Injective sha)
    (tape : Nat → Answer) (p : Pipeline) (inp : Input) {moves : List Move} {m : Message}
    (hok : RunAll (Message.step tape p inp) (RewindsWhole p) Message.new moves)
    (hrun : run (Message.step tape p inp) Message.new moves = some m)
    {record : Stored} {cp : Checkpoint} {raw : Raw} {toStep : Bytes}
    (hrecord : m.record = some record) (hload : p.load record.checkpoint = .ok cp)
    (hrewind : p.rewind record.checkpoint toStep = .ok raw) (hwhole : cp.Whole)
    {later : List Move} {m' : Message} (hlater : ∀ mv ∈ later, mv.resumes = true)
    (hresume : run (Message.step tape p inp)
      { m with record := some { record with state := .pending, checkpoint := raw } } later =
        some m') :
    (∃ new, m'.calls sha p inp = m.calls sha p inp ++ new ∧
      ∀ c ∈ new, ∀ i err, c.event = .ran i err → i < cp.completed.length →
        (p.nameAt i ∉ cp.compensated → lastKey i (m.calls sha p inp) = some c.key) ∧
        (p.nameAt i ∈ cp.compensated →
          ∀ c' ∈ m.calls sha p inp, ∀ err', c'.event = .ran i err' → c'.key ≠ c.key)) ∧
      (RunAll (Message.step tape p inp) (OnRecord tape p inp) Message.new moves →
        ∀ i < cp.completed.length, p.nameAt i ∈ cp.compensated ↔ m.undone i = true) := by
  have hloaded : Loaded p m cp := ⟨record, hrecord, hload⟩
  obtain ⟨hepochs, haligned⟩ : EpochsOk p m ∧ Aligned p m :=
    run_invariant_of _ (fun _ _ _ hok h hstep => Aligned.step h hok hstep) hok
      ⟨epochsOk_new, aligned_new⟩ hrun
  refine ⟨?_, ?_⟩
  · obtain ⟨cp', idx, hload', -, -, -, rfl⟩ := rewind_eq_ok hrewind
    cases hload.symm.trans hload'
    have hsince : Since p m.timed (cp.rewound idx).epoch
        { m with record := some { record with
            state := .pending, checkpoint := (cp.rewound idx).encode } } := by
      refine ⟨⟨[], (append_nil _).symm, fun x hx => (nomatch hx)⟩, ?_⟩
      rintro c ⟨record', hr, hc⟩
      cases hr
      rw [load_encode hc]
      rfl
    obtain ⟨⟨new, htimed, hnew⟩, -⟩ := since_run hlater hsince hresume
    refine ⟨new.filterMap (callOf sha p inp), ?_, ?_⟩
    · rw [Message.calls, htimed, filterMap_append]
      rfl
    · intro c hc i err hran hi
      have hkey := key_of_mem hnew hc hran
      constructor
      · intro hnot
        have hnone : cp.compensated = [] := by
          refine hwhole.resolve_right fun hall => hnot (hall _ ?_)
          exact mem_of_getElem? (getElem?_names hloaded.names hi)
        have hsame : (cp.rewound idx).epoch = cp.epoch := by simp [Checkpoint.rewound, hnone]
        rw [Message.calls, lastKey_filterMap, haligned.last cp hloaded i hi, hkey, hsame]
        rfl
      · intro hundone c' hc' err' hran' heq
        have hpos : cp.compensated.length > 0 := length_pos_of_mem hundone
        obtain ⟨x, hx, hcall⟩ := mem_filterMap.mp hc'
        obtain ⟨hevent, j, hj, hkey'⟩ := callOf_eq_some hcall
        rw [hran'] at hevent
        rw [← hevent] at hj
        cases hj
        rw [hkey, hkey'] at heq
        have hle := haligned.bound cp hloaded x hx
        have hnonneg := hepochs.nonneg x hx
        have hbump : (cp.rewound idx).epoch = cp.epoch + 1 := by
          rw [Checkpoint.rewound, if_pos hpos]
        have hepoch := epoch_eq_of_key hsha hnonneg (by omega) heq
        omega
  · intro hon i hi
    obtain ⟨-, hfaithful⟩ : EpochsOk p m ∧ ∀ cp, Loaded p m cp → Faithful p m cp :=
      run_invariant_of _ (fun _ _ _ hon h hstep => Faithful.step h hon hstep) hon
        ⟨epochsOk_new, fun _ hc => by obtain ⟨record, hr, -⟩ := hc; cases hr⟩ hrun
    exact (hfaithful cp hloaded).undone i hi

/-- The message after shipping was refused for good and everything was undone. -/
def undoneMessage : Message :=
  deliver (undoneTape .ok) demoSaga demoInput Message.new

/-- Its checkpoint. -/
def undoneCheckpoint : Checkpoint where
  v := checkpointVersion
  pipeline := str "order"
  version := str "1"
  completed := [⟨str "charge", 0⟩, ⟨str "reserve", 0⟩]
  phase := .compensating
  compensated := [str "reserve", str "charge"]
  failedStep := str "ship"
  failReason := str "error"
  epoch := 0
  state := .empty

/-- The record is rewound to the charge and resumes with new keys. -/
theorem rewind_keeps_keys_of_done_work_demo :
    (undoneMessage.undone 0, undoneMessage.undone 1) = (true, true) ∧
      ∃ (m' : Message) (new : List Call),
        m'.calls id demoSaga demoInput = undoneMessage.calls id demoSaga demoInput ++ new ∧
        new.map Call.event = [.ran 0 none, .ran 1 none, .ran 2 none] ∧
        ∀ c ∈ new, ∀ i err, c.event = .ran i err → i < 2 →
          ∀ c' ∈ undoneMessage.calls id demoSaga demoInput, ∀ err', c'.event = .ran i err' →
            c'.key ≠ c.key := by
  have hrecord : undoneMessage.record =
      some ⟨demoInput, .parked, [], str "error", undoneCheckpoint.encode⟩ := by
    rfl
  have hload : demoSaga.load undoneCheckpoint.encode = .ok undoneCheckpoint := by
    rfl
  have hrewind : demoSaga.rewind undoneCheckpoint.encode (str "charge") =
      .ok (undoneCheckpoint.rewound 0).encode := by
    rfl
  obtain ⟨m', hrun', hevents⟩ : ∃ m', run (Message.step (undoneTape .ok) demoSaga demoInput)
      { undoneMessage with
        record := some ⟨demoInput, .pending, [], str "error",
          (undoneCheckpoint.rewound 0).encode⟩ } [.resume] = some m' ∧
        ((m'.calls id demoSaga demoInput).drop
          (undoneMessage.calls id demoSaga demoInput).length).map Call.event =
            [.ran 0 none, .ran 1 none, .ran 2 none] := by
    decide +kernel
  have hok : RunAll (Message.step (undoneTape .ok) demoSaga demoInput) (RewindsWhole demoSaga)
      Message.new [.deliver] :=
    ⟨rfl, fun _ _ => trivial⟩
  have hrun : run (Message.step (undoneTape .ok) demoSaga demoInput) Message.new [.deliver] =
      some undoneMessage := rfl
  obtain ⟨⟨new, hcalls, hkeys⟩, -⟩ := rewind_keeps_keys_of_done_work id Function.injective_id
    (undoneTape .ok) demoSaga demoInput hok hrun hrecord hload hrewind (by decide +kernel)
    (by decide) hrun'
  refine ⟨by decide +kernel, m', new, hcalls, ?_, ?_⟩
  · rw [hcalls, drop_left] at hevents
    exact hevents
  · intro c hc i err hran hi
    refine (hkeys c hc i err hran hi).2 ?_
    have hall : ∀ i < 2, demoSaga.nameAt i ∈ undoneCheckpoint.compensated := by
      decide +kernel
    exact hall i hi

/-- The same saga, except that the charge cannot be undone. -/
def halfSaga : Pipeline where
  name := str "order"
  version := str "1"
  steps := [demoStep "charge" false, demoStep "reserve" true, demoStep "ship" false]
  saga := true
  redactor := fun _ => str "error"
  name_ne := order_ne
  steps_ne := by decide
  step_name_ne := by decide
  nodup := by decide

/-- The charge was made and not undone.  When the record is rewound to it because
the reservation was undone, it is charged again under another key. -/
theorem rewind_changes_key_of_done_work :
    (run (Message.step (undoneTape .ok) halfSaga demoInput) Message.new [.deliver]).map
        (fun m => (m.undone 0, lastKey 0 (m.calls id halfSaga demoInput))) =
      some (false, some (keyInput (str "m1") (str "charge") 0)) ∧
    (run (Message.step (undoneTape .ok) halfSaga demoInput) Message.new
        [.deliver, .redrive (str "charge"), .resume]).map
        (fun m => lastKey 0 (m.calls id halfSaga demoInput)) =
      some (some (keyInput (str "m1") (str "charge") 1)) ∧
    keyInput (str "m1") (str "charge") 0 ≠ keyInput (str "m1") (str "charge") 1 := by
  decide +kernel

end Results

end Pipe
end GoGuard
