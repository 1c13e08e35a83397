import GoGuard.Pipeline.RewindKeys
import GoGuard.Pipeline.RoundTrip
import GoGuard.Pipeline.Permanent

/-!
# Where a rewound record resumes

`Rewind` names a step; the checkpoint it writes is read by the next run of the
handler.  Here are both sides: which steps it accepts, and what the run from its
result does first.  A run that goes forward undoes nothing before a call has failed
for good, and it begins with the step behind the completed ones.
-/

namespace GoGuard
namespace Pipe

open Lib Dlq List
open Kafka (Input Result)

section Accepting

variable {p : Pipeline} {cp : Checkpoint} {toStep : Bytes} {i : Nat}

theorem stepIndex_of_name (h : p.stepNames[i]? = some toStep) : p.stepIndex toStep = some i := by
  have hfold : ∀ (l : List (Step × Nat)) (acc : Option Nat),
      (acc.isSome ∨ ∃ x ∈ l, x.1.name = toStep) →
      (l.foldl (fun idx x => if x.1.name = toStep then some x.2 else idx) acc).isSome := by
    intro l
    induction l with
    | nil =>
      intro acc hacc
      rcases hacc with hacc | ⟨x, hx, -⟩
      · exact hacc
      · cases hx
    | cons x l ih =>
      intro acc hacc
      refine ih _ ?_
      by_cases hx : x.1.name = toStep
      · left
        simp [hx]
      · rcases hacc with hacc | ⟨y, hy, hname⟩
        · left
          simpa [hx] using hacc
        · rcases mem_cons.mp hy with rfl | hy
          · exact absurd hname hx
          · exact .inr ⟨y, hy, hname⟩
  obtain ⟨st, hst, hname⟩ : ∃ st, p.steps[i]? = some st ∧ st.name = toStep := by
    rw [Pipeline.stepNames, List.getElem?_map] at h
    exact Option.map_eq_some_iff.mp h
  have hsome : (p.stepIndex toStep).isSome :=
    hfold p.steps.zipIdx none
      (.inr ⟨(st, i), mk_mem_zipIdx_iff_getElem?.mpr hst, hname⟩)
  obtain ⟨j, hj⟩ := Option.isSome_iff_exists.mp hsome
  obtain ⟨st', hst', hname'⟩ := stepIndex_eq_some hj
  rw [hj, index_eq_of_name hst' hst (hname'.trans hname.symm)]

/-- `Rewind` succeeds exactly for a step whose predecessors have completed and were not
undone. -/
theorem rewind_ok_iff {raw : Raw} (hload : p.load raw = .ok cp) :
    (∃ out, p.rewind raw toStep = .ok out) ↔
      ∃ i, p.stepNames[i]? = some toStep ∧ i ≤ cp.completed.length ∧
        ∀ n ∈ cp.names.take i, n ∉ cp.compensated := by
  constructor
  · rintro ⟨out, hout⟩
    obtain ⟨cp', idx, hload', hidx, hle, hkept, -⟩ := rewind_eq_ok hout
    obtain rfl : cp' = cp := Except.ok.inj (hload'.symm.trans hload)
    obtain ⟨st, hst, rfl⟩ := stepIndex_eq_some hidx
    refine ⟨idx, ?_, hle, hkept⟩
    rw [Pipeline.stepNames, List.getElem?_map, hst]
    rfl
  · rintro ⟨i, hname, hle, hkept⟩
    have hfind : ((cp.names.take i).find? fun name => cp.compensated.contains name) = none := by
      refine List.find?_eq_none.mpr ?_
      intro n hn hmem
      exact hkept n hn (contains_iff_mem.mp hmem)
    refine ⟨(cp.rewound i).encode, ?_⟩
    simp only [Pipeline.rewind]
    rw [hload]
    simp only
    rw [stepIndex_of_name hname]
    simp only
    rw [if_neg (not_lt.mpr hle), hfind]

theorem rewind_eq_of_name {raw out : Raw} (hload : p.load raw = .ok cp)
    (hout : p.rewind raw toStep = .ok out) (hname : p.stepNames[i]? = some toStep) :
    i ≤ cp.completed.length ∧ out = (cp.rewound i).encode := by
  obtain ⟨cp', idx, hload', hidx, hle, -, rfl⟩ := rewind_eq_ok hout
  obtain rfl : cp' = cp := Except.ok.inj (hload'.symm.trans hload)
  rw [stepIndex_of_name hname] at hidx
  cases hidx
  exact ⟨hle, rfl⟩

/-- What `json.Unmarshal` gives: its strings are valid UTF-8. -/
def Raw.Decoded : Raw → Prop
  | .json c => c.Readable ∧ ∀ k ∈ c.state.keys, validUtf8 k = true
  | _ => True

/-- What `load` returns is the pipeline's own but for the steps it says were undone. -/
theorem load_own {raw : Raw} (hload : p.load raw = .ok cp) (i : Nat) : Own p (cp.rewound i) := by
  cases raw with
  | empty =>
    cases hload
    exact (own_new p).rewound i
  | unreadable => cases hload
  | json c =>
    have hnames := load_names hload
    simp only [Pipeline.load] at hload
    obtain ⟨hv, hload⟩ := of_unless hload
    obtain ⟨hpipeline, hload⟩ := of_unless hload
    obtain rfl : c = cp := by
      split at hload
      · cases hload
      · obtain ⟨-, hload⟩ := of_unless hload
        split at hload
        · cases hload
        · exact Except.ok.inj hload
    have hself : Own p { c with phase := .forward, compensated := [] } :=
      ⟨not_not.mp hv, not_not.mp hpipeline, hnames, .inl rfl, by rintro _ ⟨⟩⟩
    have hrewound := hself.rewound i
    exact ⟨hrewound.v, hrewound.pipeline, hrewound.names, hrewound.phase, hrewound.undone⟩

theorem Raw.Decoded.rewound {raw : Raw} (h : raw.Decoded)
    (hname : raw = .empty → validUtf8 p.name = true) (hload : p.load raw = .ok cp) (i : Nat) :
    (cp.rewound i).Readable ∧ ∀ k ∈ cp.state.keys, validUtf8 k = true := by
  cases raw with
  | empty =>
    cases hload
    refine ⟨⟨hname rfl, ?_, fun _ hn => (nomatch hn)⟩, fun _ hk => (nomatch hk)⟩
    intro d hd
    cases mem_of_mem_take hd
  | unreadable => cases hload
  | json c =>
    obtain rfl : cp = c := (load_json_eq_ok hload).1
    refine ⟨⟨h.1.pipeline, ?_, fun _ hn => (nomatch hn)⟩, h.2⟩
    intro d hd
    exact h.1.completed d (mem_of_mem_take hd)

end Accepting

section Failing

variable {tape : Nat → Answer} {r : Run} {st : Step} {event : Option Err → Event} {e : Err}

/-- A breaker refuses with errors of its own, which are not marked permanent. -/
def Refusing (tape : Nat → Answer) : Prop :=
  ∀ i err, (tape i).refused = some err → err.isPermanent = false

theorem isPermanent_of_unwrap {e : Err} (h : e.unwrapPermanent.isPermanent = true) :
    e.isPermanent = true := by
  cases e with
  | permanent err => rfl
  | _ => exact h

/-- The step has returned the error between the two runs. -/
def Returned (event : Option Err → Event) (e : Err) (r r' : Run) : Prop :=
  ∃ new, r'.events = r.events ++ new ∧ event (some e) ∈ new

theorem returned_guarded (hrefusing : Refusing tape) (hres : (r.guarded tape st event).2 = some e)
    (hperm : e.isPermanent = true) : Returned event e r (r.guarded tape st event).1 := by
  unfold Run.guarded at hres ⊢
  split at hres
  · next err _ hrefused =>
    cases hres
    rw [hrefusing _ _ hrefused] at hperm
    cases hperm
  · simp only [Run.attempt] at hres
    refine ⟨[event (some e)], ?_, mem_singleton_self _⟩
    simp [Run.attempt, Run.log, Run.next, hres]

theorem returned_retryDo (hrefusing : Refusing tape) {left : Nat}
    (hlast : Run.lastTry tape st event left r = some e) (hperm : e.isPermanent = true) :
    Returned event e r (Run.retryDo tape st event left r).1 := by
  induction left generalizing r with
  | zero =>
    have hreturned := returned_guarded hrefusing hlast hperm
    simp only [Run.lastTry] at hlast
    rcases hguarded : r.guarded tape st event with ⟨r', err⟩
    rw [hguarded] at hreturned hlast
    obtain rfl : err = some e := hlast
    simp only [Run.retryDo, hguarded]
    exact hreturned
  | succ left ih =>
    have hcalled : Called event r (r.guarded tape st event).1 (r.guarded tape st event).2 :=
      called_guarded
    have hreturned : (r.guarded tape st event).2 = some e →
        Returned event e r (r.guarded tape st event).1 :=
      fun hres => returned_guarded hrefusing hres hperm
    rcases hguarded : r.guarded tape st event with ⟨r', err⟩
    rw [hguarded] at hcalled hreturned
    simp only [Run.lastTry, hguarded] at hlast
    simp only [Run.retryDo, hguarded]
    cases err with
    | none => cases hlast
    | some err =>
      simp only at hlast ⊢
      split at hlast
      · next hstop =>
        cases hlast
        rw [if_pos hstop]
        exact hreturned rfl
      · next hgo =>
        rw [if_neg hgo]
        obtain ⟨fails, hev⟩ := hcalled.events
        obtain ⟨new, hnew, hmem⟩ := ih hlast
        have hev' : r'.next.events = r.events ++ (fails.map fun e => event (some e)) := by
          simpa [Run.next] using hev
        refine ⟨(fails.map fun e => event (some e)) ++ new, ?_, ?_⟩
        · rw [hnew, hev', append_assoc]
        · exact mem_append_right _ hmem

theorem returned_call (hrefusing : Refusing tape) (hcall : (r.call tape st event).2 = some e)
    (hperm : e.isPermanent = true) :
    ∃ err, err.isPermanent = true ∧ Returned event err r (r.call tape st event).1 := by
  rw [Run.call_snd] at hcall
  obtain ⟨err, hlast, herr⟩ := Option.map_eq_some_iff.mp hcall
  have herrp : err.isPermanent = true := by
    rw [← herr] at hperm
    split at hperm
    · exact isPermanent_of_unwrap hperm
    · exact hperm
  refine ⟨err, herrp, ?_⟩
  unfold Run.lastError at hlast
  unfold Run.call
  split
  · exact returned_retryDo hrefusing hlast herrp
  · next hzero =>
    rw [Nat.eq_zero_of_not_pos hzero, Run.lastTry] at hlast
    exact returned_guarded hrefusing hlast herrp

theorem length_lt_call (hlet : st.breaker = none ∨ (r.ask tape).refused = none) :
    r.events.length < (r.call tape st event).1.events.length := by
  have hguarded : r.guarded tape st event = r.attempt tape event := by
    unfold Run.guarded
    rcases hlet with hlet | hlet <;> rw [hlet]
    cases st.breaker <;> rfl
  have htried : r.events.length < (r.guarded tape st event).1.events.length := by
    rw [hguarded]
    simp [Run.attempt, Run.log, Run.next]
  have hmore : ∀ (r₁ r₂ : Run) (err : Option Err), Called event r₁ r₂ err →
      r₁.events.length ≤ r₂.events.length := by
    intro r₁ r₂ err hcalled
    obtain ⟨fails, hev⟩ := hcalled.events
    rw [hev, append_assoc, length_append]
    omega
  unfold Run.call
  split
  · cases st.retry.maxRetries with
    | zero =>
      simp only [Run.retryDo]
      split
      · next heq => simpa [heq] using htried
      · next heq => simpa [heq] using htried
    | succ left =>
      simp only [Run.retryDo]
      split
      · next heq => simpa [heq] using htried
      · next r₁ err heq =>
        rw [heq] at htried
        split
        · exact htried
        · exact lt_of_lt_of_le htried (hmore r₁.next _ _ (called_retryDo left r₁.next))
  · exact htried

end Failing

section Forward

variable {tape : Nat → Answer} {p : Pipeline} {r r' : Run} {st : Step} {k : Nat}

theorem events_acts (h : Run.Acts p r r') : r.events <+: r'.events := by
  induction h with
  | refl => exact prefix_refl _
  | tail _ hact ih =>
    refine ih.trans ?_
    cases hact with
    | quiet hq => rw [hq.events]
    | turned st text => exact prefix_refl _
    | failed | completed | stuck | undone | commit => exact prefix_append _ _

/-- Nothing is undone before a step from `k` on has failed for good. -/
def Excused (k : Nat) (ev : List Event) : Prop :=
  (∀ j err, .undid j err ∉ ev) ∨
    ∃ pre post l e, ev = pre ++ post ∧ (∀ j err, .undid j err ∉ pre) ∧
      k ≤ l ∧ .ran l (some e) ∈ pre ∧ e.isPermanent = true

theorem Called.ran_only {err : Option Err} (h : Called (.ran k) r r' err) :
    ∃ new, r'.events = r.events ++ new ∧ (∀ e ∈ new, ∃ res, e = .ran k res) ∧
      (err = none → new ≠ []) := by
  obtain ⟨fails, hev⟩ := h.events
  refine ⟨fails.map (fun e => .ran k (some e)) ++ if err = none then [.ran k none] else [], ?_, ?_, ?_⟩
  · rw [hev, append_assoc]
  · intro e he
    rcases mem_append.mp he with he | he
    · obtain ⟨x, -, rfl⟩ := mem_map.mp he
      exact ⟨some x, rfl⟩
    · split at he
      · obtain rfl := mem_singleton.mp he
        exact ⟨none, rfl⟩
      · cases he
  · intro hnone
    simp [hnone]

theorem isPermanent_classify (ctx : Option CtxErr) (st : Step) (e : Err) :
    (Run.classify ctx st e).isPermanent = e.isPermanent := by
  unfold Run.classify
  split
  · rfl
  · next hperm =>
    split
    · rfl
    · split <;> rfl

theorem failed_excused (tape : Nat → Answer) (p : Pipeline) (st : Step) {e : Err} {new : List Event}
    (hnew : r'.events = r.events ++ new) (hran : ∀ x ∈ new, ∃ res, x = .ran k res)
    (hreturned : e.isPermanent = true →
      ∃ err, err.isPermanent = true ∧ .ran k (some err) ∈ new) :
    ∃ more, (r'.failed tape p st e).1.events = r.events ++ (new ++ more) ∧
      Excused k (new ++ more) ∧ (new = [] → more = []) := by
  have hforward : ∀ j err, .undid j err ∉ new := by
    intro j err hmem
    obtain ⟨res, hx⟩ := hran _ hmem
    cases hx
  by_cases hperm : e.isPermanent = true
  · obtain ⟨err, herr, hmem⟩ := hreturned hperm
    have hacts : Run.Acts p r' (r'.failed tape p st e).1 := Run.acts_failed st e
    obtain ⟨more, hmore⟩ := events_acts hacts
    refine ⟨more, ?_, .inr ⟨new, more, k, err, rfl, hforward, le_refl k, hmem, herr⟩, ?_⟩
    · rw [← hmore, hnew, append_assoc]
    · rintro rfl
      cases hmem
  · have hfailed : (r'.failed tape p st e).1 = r'.next := by
      unfold Run.failed Run.failedAs
      rw [isPermanent_classify, if_pos (by simpa using hperm)]
    refine ⟨[], ?_, ?_, fun _ => rfl⟩
    · rw [hfailed, append_nil]
      exact hnew
    · rw [append_nil]
      exact .inl hforward

theorem Excused.behind {k' : Nat} {pre ev : List Event} (h : Excused k' ev)
    (hpre : ∀ j err, .undid j err ∉ pre) (hle : k ≤ k') : Excused k (pre ++ ev) := by
  have happend : ∀ {l : List Event}, (∀ j err, .undid j err ∉ l) →
      ∀ j err, .undid j err ∉ pre ++ l := by
    intro l hl j err hmem
    rcases mem_append.mp hmem with hmem | hmem
    · exact hpre j err hmem
    · exact hl j err hmem
  rcases h with hnone | ⟨a, b, l, e, rfl, ha, hl, hmem, hperm⟩
  · exact .inl (happend hnone)
  · refine .inr ⟨pre ++ a, b, l, e, ?_, happend ha, hle.trans hl, ?_, hperm⟩
    · rw [append_assoc]
    · exact mem_append_right _ hmem

theorem save_events (tape : Nat → Answer) (r : Run) :
    ∃ s, (r.save tape).1.events = r.events ++ s ∧ ∀ j err, .undid j err ∉ s := by
  have hcommit : ∀ r₁ : Run, r₁.events = r.events →
      ∃ s, r₁.commit.events = r.events ++ s ∧ ∀ j err, .undid j err ∉ s := by
    intro r₁ hev
    refine ⟨[.stored r₁.cp], ?_, by simp⟩
    simp [Run.commit, Run.log, hev]
  have hnone : ∀ r₁ : Run, r₁.events = r.events →
      ∃ s, r₁.events = r.events ++ s ∧ ∀ j err, .undid j err ∉ s := by
    intro r₁ hev
    exact ⟨[], by simp [hev], by simp⟩
  unfold Run.save Run.persisted
  split
  · exact hnone _ rfl
  · split
    · exact hcommit _ rfl
    · split
      · exact hcommit _ rfl
      · exact hnone _ rfl

/-- A run forward begins with its first step and undoes nothing before one has failed for
good. -/
theorem forward_excused (hrefusing : Refusing tape) (todo : List Step) (k : Nat) (r : Run) :
    ∃ more, (Run.forward tape p todo k r).1.events = r.events ++ more ∧ Excused k more ∧
      (∀ x rest, more = x :: rest → ∃ res, x = .ran k res) ∧
        ∀ st rest, todo = st :: rest →
          (st.breaker = none ∨ (r.ask tape).refused = none) → more ≠ [] := by
  induction todo generalizing k r with
  | nil =>
    refine ⟨[], by simp [Run.forward], .inl (by simp), ?_, ?_⟩
    · intro x rest hx
      cases hx
    · intro st rest hst
      cases hst
  | cons st rest ih =>
    have hcalled : Called (.ran k) r (r.call tape st (.ran k)).1 (r.call tape st (.ran k)).2 :=
      called_call
    have htried : (st.breaker = none ∨ (r.ask tape).refused = none) →
        r.events.length < (r.call tape st (.ran k)).1.events.length := length_lt_call
    have hreturned : ∀ e, (r.call tape st (.ran k)).2 = some e → e.isPermanent = true →
        ∃ err, err.isPermanent = true ∧ Returned (.ran k) err r (r.call tape st (.ran k)).1 :=
      fun e hres hperm => returned_call hrefusing hres hperm
    obtain ⟨new, hnew, hran, hsome⟩ := hcalled.ran_only
    have hfirst : ∀ more x l, (new = [] → more = []) → new ++ more = x :: l →
        ∃ res, x = .ran k res := by
      intro more x l hempty hx
      cases new with
      | nil => rw [hempty rfl] at hx; cases hx
      | cons y new =>
        cases hx
        exact hran _ mem_cons_self
    have hlet : (st.breaker = none ∨ (r.ask tape).refused = none) → new ≠ [] := by
      rintro hlet rfl
      have hlt := htried hlet
      rw [hnew, append_nil] at hlt
      exact lt_irrefl _ hlt
    simp only [Run.forward]
    rcases hcall : r.call tape st (.ran k) with ⟨r₁, err⟩
    rw [hcall] at hnew hreturned hsome
    cases err with
    | some e =>
      have hmem : e.isPermanent = true →
          ∃ err, err.isPermanent = true ∧ .ran k (some err) ∈ new := by
        intro hperm
        obtain ⟨err, herr, new', hnew', hmem⟩ := hreturned e rfl hperm
        rw [append_cancel_left (hnew.symm.trans hnew')]
        exact ⟨err, herr, hmem⟩
      obtain ⟨more, hmore, hexcused, hempty⟩ :=
        failed_excused tape p st hnew hran hmem
      refine ⟨new ++ more, hmore, hexcused, fun x l => hfirst more x l hempty, ?_⟩
      rintro st' rest' ⟨⟩ hopen
      simp [hlet hopen]
    | none =>
      have hne : new ≠ [] := hsome rfl
      have hforward : ∀ j err, .undid j err ∉ new := by
        intro j err hmem
        obtain ⟨res, hx⟩ := hran _ hmem
        cases hx
      obtain ⟨s, hs, hquiet⟩ := save_events tape (r₁.next.completed st (r₁.ask tape).now)
      simp only
      rcases hsave : (r₁.next.completed st (r₁.ask tape).now).save tape with ⟨r₂, err⟩
      rw [hsave] at hs
      have hev : r₂.events = r.events ++ (new ++ s) := by
        rw [← append_assoc, ← hnew]
        exact hs
      have hpre : ∀ j err, .undid j err ∉ new ++ s := by
        intro j err hmem
        rcases mem_append.mp hmem with hmem | hmem
        · exact hforward j err hmem
        · exact hquiet j err hmem
      cases err with
      | some e =>
        refine ⟨new ++ s, hev, .inl hpre, fun x l => hfirst s x l ?_, ?_⟩
        · exact fun hnil => absurd hnil hne
        · rintro st' rest' ⟨⟩ -
          simp [hne]
      | none =>
        obtain ⟨more, hmore, hexcused, -⟩ := ih (k + 1) r₂
        refine ⟨new ++ s ++ more, ?_, hexcused.behind hpre (Nat.le_succ k), ?_, ?_⟩
        · simp only
          rw [hmore, hev, append_assoc]
        · intro x l hx
          rw [append_assoc] at hx
          exact hfirst (s ++ more) x l (fun hnil => absurd hnil hne) hx
        · rintro st' rest' ⟨⟩ -
          simp [hne]

theorem Excused.before {pre post ev : List Event} {j : Nat} {err : Option Err} (h : Excused k ev)
    (hev : ev = pre ++ .undid j err :: post) :
    ∃ l e, k ≤ l ∧ .ran l (some e) ∈ pre ∧ e.isPermanent = true := by
  rcases h with hnone | ⟨a, b, l, e, rfl, ha, hl, hmem, hperm⟩
  · refine absurd ?_ (hnone j err)
    rw [hev]
    simp
  · refine ⟨l, e, hl, ?_, hperm⟩
    -- `a` ends before the first step is undone
    rcases append_eq_append_iff.mp hev with ⟨c, rfl, -⟩ | ⟨c, rfl, hc⟩
    · exact mem_append_left _ hmem
    · rcases mem_append.mp hmem with hmem | hmem
      · exact hmem
      · cases c with
        | nil => cases hmem
        | cons x c =>
          cases hc
          exact absurd (mem_append_right _ mem_cons_self) (ha j err)

end Forward

section Resuming

end Resuming

end Pipe
end GoGuard
