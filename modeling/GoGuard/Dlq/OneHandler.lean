import GoGuard.Dlq.CrashRecovery
import GoGuard.Dlq.LeaseCalls

/-!
# A redriver handles a record once at a time

A record is entered into `active` before it is counted in `inflight` and sent to the
workers, and leaves both when its worker is done.  `Hands` relates the set and the counter
to the dispatch loop and the workers at every step; the room a `Lease` asks for is there
when its records are sent.  `Fenced` says that the store still holds every lease the
dispatch loop has in hand, since nobody else knows its token: so a record that is offered
while a worker still has it is given back as it was.
-/

namespace GoGuard
namespace Dlq

open Lib Machine List

section Counting

/-- The identifier of the lease is in `active`. -/
def JobPhase.listed : JobPhase → Bool
  | .cleared | .gone => false
  | _ => true

/-- The lease is counted in `inflight`. -/
def JobPhase.counted : JobPhase → Bool
  | .gone => false
  | _ => true

/-- The lease that was entered into `active` and is not sent yet. -/
def Dispatch.taken : Dispatch → List Lease
  | .counting l _ | .sending l _ => [l]
  | _ => []

/-- The lease that is in `active` and not yet counted. -/
def Dispatch.uncounted : Dispatch → Nat
  | .counting _ _ => 1
  | _ => 0

/-- The lease that is counted and not yet sent. -/
def Dispatch.unsent : Dispatch → Nat
  | .sending _ _ => 1
  | _ => 0

/-- The places in the channel that the leases in hand, or those asked for, still need. -/
def Dispatch.claims : Dispatch → Nat
  | .idle => 0
  | .selected n | .committing n => n
  | .waiting leases _ | .handing leases => leases.length
  | .counting _ rest => rest.length + 1
  | .sending _ rest | .releasing _ rest => rest.length

/-- The record of a job of this redriver, while it is in `active`. -/
def Redriver.label (r : Redriver) (j : Job) : Option Bytes :=
  if j.inst = r.inst ∧ j.phase.listed = true then some j.lease.id else none

/-- The records queued or handled. -/
def Redriver.handled (r : Redriver) : List Bytes :=
  r.dispatch.taken.map Lease.id ++ r.jobs.filterMap r.label

/-- The job is one of this redriver, between the two updates of `inflight`. -/
def Redriver.counts (r : Redriver) (j : Job) : Bool :=
  j.inst = r.inst && j.phase.counted

/-- The leases between the two updates of `inflight`. -/
def Redriver.counted (r : Redriver) : Nat :=
  r.dispatch.unsent + r.jobs.countP r.counts

/-- The workers between `active.Delete` and `inflight.Add(-1)`. -/
def Redriver.clearing (r : Redriver) : Nat :=
  r.jobs.countP fun j => j.inst = r.inst && j.phase = .cleared

/-- What `active` and `inflight` have to do with the dispatch loop and the workers. -/
structure Hands (cap : Int) (r : Redriver) : Prop where
  runs : ∀ j ∈ r.jobs, j.inst ≤ r.inst ∧ j.run ≤ r.run ∧ (j.run = r.run → j.inst = r.inst)
  active : r.active.Perm r.handled
  once : r.handled.Nodup
  inflight : r.inflight = r.counted
  room : r.inflight + r.dispatch.claims ≤ cap

variable {cap : Int} {r r' : Redriver}

/-- A worker took a job from one phase to the next. -/
structure Redriver.Moved (r r' : Redriver) (i : Nat) (j : Job) (phase : JobPhase) : Prop where
  jobs : r'.jobs = r.jobs.set i { j with phase := phase }
  dispatch : r'.dispatch = r.dispatch
  inst : r'.inst = r.inst
  run : r'.run = r.run
  used : r'.used = r.used

/-- The set and the counter are as they were. -/
structure Redriver.Kept (r r' : Redriver) (i : Nat) (j : Job) (phase : JobPhase) : Prop
    extends r.Moved r' i j phase where
  active : r'.active = r.active
  inflight : r'.inflight = r.inflight

theorem hands_initial (hcap : 0 ≤ cap) : Hands cap .initial := by
  have hjobs : ∀ j, j ∉ Redriver.initial.jobs := fun j hj => nomatch hj
  have hroom : Redriver.initial.inflight + Redriver.initial.dispatch.claims ≤ cap := by
    simpa [Redriver.initial, Dispatch.claims] using hcap
  exact ⟨fun j hj => absurd hj (hjobs j), List.Perm.refl _, nodup_nil, rfl, hroom⟩

theorem Hands.of_handled (h : Hands cap r) (hactive : r'.active = r.active)
    (hhandled : r'.handled = r.handled)
    (hruns : ∀ j ∈ r'.jobs, j.inst ≤ r'.inst ∧ j.run ≤ r'.run ∧ (j.run = r'.run → j.inst = r'.inst))
    (hinflight : r'.inflight = r'.counted) (hroom : r'.inflight + r'.dispatch.claims ≤ cap) :
    Hands cap r' := by
  refine ⟨hruns, ?_, hhandled ▸ h.once, hinflight, hroom⟩
  rw [hactive, hhandled]
  exact h.active

theorem Redriver.label_eq (hinst : r'.inst = r.inst) : r'.label = r.label := by
  unfold Redriver.label
  rw [hinst]

theorem Redriver.counts_eq (hinst : r'.inst = r.inst) : r'.counts = r.counts := by
  unfold Redriver.counts
  rw [hinst]

variable {i : Nat} {j : Job} {phase : JobPhase} {l : Lease} {rest : List Lease}

theorem Hands.runs_moved (h : Hands cap r) (hj : r.jobs[i]? = some j) (hm : r.Moved r' i j phase) :
    ∀ j ∈ r'.jobs, j.inst ≤ r'.inst ∧ j.run ≤ r'.run ∧ (j.run = r'.run → j.inst = r'.inst) := by
  intro x hx
  rw [hm.jobs] at hx
  rw [hm.inst, hm.run]
  rcases mem_or_eq_of_mem_set hx with hx | rfl
  · exact h.runs x hx
  · exact h.runs j (mem_of_getElem? hj)

theorem Redriver.Moved.handled (hm : r.Moved r' i j phase) (hj : r.jobs[i]? = some j)
    (hsame : r.label { j with phase := phase } = r.label j) : r'.handled = r.handled := by
  unfold Redriver.handled
  rw [hm.dispatch, hm.jobs, Redriver.label_eq hm.inst, filterMap_set_same hj hsame]

theorem Redriver.Moved.counted (hm : r.Moved r' i j phase) (hj : r.jobs[i]? = some j)
    (hsame : phase.counted = j.phase.counted) : r'.counted = r.counted := by
  have hset := countP_set r.counts { j with phase := phase } hj
  have hcounts : r.counts { j with phase := phase } = r.counts j := by
    unfold Redriver.counts
    rw [hsame]
  rw [hcounts] at hset
  unfold Redriver.counted
  rw [hm.dispatch, hm.jobs, Redriver.counts_eq hm.inst]
  omega

theorem Hands.moved (h : Hands cap r) (hj : r.jobs[i]? = some j) (hk : r.Kept r' i j phase)
    (hlisted : phase.listed = j.phase.listed) (hcounted : phase.counted = j.phase.counted) :
    Hands cap r' := by
  have hm := hk.toMoved
  have hhandled : r'.handled = r.handled := by
    refine hm.handled hj ?_
    simp only [Redriver.label, hlisted]
  refine h.of_handled hk.active hhandled (h.runs_moved hj hm) ?_ ?_
  · rw [hk.inflight, hm.counted hj hcounted]
    exact h.inflight
  · rw [hk.inflight, hm.dispatch]
    exact h.room

theorem Hands.clear (h : Hands cap r) (hj : r.jobs[i]? = some j) (hat : j.phase = .settled) :
    Hands cap (r.clear i j) := by
  have hm : r.Moved (r.clear i j) i j .cleared := ⟨rfl, rfl, rfl, rfl, rfl⟩
  have hinflight : (r.clear i j).inflight = (r.clear i j).counted := by
    rw [hm.counted hj (by rw [hat]; rfl)]
    exact h.inflight
  by_cases hinst : j.inst = r.inst
  · -- the identifier leaves the list of the records in hand
    have hperm : r.handled.Perm (j.lease.id :: (r.clear i j).handled) := by
      have hset := filterMap_set_none (f := r.label) (y := { j with phase := .cleared }) hj
        (if_pos ⟨hinst, by rw [hat]; rfl⟩) (if_neg fun hl => nomatch hl.2)
      exact (hset.append_left _).trans perm_middle
    obtain ⟨hnew, honce⟩ := nodup_cons.mp (hperm.nodup_iff.mp h.once)
    have hactive : (r.clear i j).active = r.active.filter (· ≠ j.lease.id) := if_pos hinst
    refine ⟨h.runs_moved hj hm, ?_, honce, hinflight, h.room⟩
    rw [hactive]
    refine ((h.active.trans hperm).filter _).trans ?_
    rw [filter_cons_of_neg (by simp), filter_eq_self.mpr]
    intro id hid
    have hne : id ≠ j.lease.id := fun heq => hnew (heq ▸ hid)
    simpa using hne
  · -- a worker of an older redriver
    have hhandled : (r.clear i j).handled = r.handled := by
      refine hm.handled hj ?_
      rw [Redriver.label, Redriver.label, if_neg fun hl => hinst hl.1, if_neg fun hl => hinst hl.1]
    have hactive : (r.clear i j).active = r.active := if_neg hinst
    exact h.of_handled hactive hhandled (h.runs_moved hj hm) hinflight h.room

theorem Hands.lower (h : Hands cap r) (hj : r.jobs[i]? = some j) (hat : j.phase = .cleared) :
    Hands cap (r.lower i j) := by
  have hm : r.Moved (r.lower i j) i j .gone := ⟨rfl, rfl, rfl, rfl, rfl⟩
  have hhandled : (r.lower i j).handled = r.handled := by
    have hnew : r.label { j with phase := .gone } = none := if_neg fun hl => nomatch hl.2
    have hold : r.label j = none := by
      unfold Redriver.label
      rw [hat]
      exact if_neg fun hl => nomatch hl.2
    exact hm.handled hj (hnew.trans hold.symm)
  have hcount : (r.lower i j).counted + (decide (j.inst = r.inst)).toNat = r.counted := by
    have hset := countP_set r.counts { j with phase := .gone } hj
    have hgone : r.counts { j with phase := .gone } = false := Bool.and_false _
    have hcleared : r.counts j = decide (j.inst = r.inst) := by
      unfold Redriver.counts
      rw [hat]
      exact Bool.and_true _
    rw [hgone, hcleared, Bool.toNat_false] at hset
    change r.dispatch.unsent + (r.jobs.set i { j with phase := .gone }).countP r.counts + _ =
      r.dispatch.unsent + r.jobs.countP r.counts
    omega
  have hinflight : (r.lower i j).inflight = (r.lower i j).counted := by
    have hold := h.inflight
    by_cases hinst : j.inst = r.inst
    · have hless : (r.lower i j).inflight = r.inflight - 1 := if_pos hinst
      rw [decide_eq_true hinst] at hcount
      simp only [Bool.toNat_true] at hcount
      omega
    · have hsame : (r.lower i j).inflight = r.inflight := if_neg hinst
      rw [decide_eq_false hinst] at hcount
      simp only [Bool.toNat_false] at hcount
      omega
  refine h.of_handled rfl hhandled (h.runs_moved hj hm) hinflight ?_
  have hroom := h.room
  have hold := h.inflight
  change (r.lower i j).inflight + r.dispatch.claims ≤ cap
  omega

theorem Hands.redispatch {d : Dispatch} (h : Hands cap r) (htaken : d.taken = r.dispatch.taken)
    (hunsent : d.unsent = r.dispatch.unsent) (hroom : r.inflight + d.claims ≤ cap) :
    Hands cap { r with dispatch := d } := by
  have hhandled : ({ r with dispatch := d } : Redriver).handled = r.handled := by
    unfold Redriver.handled
    rw [htaken]
    rfl
  refine h.of_handled rfl hhandled h.runs ?_ hroom
  unfold Redriver.counted
  rw [hunsent]
  exact h.inflight

theorem hand_cases (r : Redriver) (leases : List Lease) :
    (leases = [] ∧ r.hand leases = { r with dispatch := .idle }) ∨
      ∃ l rest, leases = l :: rest ∧
        ((l.id ∈ r.active ∧ r.hand leases = { r with dispatch := .releasing l rest }) ∨
          (l.id ∉ r.active ∧ r.hand leases =
            { r with active := l.id :: r.active, dispatch := .counting l rest })) := by
  cases leases with
  | nil => exact .inl ⟨rfl, rfl⟩
  | cons l rest =>
    refine .inr ⟨l, rest, rfl, ?_⟩
    by_cases hbusy : l.id ∈ r.active
    · exact .inl ⟨hbusy, if_pos hbusy⟩
    · exact .inr ⟨hbusy, if_neg hbusy⟩

theorem Hands.hand {leases : List Lease} (h : Hands cap r) (hat : r.dispatch = .handing leases) :
    Hands cap (r.hand leases) := by
  have hroom := h.room
  have htaken : r.dispatch.taken = [] := by rw [hat]; rfl
  have hunsent : r.dispatch.unsent = 0 := by rw [hat]; rfl
  rw [hat] at hroom
  rcases hand_cases r leases with ⟨rfl, hhand⟩ | ⟨l, rest, rfl, ⟨-, hhand⟩ | ⟨hfree, hhand⟩⟩
  · rw [hhand]
    exact h.redispatch htaken.symm hunsent.symm hroom
  · rw [hhand]
    refine h.redispatch htaken.symm hunsent.symm ?_
    simp only [Dispatch.claims, length_cons] at hroom ⊢
    omega
  · have hhandled : r.handled = r.jobs.filterMap r.label := by
      unfold Redriver.handled
      rw [htaken]
      rfl
    rw [hhand]
    refine ⟨h.runs, ?_, ?_, ?_, hroom⟩
    · refine (h.active.cons l.id).trans ?_
      rw [hhandled]
      exact List.Perm.refl _
    · refine nodup_cons.mpr ⟨?_, ?_⟩
      · intro hmem
        exact hfree (h.active.mem_iff.mpr (hhandled ▸ hmem))
      · exact hhandled ▸ h.once
    · have hold := h.inflight
      unfold Redriver.counted at hold ⊢
      rw [hunsent] at hold
      exact hold

theorem Hands.count (h : Hands cap r) (hat : r.dispatch = .counting l rest) :
    Hands cap { r with inflight := r.inflight + 1, dispatch := .sending l rest } := by
  have hroom := h.room
  have hold := h.inflight
  have hhandled : ({ r with
      inflight := r.inflight + 1, dispatch := .sending l rest } : Redriver).handled =
        r.handled := by
    unfold Redriver.handled
    rw [hat]
    rfl
  unfold Redriver.counted at hold
  rw [hat] at hroom hold
  simp only [Dispatch.claims, Dispatch.unsent] at hroom hold
  refine h.of_handled rfl hhandled h.runs ?_ ?_
  · change r.inflight + 1 = ((1 + r.jobs.countP r.counts : Nat) : Int)
    omega
  · change r.inflight + 1 + (rest.length : Int) ≤ cap
    omega

theorem Hands.send (h : Hands cap r) (hat : r.dispatch = .sending l rest) :
    Hands cap (r.send l rest) := by
  have hroom := h.room
  have hold := h.inflight
  have hperm : r.handled.Perm (r.send l rest).handled := by
    have hold : r.handled = l.id :: r.jobs.filterMap r.label := by
      unfold Redriver.handled
      rw [hat]
      rfl
    have hlast : r.label ⟨l, r.inst, r.run, .queued⟩ = some l.id := if_pos ⟨rfl, rfl⟩
    have hsent : (r.send l rest).handled = r.jobs.filterMap r.label ++ [l.id] := by
      change (r.jobs ++ [(⟨l, r.inst, r.run, .queued⟩ : Job)]).filterMap r.label = _
      rw [filterMap_append, filterMap_cons, hlast]
      rfl
    rw [hsent, hold]
    exact (perm_append_singleton l.id _).symm
  unfold Redriver.counted at hold
  rw [hat] at hroom hold
  simp only [Dispatch.claims, Dispatch.unsent] at hroom hold
  refine ⟨?_, h.active.trans hperm, hperm.nodup_iff.mp h.once, ?_, hroom⟩
  · intro j hj
    rcases mem_append.mp hj with hj | hj
    · exact h.runs j hj
    · rw [mem_singleton.mp hj]
      exact ⟨le_refl _, le_refl _, fun _ => rfl⟩
  · have hnew : (r.send l rest).counted = r.jobs.countP r.counts + 1 := by
      have hlast : r.counts ⟨l, r.inst, r.run, .queued⟩ = true := by
        simp [Redriver.counts, JobPhase.counted]
      change 0 + (r.jobs ++ [(⟨l, r.inst, r.run, .queued⟩ : Job)]).countP r.counts = _
      rw [countP_append, countP_singleton, if_pos hlast]
      omega
    change r.inflight = _
    omega

theorem Hands.start (h : Hands cap r) (hcap : 0 ≤ cap) (hidle : r.dispatch = .idle) (fresh : Bool) :
    Hands cap (r.start fresh) := by
  have hruns : ∀ inst ≥ r.inst, ∀ j ∈ r.jobs,
      j.inst ≤ inst ∧ j.run ≤ r.run + 1 ∧ (j.run = r.run + 1 → j.inst = inst) := by
    intro inst hge j hj
    obtain ⟨hinst, hrun, -⟩ := h.runs j hj
    exact ⟨hinst.trans hge, Nat.le_succ_of_le hrun, fun heq => by omega⟩
  cases fresh with
  | false => exact ⟨hruns _ le_rfl, h.active, h.once, h.inflight, h.room⟩
  | true =>
    -- the jobs are those of the redrivers before it
    have hother : ∀ j ∈ r.jobs, j.inst ≠ r.inst + 1 := by
      intro j hj heq
      have hle := (h.runs j hj).1
      omega
    have hhandled : (r.start true).handled = [] := by
      change r.dispatch.taken.map Lease.id ++ r.jobs.filterMap (r.start true).label = []
      rw [hidle]
      refine filterMap_eq_nil_iff.mpr ?_
      exact fun j hj => if_neg fun hl => hother j hj hl.1
    have hcounted : (r.start true).counted = 0 := by
      change r.dispatch.unsent + r.jobs.countP (r.start true).counts = 0
      rw [hidle]
      refine (Nat.zero_add _).trans (countP_eq_zero.mpr ?_)
      intro j hj hcounts
      exact hother j hj (of_decide_eq_true (Bool.and_eq_true_iff.mp hcounts).1)
    refine ⟨hruns _ (Nat.le_succ _), ?_, hhandled ▸ nodup_nil, ?_, ?_⟩
    · rw [hhandled]
      exact List.Perm.refl _
    · rw [hcounted]
      rfl
    · change (0 : Int) + r.dispatch.claims ≤ cap
      rw [hidle]
      simpa [Dispatch.claims] using hcap

end Counting

section Tokens

/-- The leases the dispatch loop has in hand. -/
def Dispatch.leases : Dispatch → List Lease
  | .waiting leases _ | .handing leases => leases
  | .counting l rest | .sending l rest | .releasing l rest => l :: rest
  | _ => []

/-- Every lease has a token of its own, and a worker shows that of its lease. -/
structure TokensOk (r : Redriver) : Prop where
  distinct : ((r.dispatch.leases ++ r.jobs.map Job.lease).map Lease.token).Nodup
  used : ∀ l ∈ r.dispatch.leases ++ r.jobs.map Job.lease, l.token ∈ r.used
  shown : ∀ j ∈ r.jobs, ∀ x, j.phase = .settling x →
    x.call.fence = some (j.lease.id, j.lease.token)

variable {r r' : Redriver} {cfg : RedriveConfig}

theorem tokensOk_initial : TokensOk .initial :=
  ⟨nodup_nil, fun _ hl => (nomatch hl), fun _ hj => (nomatch hj)⟩

theorem block_fence (l : Lease) (dep : Bytes) (refund : Bool) (text : Bytes) :
    (block cfg l dep refund text).call.fence = some (l.id, l.token) := by
  unfold block
  split <;> rfl

theorem settle_fence (ended : Bool) (l : Lease) (out : Outcome) (text : Bytes) :
    (settle cfg ended l out text).call.fence = some (l.id, l.token) := by
  cases out with
  | ok => rfl
  | blocked dep refund => exact block_fence l _ refund text
  | opened name => exact block_fence l _ true text
  | permanent => rfl
  | failed =>
    unfold settle
    simp only
    split
    · rfl
    · split <;> rfl

variable {j : Job} {i : Nat} {phase : JobPhase}

/-- What `process` does before the handler is called shows the token as well. -/
theorem process_fence {x : Settlement} (hx : r.process cfg j = .settling x) :
    x.call.fence = some (j.lease.id, j.lease.token) := by
  unfold Redriver.process at hx
  split at hx
  · cases hx
    rfl
  · split at hx
    · cases hx
      rfl
    · cases hx

theorem kept_begin (r : Redriver) (i : Nat) (j : Job) :
    r.Kept (r.begin cfg i j) i j (r.process cfg j) := by
  unfold Redriver.begin
  split
  · next hrunning =>
    rw [hrunning]
    exact ⟨⟨rfl, rfl, rfl, rfl, rfl⟩, rfl, rfl⟩
  · exact ⟨⟨rfl, rfl, rfl, rfl, rfl⟩, rfl, rfl⟩

theorem kept_confirm (r : Redriver) (i : Nat) (j : Job) (x : Settlement) (now : Time) :
    r.Kept (r.confirm cfg i j x now) i j .settled := by
  unfold Redriver.confirm Redriver.holdDependency
  split <;> exact ⟨⟨rfl, rfl, rfl, rfl, rfl⟩, rfl, rfl⟩

theorem kept_posted (s : Redrive) (i : Nat) (j : Job) (x : Settlement) (w : Wal) :
    s.r.Kept (s.posted i j x w) i j
      (if s.logged w then .waiting x w.log.length else .settled) := by
  unfold Redrive.posted
  split <;> exact ⟨⟨rfl, rfl, rfl, rfl, rfl⟩, rfl, rfl⟩

theorem Redriver.Moved.leases (hm : r.Moved r' i j phase) (hj : r.jobs[i]? = some j) :
    r'.jobs.map Job.lease = r.jobs.map Job.lease := by
  rw [hm.jobs, ← filterMap_eq_map]
  exact filterMap_set_same hj rfl

theorem TokensOk.moved (h : TokensOk r) (hj : r.jobs[i]? = some j) (hm : r.Moved r' i j phase)
    (hshown : ∀ x, phase = .settling x → x.call.fence = some (j.lease.id, j.lease.token)) :
    TokensOk r' := by
  refine ⟨?_, ?_, ?_⟩
  · rw [hm.dispatch, hm.leases hj]
    exact h.distinct
  · rw [hm.dispatch, hm.leases hj, hm.used]
    exact h.used
  · intro k hk x hx
    rw [hm.jobs] at hk
    rcases mem_or_eq_of_mem_set hk with hk | rfl
    · exact h.shown k hk x hx
    · exact hshown x hx

theorem TokensOk.redispatch (h : TokensOk r) (hjobs : r'.jobs = r.jobs) (hused : r'.used = r.used)
    (hsub : r'.dispatch.leases.Sublist r.dispatch.leases) : TokensOk r' := by
  have hall : (r'.dispatch.leases ++ r'.jobs.map Job.lease).Sublist
      (r.dispatch.leases ++ r.jobs.map Job.lease) := by
    rw [hjobs]
    exact hsub.append_right _
  refine ⟨h.distinct.sublist (hall.map _), ?_, ?_⟩
  · intro l hl
    rw [hused]
    exact h.used l (hall.subset hl)
  · rw [hjobs]
    exact h.shown

theorem TokensOk.send {l : Lease} {rest : List Lease} (h : TokensOk r)
    (hat : r.dispatch = .sending l rest) : TokensOk (r.send l rest) := by
  have hperm : ((r.send l rest).dispatch.leases ++ (r.send l rest).jobs.map Job.lease).Perm
      (r.dispatch.leases ++ r.jobs.map Job.lease) := by
    change (rest ++ (r.jobs ++ [(⟨l, r.inst, r.run, .queued⟩ : Job)]).map Job.lease).Perm _
    rw [hat, map_append, ← append_assoc]
    exact perm_append_singleton l _
  refine ⟨(hperm.map _).nodup_iff.mpr h.distinct, ?_, ?_⟩
  · exact fun x hx => h.used x (hperm.mem_iff.mp hx)
  · intro j hj x hx
    rcases mem_append.mp hj with hj | hj
    · exact h.shown j hj x hx
    · rw [mem_singleton.mp hj] at hx
      cases hx

/-- The leases keep the order of what was picked, by any name both have. -/
theorem leasesOf_map {β : Type} {f : Lease → β} {g : Ptr × Bytes → β} {m m' : Machine} {n : Nat}
    (hname : ∀ x old it, m'.items.get x.1.id = some it →
      f ⟨it.record.id, x.2, it.record.attempts, it.record.blockedOn, old, n⟩ = g x)
    (picked : List (Ptr × Bytes)) :
    ((leasesOf m m' n picked).map f).Sublist (picked.map g) := by
  induction picked with
  | nil => exact List.Sublist.refl _
  | cons x picked ih =>
    unfold leasesOf at ih ⊢
    rw [filterMap_cons, map_cons]
    split
    · exact ih.cons _
    · next l hl =>
      have hl' : f l = g x := by
        split at hl
        · next old it hold hit =>
          cases hl
          exact hname x _ it hit
        · cases hl
      rw [map_cons, hl']
      exact ih.cons_cons _

theorem TokensOk.granted {tokens : List Bytes} {leases : List Lease} {lsn : Nat} (h : TokensOk r)
    (hfresh : freshTokens r.used tokens = true) (hsub : (leases.map Lease.token).Sublist tokens) :
    TokensOk { r with dispatch := .waiting leases lsn, used := tokens ++ r.used } := by
  unfold freshTokens at hfresh
  simp only [Bool.and_eq_true, decide_eq_true_eq, all_eq_true] at hfresh
  obtain ⟨hnodup, hnew⟩ := hfresh
  have hjobs : ∀ l ∈ r.jobs.map Job.lease, l.token ∈ r.used := fun l hl =>
    h.used l (mem_append_right _ hl)
  refine ⟨?_, ?_, h.shown⟩
  · rw [map_append]
    refine nodup_append.mpr ⟨hnodup.sublist hsub, ?_, ?_⟩
    · have hold := h.distinct
      rw [map_append] at hold
      exact (nodup_append.mp hold).2.1
    · rintro t ht t' ht' rfl
      obtain ⟨l, hl, rfl⟩ := mem_map.mp ht'
      exact (hnew _ (hsub.subset ht)).2 (hjobs l hl)
  · intro l hl
    rcases mem_append.mp hl with hl | hl
    · exact mem_append_left _ (hsub.subset (mem_map_of_mem hl))
    · exact mem_append_right _ (hjobs l hl)

end Tokens

section Store

/-- Where the `Lease` of the dispatch loop stands in the store. -/
def Dispatch.Leasing (d : Dispatch) (c : Core) : Prop :=
  match d with
  | .selected n =>
    c.commit = none ∧ ∃ x, c.picked = [x] ∧ x.cands.length ≤ n ∧
      (x.cands.map fun y => y.ptr.id).Nodup
  | .committing n =>
    c.picked = [] ∧ ∃ x, c.commit = some x ∧ x.good.length ≤ n ∧ (x.good.map Ptr.id).Nodup
  | _ => c.picked = [] ∧ c.commit = none

/-- The store holds the lease, and can log its release. -/
structure Lease.Standing (m : Machine) (l : Lease) : Prop where
  granted : m.Grants l
  token : l.token ≠ []
  attempts : l.attempts = l.before + 1
  body : (Entry.release l.id).body.length ≤ maxEntryBytes

/-- The store as the dispatch loop knows it. -/
structure StoreOk (d : Dispatch) (c : Core) : Prop where
  core : CoreOk c
  leasing : d.Leasing c
  held : ∀ l ∈ d.leases, l.Standing c.m

variable {o : WalOptions} {d : Dispatch} {w w' : Wal}

theorem Dispatch.Leasing.congr {c c' : Core} (h : d.Leasing c) (hpicked : c'.picked = c.picked)
    (hcommit : c'.commit = c.commit) : d.Leasing c' := by
  unfold Dispatch.Leasing at h ⊢
  rw [hpicked, hcommit]
  exact h

variable {now : Time} {n lsn : Nat} {reads : List ReadResult} {m m' : Machine} {l : Lease}
  {tokens : List Bytes}

theorem StoreOk.call {c : Call} (h : StoreOk d w.core)
    (hstep : w.step o (.core (.call c now)) = some w')
    (hfence : ∀ l ∈ d.leases, c.fence ≠ some (l.id, l.token)) : StoreOk d w'.core := by
  have hindexed := h.core.indexed
  obtain ⟨hidle, ⟨rfl, -⟩ | ⟨e, m, hexec, -, rfl⟩⟩ := Wal.call_cases hindexed hstep
  · exact h
  · have hm : Indexed m := by
      rcases exec_eq_replay hindexed hexec with hout | ⟨x, hout, hlog⟩
      · cases hout
      · cases hout
        exact Indexed.applyLogged hindexed hlog
    refine ⟨?_, h.leasing.congr rfl rfl, ?_⟩
    · simp only [hidle]
      exact coreOk_idle hm w.core.picked
    · intro l hl
      have hl' := h.held l hl
      exact ⟨hl'.granted.exec hindexed hexec (hfence l hl), hl'.token, hl'.attempts, hl'.body⟩

theorem StoreOk.background {a : WalAct} (h : StoreOk d w.core) (hback : a.isBackground = true)
    (hstep : w.step o a = some w') : StoreOk d w'.core := by
  obtain ⟨hcore, hpicked, hcommit, hsame⟩ := Wal.background_cases h.core hback hstep
  refine ⟨hcore, h.leasing.congr hpicked hcommit, ?_⟩
  intro l hl
  have hl' := h.held l hl
  exact ⟨hl'.granted.of_same hsame, hl'.token, hl'.attempts, hl'.body⟩

theorem StoreOk.selected {ord : List Bytes} {req : LeaseRequest} (h : StoreOk .idle w.core)
    (hmax : req.max = n) (hstep : w.step o (.core (.pick ord now req)) = some w') :
    StoreOk (.selected n) w'.core := by
  obtain ⟨hidle, hord, rfl⟩ := Wal.pick_cases hstep
  have hcands : (pickLease w.core.m ord now req).2.map (fun y => y.ptr.id) =
      (w.core.m.selectLease ord now req).2.map Ptr.id := map_map ..
  have hle : (w.core.m.selectLease ord now req).2.length ≤ req.max.toNat :=
    length_selectLease_le hord
  refine ⟨?_, ⟨hidle, ⟨req, (pickLease w.core.m ord now req).2⟩, ?_, ?_, ?_⟩,
    fun _ hl => nomatch hl⟩
  · simp only [hidle]
    exact coreOk_idle (Indexed.pickLease h.core.indexed ord now req) _
  · rw [h.leasing.1]
    rfl
  · rw [hmax] at hle
    simpa [pickLease] using hle
  · rw [hcands]
    exact h.core.indexed.nodup_selectLease hord

theorem candsRead_sublist {cands : List Cand} (hlen : reads.length = cands.length)
    (m : Machine) (now : Time) (x : ReadResult) :
    (candsRead m now cands reads x).Sublist (cands.map Cand.ptr) := by
  have hzip : (cands.zip reads).map (fun y => y.1.ptr) =
      ((cands.zip reads).map Prod.fst).map Cand.ptr := (map_map ..).symm
  refine (filter_sublist.map _).trans ?_
  rw [hzip, map_fst_zip hlen.ge]

theorem StoreOk.committed (h : StoreOk (.selected n) w.core)
    (hstep : w.step o (.core (.commit 0 now reads)) = some w') :
    StoreOk (.committing n) w'.core := by
  obtain ⟨hidle, y, hpicked, hlen, hnodup⟩ := h.leasing
  obtain ⟨x, hx, hreads, rfl⟩ := Wal.commit_cases hstep
  rw [hpicked] at hx
  obtain rfl := Option.some.inj hx
  have hsub := candsRead_sublist hreads (releaseCands w.core.m y.cands) now .ok
  refine ⟨⟨Indexed.releaseCands h.core.indexed y.cands, ?_⟩, ⟨?_, _, rfl, ?_, ?_⟩,
    fun _ hl => nomatch hl⟩
  · intro c hc p hp
    cases hc
    exact hp.elim headPtr_of_candsRead headPtr_of_candsRead
  · rw [hpicked]
    rfl
  · exact (hsub.length_le.trans_eq (length_map _)).trans hlen
  · have hids := hsub.map Ptr.id
    rw [map_map] at hids
    exact hnodup.sublist hids

theorem StoreOk.ended {a : CoreAct} (ha : a = .done ∨ a = .abort)
    (h : StoreOk (.committing n) w.core) (hstep : w.step o (.core a) = some w') :
    StoreOk .idle w'.core := by
  obtain rfl := Wal.closed_cases ha hstep
  exact ⟨coreOk_idle h.core.indexed w.core.picked, ⟨h.leasing.1, rfl⟩, fun _ hl => nomatch hl⟩

theorem StoreOk.gaveUp (h : StoreOk (.selected n) w.core)
    (hstep : w.step o (.core (.giveUp 0)) = some w') : StoreOk .idle w'.core := by
  obtain ⟨hidle, y, hpicked, -⟩ := h.leasing
  have hcore := coreOk_step h.core hstep
  obtain ⟨hpicked', hcommit⟩ := Wal.giveUp_cases hstep
  rw [hpicked] at hpicked'
  exact ⟨hcore, ⟨hpicked', hcommit⟩, fun _ hl => nomatch hl⟩

theorem StoreOk.parkedBad (h : StoreOk (.committing n) w.core)
    (hstep : w.step o (.core .parkBad) = some w') :
    StoreOk (if w'.core.commit.isSome then .committing n else .idle) w'.core := by
  obtain ⟨hpicked, x, hx, hlen, hnodup⟩ := h.leasing
  have hcore := coreOk_step h.core hstep
  obtain ⟨hpicked', hnone | ⟨now, ttl, p, bad, good, hold, hnew⟩⟩ := Wal.parkBad_cases hstep
  · rw [hnone]
    exact ⟨hcore, ⟨hpicked'.trans hpicked, hnone⟩, fun _ hl => nomatch hl⟩
  · rw [hnew]
    cases hx.symm.trans hold
    exact ⟨hcore, ⟨hpicked'.trans hpicked, _, hnew, hlen, hnodup⟩, fun _ hl => nomatch hl⟩

theorem mem_leasesOf {picked : List (Ptr × Bytes)} (hl : l ∈ leasesOf m m' lsn picked) :
    ∃ x ∈ picked, ∃ old it, m.items.get x.1.id = some old ∧ m'.items.get x.1.id = some it ∧
      l = ⟨it.record.id, x.2, it.record.attempts, it.record.blockedOn, old.record.attempts,
        lsn⟩ := by
  obtain ⟨x, hx, hsome⟩ := mem_filterMap.mp hl
  split at hsome
  · next old it hold hit =>
    cases hsome
    exact ⟨x, hx, old, it, hold, hit, rfl⟩
  · cases hsome

/-- The release of a record is no longer than the grant that named it. -/
theorem length_release_le {ids : List Bytes} {id : Bytes} (hid : id ∈ ids) :
    (Entry.release id).body.length ≤ (Entry.lease ids).body.length := by
  obtain ⟨before, after, rfl⟩ := append_of_mem hid
  simp only [Entry.body, flatMap_append, flatMap_cons, length_append]
  omega

theorem standing_of_grant {good : List Ptr} {ttl : Int} (h : Indexed m)
    (hnodup : (good.map Ptr.id).Nodup) (hlen : tokens.length = good.length)
    (htokens : ∀ t ∈ tokens, t ≠ [])
    (hbody : (Entry.lease (good.map Ptr.id)).body.length ≤ maxEntryBytes)
    (hl : l ∈ leasesOf m (m.grant (good.zip tokens) now ttl) lsn (good.zip tokens)) :
    l.Standing (m.grant (good.zip tokens) now ttl) := by
  obtain ⟨x, hx, old, it, hold, hit, rfl⟩ := mem_leasesOf hl
  have hids : ((good.zip tokens).map fun x => x.1.id).Nodup := by
    rw [map_fst_id_zip hlen]
    exact hnodup
  obtain ⟨it', hit', hrecord, htoken⟩ := get_grant h hids hx hold now ttl
  obtain rfl := Option.some.inj (hit.symm.trans hit')
  have hid : it.record.id = x.1.id := by
    rw [hrecord]
    exact (h.live _ old hold).1
  refine ⟨⟨it, ?_, ?_, htoken, rfl⟩, htokens _ (of_mem_zip hx).2, ?_, ?_⟩
  · rw [hid]
    exact hit
  · rw [hrecord]
    rfl
  · rw [hrecord]
    rfl
  · have hnamed : it.record.id ∈ good.map Ptr.id := by
      rw [hid]
      exact mem_map_of_mem (of_mem_zip hx).1
    exact (length_release_le hnamed).trans hbody

/-- The redriver has `leases` from the grant, up to `n`, of the records `ids`. -/
structure Redrive.Grant (n : Nat) (s : Redrive) (tokens : List Bytes) (w : Wal)
    (leases : List Lease) (ids : List Bytes) :
    Prop where
  redriver : s.granted tokens w =
    { s.r with dispatch := .waiting leases (s.wal.log.length + 1), used := tokens ++ s.r.used }
  log : w.log = s.wal.log ++ [.lease ids]
  unique : ids.Nodup
  names : ∀ l ∈ leases, l.id ∈ ids ∧ l.lsn = s.wal.log.length + 1
  once : (leases.map Lease.id).Nodup
  length : leases.length ≤ n
  tokens : (leases.map Lease.token).Sublist tokens
  store : StoreOk (.waiting leases (s.wal.log.length + 1)) w.core

/-- The redriver behind the grant: it has leases, or the `Lease` has failed. -/
theorem granted_cases {s : Redrive} (h : StoreOk (.committing n) s.wal.core)
    (hfresh : freshTokens s.r.used tokens = true)
    (hstep : s.wal.step o (.core (.grant tokens)) = some w') :
    (s.granted tokens w' = { s.r with dispatch := .idle } ∧
        w' = { s.wal with core := { s.wal.core with commit := none } } ∧
          StoreOk .idle w'.core) ∨
      ∃ leases ids, s.Grant n tokens w' leases ids := by
  obtain ⟨hpicked, x, hx, hle, hnodup⟩ := h.leasing
  obtain ⟨now, ttl, good, hcommit, hlen, rfl | ⟨hbody, rfl⟩⟩ := Wal.grant_cases hstep
  · refine .inl ⟨?_, rfl, coreOk_idle h.core.indexed s.wal.core.picked, ⟨hpicked, rfl⟩,
      fun _ hl => nomatch hl⟩
    exact if_neg (by simp [Redrive.logged])
  · have hgood : x.good = good := by
      cases hx.symm.trans hcommit
      rfl
    have hunique : (good.map Ptr.id).Nodup := hgood ▸ hnodup
    have hindexed := h.core.indexed.grant (good.zip tokens) now ttl
    have hgranted : ∀ l ∈ leasesOf s.wal.core.m (s.wal.core.m.grant (good.zip tokens) now ttl)
        (s.wal.log.length + 1) (good.zip tokens),
        l.Standing (s.wal.core.m.grant (good.zip tokens) now ttl) := by
      intro l hl
      refine standing_of_grant h.core.indexed hunique hlen ?_ hbody hl
      intro t ht
      unfold freshTokens at hfresh
      simp only [Bool.and_eq_true, decide_eq_true_eq, all_eq_true] at hfresh
      exact (hfresh.2 t ht).1
    have hids := leasesOf_map (f := Lease.id) (g := fun x => x.1.id) (m := s.wal.core.m)
      (n := s.wal.log.length + 1) (fun x _ it hit => (hindexed.live _ it hit).1) (good.zip tokens)
    rw [map_fst_id_zip hlen] at hids
    have hzip : (good.zip tokens).map Prod.snd = tokens := map_snd_zip hlen.le
    refine .inr ⟨leasesOf s.wal.core.m (s.wal.core.m.grant (good.zip tokens) now ttl)
      (s.wal.log.length + 1) (good.zip tokens), good.map Ptr.id, ?_, rfl, hunique, ?_,
      hunique.sublist hids, ?_, ?_, coreOk_idle hindexed s.wal.core.picked, ⟨hpicked, rfl⟩,
      hgranted⟩
    · have hlsn : (s.wal.write o (.lease (good.map Ptr.id))).log.length =
          s.wal.log.length + 1 := length_append
      unfold Redrive.granted
      rw [if_pos (by simp [Redrive.logged, Wal.write]), hcommit, hlsn]
      rfl
    · intro l hl
      refine ⟨hids.subset (mem_map_of_mem hl), ?_⟩
      obtain ⟨y, -, old, it, -, -, rfl⟩ := mem_leasesOf hl
      rfl
    · refine (length_filterMap_le _ _).trans ?_
      rw [length_zip, hlen, min_self, ← hgood]
      exact hle
    · refine (leasesOf_map (f := Lease.token) (g := Prod.snd) (fun _ _ _ _ => rfl) _).trans ?_
      rw [hzip]

end Store

section Steps

/-- The redriver and its store, at every step. -/
structure Redrive.Ok (cap : Int) (s : Redrive) : Prop where
  hands : Hands cap s.r
  tokens : TokensOk s.r
  store : StoreOk s.r.dispatch s.wal.core

variable {o : WalOptions} {cfg : RedriveConfig} {s s' : Redrive} {a : RedriveAct}

variable {r : Redriver} {j : Job} {d : Dispatch} {cap : Int} {i : Nat} {w : Wal}

theorem TokensOk.other {l : Lease} (h : TokensOk r) (hl : l ∈ r.dispatch.leases) (hj : j ∈ r.jobs) :
    some (j.lease.id, j.lease.token) ≠ some (l.id, l.token) := by
  have hdistinct := h.distinct
  rw [map_append] at hdistinct
  intro heq
  have htoken : l.token = j.lease.token := by
    simp only [Option.some.injEq, Prod.mk.injEq] at heq
    exact heq.2.symm
  exact (nodup_append.mp hdistinct).2.2 _ (mem_map_of_mem hl) _
    (mem_map_of_mem (mem_map_of_mem hj)) htoken

/-- The loop goes on with the leases it has, or fewer, and asks the store for nothing. -/
theorem StoreOk.redispatch {d' : Dispatch} {c : Core} (h : StoreOk d c) (hleasing : d'.Leasing c)
    (hsub : d'.leases.Sublist d.leases) : StoreOk d' c :=
  ⟨h.core, hleasing, fun l hl => h.held l (hsub.subset hl)⟩

theorem Redrive.Ok.hand {leases : List Lease} (h : s.Ok cap)
    (hat : s.r.dispatch = .handing leases) : (⟨s.wal, s.r.hand leases⟩ : Redrive).Ok cap := by
  have hhands := h.hands.hand hat
  have hstore := h.store
  have hidle : s.wal.core.picked = [] ∧ s.wal.core.commit = none := by
    rw [hat] at hstore
    exact hstore.leasing
  have hnext : ∀ d : Dispatch, d.Leasing s.wal.core → d.leases.Sublist leases →
      ∀ active, Hands cap { s.r with active := active, dispatch := d } →
        (⟨s.wal, { s.r with active := active, dispatch := d }⟩ : Redrive).Ok cap := by
    intro d hleasing hsub active hands
    have hsub' : d.leases.Sublist s.r.dispatch.leases := by
      rw [hat]
      exact hsub
    exact ⟨hands, h.tokens.redispatch rfl rfl hsub', hstore.redispatch hleasing hsub'⟩
  rcases hand_cases s.r leases with ⟨rfl, hhand⟩ | ⟨l, rest, rfl, ⟨-, hhand⟩ | ⟨-, hhand⟩⟩
  · rw [hhand] at hhands ⊢
    exact hnext .idle hidle (nil_sublist _) _ hhands
  · rw [hhand] at hhands ⊢
    exact hnext (.releasing l rest) hidle (List.Sublist.refl _) _ hhands
  · rw [hhand] at hhands ⊢
    exact hnext (.counting l rest) hidle (List.Sublist.refl _) _ hhands

/-- A worker moves its job, and calls the store about its own lease only. -/
theorem Redrive.Ok.moved {phase : JobPhase} (h : s.Ok cap) (hj : s.r.jobs[i]? = some j)
    (hk : s.r.Kept r i j phase) (hfrom : j.phase.listed = true) (hto : phase.listed = true)
    (hshown : ∀ x, phase = .settling x → x.call.fence = some (j.lease.id, j.lease.token))
    (hw : StoreOk s.r.dispatch w.core) : (⟨w, r⟩ : Redrive).Ok cap := by
  have hcounted : ∀ p : JobPhase, p.listed = true → p.counted = true := by
    intro p hp
    cases p with
    | gone => cases hp
    | _ => rfl
  refine ⟨?_, h.tokens.moved hj hk.toMoved hshown, hk.dispatch ▸ hw⟩
  exact h.hands.moved hj hk (hto.trans hfrom.symm) ((hcounted _ hto).trans (hcounted _ hfrom).symm)

theorem Redrive.Ok.jobCall {c : Call} {now : Time} (h : s.Ok cap) (hj : s.r.jobs[i]? = some j)
    (hfence : c.fence = some (j.lease.id, j.lease.token))
    (hw : s.wal.step o (.core (.call c now)) = some w) : StoreOk s.r.dispatch w.core := by
  refine h.store.call hw ?_
  intro l hl
  rw [hfence]
  exact h.tokens.other hl (mem_of_getElem? hj)

theorem listed_process (cfg : RedriveConfig) (r : Redriver) (j : Job) :
    (r.process cfg j).listed = true := by
  unfold Redriver.process
  split
  · rfl
  · split <;> rfl

theorem Redrive.Ok.redispatch {d' : Dispatch} {held : GoMap Bytes Time} (h : s.Ok cap)
    (hat : s.r.dispatch = d) (htaken : d'.taken = d.taken) (hunsent : d'.unsent = d.unsent)
    (hroom : d'.claims ≤ d.claims ∨ s.r.inflight + d'.claims ≤ cap)
    (hsub : d'.leases.Sublist d.leases) (hw : StoreOk d s.wal.core → StoreOk d' w.core) :
    (⟨w, { s.r with dispatch := d', blockedUntil := held }⟩ : Redrive).Ok cap := by
  subst hat
  have hold := h.hands.room
  have hhands := h.hands.redispatch htaken hunsent (hroom.elim (fun hle => by omega) id)
  exact ⟨⟨hhands.runs, hhands.active, hhands.once, hhands.inflight, hhands.room⟩,
    h.tokens.redispatch rfl rfl hsub, hw h.store⟩

/-- Every step of the redriver and of its store. -/
theorem Redrive.Ok.step (hcap : 0 ≤ cfg.capacity) (halive : a.isCrash = false)
    (h : s.Ok cfg.capacity) (hstep : s.step o cfg a = some s') : s'.Ok cfg.capacity := by
  have hroom := h.hands.room
  have hstore := h.store
  have hinflight := h.hands.inflight
  cases Redrive.turn_of_step hstep with
  | started hstopped hidle =>
    exact ⟨h.hands.start hcap hidle _, h.tokens.redispatch rfl rfl (List.Sublist.refl _), hstore⟩
  | stopped =>
    obtain ⟨hruns, hactive, honce, -⟩ := h.hands
    exact ⟨⟨hruns, hactive, honce, hinflight, hroom⟩,
      h.tokens.redispatch rfl rfl (List.Sublist.refl _), hstore⟩
  | @client c now w hclient hw =>
    refine ⟨h.hands, h.tokens, hstore.call hw fun l _ hfence => ?_⟩
    cases c with
    | append r => cases hfence
    | requeueWith id o => cases hfence
    | discard id => cases hfence
    | _ => cases hclient
  | background hback hw => exact ⟨h.hands, h.tokens, hstore.background hback hw⟩
  | crashed hw => cases halive
  | selected hat hfree hw =>
    refine h.redispatch hat rfl rfl (.inr ?_) (nil_sublist _) fun hs => hs.selected rfl hw
    simp only [Dispatch.claims]
    omega
  | committed hat hw =>
    exact h.redispatch hat rfl rfl (.inl (le_refl _)) (nil_sublist _) fun hs => hs.committed hw
  | gaveUp hat hw =>
    exact h.redispatch hat rfl rfl (.inl (Nat.zero_le _)) (nil_sublist _) fun hs => hs.gaveUp hw
  | @parkedBad n w hat hw =>
    rw [hat] at hstore
    have hnext := hstore.parkedBad hw
    by_cases hopen : w.core.commit.isSome = true
    · rw [if_pos hopen] at hnext ⊢
      exact h.redispatch hat rfl rfl (.inl (le_refl _)) (nil_sublist _) fun _ => hnext
    · rw [if_neg hopen] at hnext ⊢
      exact h.redispatch hat rfl rfl (.inl (Nat.zero_le _)) (nil_sublist _) fun _ => hnext
  | granted hat hfresh hw =>
    rw [hat] at hstore hroom
    simp only [Dispatch.claims] at hroom
    rcases granted_cases hstore hfresh hw with
      ⟨hr, -, hnext⟩ | ⟨leases, ids, hgrant⟩
    · rw [hr]
      exact h.redispatch hat rfl rfl (.inl (Nat.zero_le _)) (nil_sublist _) fun _ => hnext
    · have hlen := hgrant.length
      rw [hgrant.redriver]
      refine ⟨?_, h.tokens.granted hfresh hgrant.tokens, hgrant.store⟩
      have hclaims : s.r.inflight +
          (Dispatch.waiting leases (s.wal.log.length + 1)).claims ≤ cfg.capacity := by
        simp only [Dispatch.claims]
        omega
      have hhands := h.hands.redispatch (d := .waiting leases (s.wal.log.length + 1))
        (by rw [hat]; rfl) (by rw [hat]; rfl) hclaims
      exact ⟨hhands.runs, hhands.active, hhands.once, hhands.inflight, hhands.room⟩
  | closed hx hat hw =>
    exact h.redispatch hat rfl rfl (.inl (Nat.zero_le _)) (nil_sublist _) fun hs => hs.ended hx hw
  | leased hat hw =>
    refine h.redispatch hat rfl rfl (.inl (le_refl _)) (List.Sublist.refl _) fun hs => ?_
    have hnext := hs.background rfl hw
    exact hnext.redispatch hnext.leasing (List.Sublist.refl _)
  | unconfirmed hat =>
    exact h.redispatch hat rfl rfl (.inl (Nat.zero_le _)) (nil_sublist _) fun hs =>
      hs.redispatch hs.leasing (nil_sublist _)
  | handed hat => exact h.hand hat
  | @counted l rest hat =>
    have hsame : (Dispatch.sending l rest).leases = s.r.dispatch.leases := by rw [hat]; rfl
    rw [hat] at hstore
    exact ⟨h.hands.count hat, h.tokens.redispatch rfl rfl (hsame ▸ List.Sublist.refl _),
      hstore.redispatch hstore.leasing (List.Sublist.refl _)⟩
  | sent hat =>
    rw [hat] at hstore
    exact ⟨h.hands.send hat, h.tokens.send hat,
      hstore.redispatch hstore.leasing (sublist_cons_self _ _)⟩
  | @released l rest now w hat hw =>
    have hdistinct := h.tokens.distinct
    rw [hat] at hdistinct
    refine h.redispatch hat rfl rfl (.inl (le_refl _)) (sublist_cons_self _ _) fun hs => ?_
    have hnext : StoreOk (.handing rest) s.wal.core :=
      hs.redispatch hs.leasing (sublist_cons_self l rest)
    refine hnext.call hw ?_
    -- the tokens of the other leases in hand are other ones
    intro x hx heq
    have htoken : x.token = l.token := by
      simp only [Call.fence, Option.some.injEq, Prod.mk.injEq] at heq
      exact heq.2.symm
    obtain ⟨hnew, -⟩ := nodup_cons.mp hdistinct
    refine hnew (htoken ▸ mem_map_of_mem ?_)
    exact mem_append_left _ hx
  | unreleased hat =>
    exact h.redispatch hat rfl rfl (.inl (le_refl _)) (sublist_cons_self _ _) fun hs =>
      hs.redispatch hs.leasing (sublist_cons_self _ _)
  | received hj hat | unsettled hj hat | failed hj hat =>
    exact h.moved hj ⟨⟨rfl, rfl, rfl, rfl, rfl⟩, rfl, rfl⟩ (by rw [hat]; rfl) rfl
      (fun _ hx => nomatch hx) hstore
  | @begun i j hj hat =>
    exact h.moved hj (kept_begin s.r i j) (by rw [hat]; rfl) (listed_process cfg s.r j)
      (fun _ hx => process_fence hx) hstore
  | checkpointed hj hat hw => exact ⟨h.hands, h.tokens, h.jobCall hj rfl hw⟩
  | returned hj hat =>
    refine h.moved hj ⟨⟨rfl, rfl, rfl, rfl, rfl⟩, rfl, rfl⟩ (by rw [hat]; rfl) rfl ?_ hstore
    intro x hx
    cases hx
    exact settle_fence _ _ _ _
  | @settled i j x now w hj hat hw =>
    have hshown := h.tokens.shown j (mem_of_getElem? hj) x hat
    refine h.moved hj (kept_posted s i j x w) (by rw [hat]; rfl) ?_ ?_ (h.jobCall hj hshown hw)
    · split <;> rfl
    · intro y hy
      split at hy <;> cases hy
  | @confirmed i lsn j x now w hj hat hw =>
    exact h.moved hj (kept_confirm s.r i j x now) (by rw [hat]; rfl) rfl
      (fun _ hx => nomatch hx) (hstore.background rfl hw)
  | cleared hj hat =>
    exact ⟨h.hands.clear hj hat, h.tokens.moved hj ⟨rfl, rfl, rfl, rfl, rfl⟩
      (fun _ hx => nomatch hx), hstore⟩
  | lowered hj hat =>
    exact ⟨h.hands.lower hj hat, h.tokens.moved hj ⟨rfl, rfl, rfl, rfl, rfl⟩
      (fun _ hx => nomatch hx), hstore⟩

end Steps

section Results

variable {o : WalOptions} {cfg : RedriveConfig} {s s' : Redrive}

/-- What is counted is in `active`, but for the two moments in between. -/
theorem counted_add_uncounted (r : Redriver) :
    r.counted + r.dispatch.uncounted = r.handled.length + r.clearing := by
  have hjobs : ∀ jobs : List Job, jobs.countP r.counts =
      (jobs.filterMap r.label).length +
        jobs.countP fun j => j.inst = r.inst && j.phase = .cleared := by
    intro jobs
    induction jobs with
    | nil => rfl
    | cons j jobs ih =>
      rw [countP_cons, countP_cons, filterMap_cons, ih]
      by_cases hinst : j.inst = r.inst
      · cases hphase : j.phase <;>
          simp [Redriver.counts, Redriver.label, JobPhase.counted, JobPhase.listed, hinst,
            hphase] <;> omega
      · simp [Redriver.counts, Redriver.label, hinst]
  have htaken : r.dispatch.taken.length = r.dispatch.uncounted + r.dispatch.unsent := by
    cases r.dispatch <;> rfl
  unfold Redriver.counted Redriver.handled Redriver.clearing
  rw [hjobs, length_append, length_map, htaken]
  omega

/-- A refund takes back what the lease has added. -/
theorem refundAttempt_add_one {n : Int64} (hn : 0 ≤ n) (hmax : n ≠ Int64.maxValue) :
    refundAttempt (n + 1) = n := by
  have hnonneg : 0 ≤ n.toInt := by simpa [Int64.le_iff_toInt_le] using hn
  have hlt := n.toInt_lt
  have hne : n.toInt ≠ 2 ^ 63 - 1 := by
    intro heq
    refine hmax (Int64.toInt_inj.mp ?_)
    rw [heq]
    rfl
  have hone : (1 : Int64).toInt = 1 := rfl
  have hpos : n + 1 > 0 := by
    rw [gt_iff_lt, Int64.lt_iff_toInt_lt, Int64.toInt_add, hone,
      Int.bmod_eq_of_le (by omega) (by omega)]
    change (0 : Int) < _
    omega
  unfold refundAttempt
  rw [if_pos hpos]
  exact Int64.add_sub_cancel n 1

/-- The channel has room for the lease in hand. -/
theorem Hands.queue_lt {cap : Int} {r : Redriver} {l : Lease} {rest : List Lease} (h : Hands cap r)
    (hat : r.dispatch = .sending l rest) : (r.queue : Int) < cap := by
  have hroom := h.room
  have hinflight := h.inflight
  have hle : r.queue ≤ r.jobs.countP r.counts := by
    refine countP_mono_left fun j hj hqueued => ?_
    simp only [Bool.and_eq_true, decide_eq_true_eq] at hqueued
    have hinst := (h.runs j hj).2.2 hqueued.1
    unfold Redriver.counts
    rw [hqueued.2, hinst]
    simp [JobPhase.counted]
  unfold Redriver.counted at hinflight
  rw [hat] at hroom hinflight
  simp only [Dispatch.claims, Dispatch.unsent] at hroom hinflight
  omega

theorem Lease.Standing.release {w w' : Wal} {l : Lease} {now : Time} (h : Indexed w.core.m)
    (hl : l.Standing w.core.m) (hcount : 0 ≤ l.before) (hmax : l.before ≠ Int64.maxValue)
    (hstep : w.step o (.core (.call (.release l.id l.token) now)) = some w') :
    ∃ it, w'.core.m.items.get l.id = some it ∧ it.record.state = .pending ∧
      it.record.attempts = l.before := by
  obtain ⟨it, hit, hleased, htoken, hattempts⟩ := hl.granted
  have hheld : w.core.m.held l.id l.token = .ok it := by
    unfold Machine.held
    rw [hit]
    refine if_neg ?_
    rw [htoken]
    exact fun hbad => hbad.elim (fun hs => hs hleased) fun ht => ht.elim hl.token fun hne => hne rfl
  have hexec : (Call.release l.id l.token).exec o.offload (w.refOf o) w.core.m now =
      .ok (some (.release l.id), w.core.m.applyRelease it) := by
    simp only [Call.exec, withLease, hheld]
  obtain ⟨-, ⟨-, hbig⟩ | ⟨e, m, hexec', -, rfl⟩⟩ := Wal.call_cases h hstep
  · exact absurd hl.body (not_le.mpr (hbig _ _ hexec))
  · cases hexec.symm.trans hexec'
    obtain ⟨it', ht, hrev⟩ := touched_applyRelease (h.get_ptr hit)
    have hid := (h.live _ it hit).1
    refine ⟨it', (ht.get l.id).trans (if_pos hid.symm), ?_, ?_⟩
    · rw [hrev.record]
      rfl
    · rw [hrev.record]
      change refundAttempt it.record.attempts = l.before
      rw [hattempts, hl.attempts]
      exact refundAttempt_add_one hcount hmax

theorem capacity_pos (cfg : RedriveConfig) : 0 < (newRedriver cfg).capacity := by
  unfold RedriveConfig.capacity newRedriver
  simp only
  split <;> omega

theorem redriveOk_new {w : Wal} {cap : Int} (hcap : 0 ≤ cap) (hindexed : Indexed w.core.m)
    (hpicked : w.core.picked = []) (hcommit : w.core.commit = none) : (Redrive.new w).Ok cap := by
  refine ⟨hands_initial hcap, tokensOk_initial, ⟨hindexed, ?_⟩, ⟨hpicked, hcommit⟩,
    fun _ hl => nomatch hl⟩
  intro c hc
  rw [show (Redrive.new w).wal = w from rfl, hcommit] at hc
  cases hc

/-- At every step of a redriver, on a store that was just opened and while its process
lives: no record is in the hands of two handlers, `active` holds the records in hand,
`inflight` is their number up to the one being entered and those being cleared, the
channel never blocks the loop, and a record that is busy is released with the attempts it
had before. -/
theorem handled_once (o : WalOptions) (cfg : RedriveConfig) (w : Wal) (hindexed : Indexed w.core.m)
    (hpicked : w.core.picked = []) (hcommit : w.core.commit = none) (acts : List RedriveAct)
    (halive : ∀ a ∈ acts, a.isCrash = false) (s : Redrive)
    (hrun : run (Redrive.step o (newRedriver cfg)) (.new w) acts = some s) :
    s.r.handled.Nodup ∧ s.r.active.Perm s.r.handled ∧
      s.r.inflight + s.r.dispatch.uncounted = s.r.handled.length + s.r.clearing ∧
        s.r.inflight ≤ (newRedriver cfg).capacity ∧
          (∀ l rest, s.r.dispatch = .sending l rest →
            (s.step o (newRedriver cfg) .send).isSome = true) ∧
            ∀ l rest now s', s.r.dispatch = .releasing l rest →
              s.step o (newRedriver cfg) (.release now) = some s' →
                0 ≤ l.before → l.before ≠ Int64.maxValue →
                  ∃ it, s'.wal.core.m.items.get l.id = some it ∧ it.record.state = .pending ∧
                    it.record.attempts = l.before := by
  have hcap := capacity_pos cfg
  have hok : s.Ok (newRedriver cfg).capacity := by
    have hall := runAll_of_mem (Redrive.step o (newRedriver cfg)) halive (.new w)
    refine run_invariant_of _ ?_ hall (redriveOk_new hcap.le hindexed hpicked hcommit) hrun
    exact fun s a t ha h hstep => h.step hcap.le ha hstep
  obtain ⟨hruns, hactive, honce, hinflight, hroom⟩ := hok.hands
  refine ⟨honce, hactive, ?_, by omega, ?_, ?_⟩
  · have hcount := counted_add_uncounted s.r
    omega
  · intro l rest hat
    have hqueue := hok.hands.queue_lt hat
    simp only [Redrive.step, Redrive.jobOf, Redrive.dispatchStep, hat, if_pos hqueue]
    rfl
  · intro l rest now s' hat hstep hcount hmax
    have hheld : l ∈ s.r.dispatch.leases := by
      rw [hat]
      exact mem_cons_self
    have hl := hok.store.held l hheld
    cases Redrive.turn_of_step hstep with
    | released hat' hw =>
      cases hat.symm.trans hat'
      exact hl.release hok.store.core.indexed hcount hmax hw
    | closed hx hat' hw => cases hat.symm.trans hat'

/-- One worker, and leases that end soon. -/
def hasty : RedriveConfig :=
  ⟨1, 100, 10, 3, fun _ => 5⟩

/-- One `Lease` of a redriver up to its look at `active`. -/
def leaseOne (now : Time) (token : String) : List RedriveAct :=
  [.select 1 [str "db"] now [], .commit now [.ok], .grant [str token], .background .syncStart,
    .background .syncDone, .leased, .hand]

/-- A record is handed to a worker, which calls the handler. -/
def handOver : List RedriveAct :=
  .client (.append (plainRecord "a" (str "v"))) 5 :: .start true ::
    (leaseOne 10 "t").append [.count, .send, .hand, .receive 0, .begin 0]

/-- The lease of the record has ended, and it is offered again. -/
def offeredAgain : List RedriveAct :=
  handOver.append (leaseOne 200 "u")

theorem handled_once_offered_again :
    ∃ s s' it, run (Redrive.step plainOptions (newRedriver hasty)) (.new (.new plainOptions))
        offeredAgain = some s ∧
      s.step plainOptions (newRedriver hasty) (.release 210) = some s' ∧
        s.r.handled.Nodup ∧ s.r.handled = [str "a"] ∧
          s'.wal.core.m.items.get (str "a") = some it ∧ it.record.attempts = 1 := by
  obtain ⟨s, s', hs, hs', hhandled, hreleasing⟩ : ∃ s s', run
      (Redrive.step plainOptions (newRedriver hasty)) (.new (.new plainOptions)) offeredAgain =
        some s ∧ s.step plainOptions (newRedriver hasty) (.release 210) = some s' ∧
          s.r.handled = [str "a"] ∧
            (match s.r.dispatch with
            | .releasing l _ => decide (l.id = str "a" ∧ l.before = 1)
            | _ => false) = true := by
    decide +kernel
  split at hreleasing
  · next l rest hat =>
    have hl := of_decide_eq_true hreleasing
    obtain ⟨honce, -, -, -, -, hreleased⟩ := handled_once plainOptions hasty
      (.new plainOptions) (indexed_new plainOptions.lim) rfl rfl offeredAgain
      (by decide +kernel) s hs
    obtain ⟨it, hit, -, hattempts⟩ := hreleased l rest 210 s' hat hs'
      (by rw [hl.2]; decide) (by rw [hl.2]; decide)
    exact ⟨s, s', it, hs, hs', honce, hhandled, hl.1 ▸ hit, hattempts.trans hl.2⟩
  · cases hreleasing

/-- The worker is done with the record and has taken it out of `active`. -/
def clearedOnly : List RedriveAct :=
  handOver.append [.returned 0 .ok [], .settle 0 20, .background .syncStart,
    .background .syncDone, .confirmed 0 21, .clear 0]

/-- No record is queued or handled, and `inflight` is one. -/
theorem inflight_lags_behind :
    ∃ s, run (Redrive.step plainOptions (newRedriver hasty)) (.new (.new plainOptions))
        clearedOnly = some s ∧
      s.r.handled = [] ∧ s.r.active = [] ∧ s.r.inflight = 1 := by
  decide +kernel

end Results

end Dlq
end GoGuard
