import GoGuard.Dlq.Charges
import GoGuard.Dlq.OneHandler

/-!
# The attempt budget over crashes

The handler calls made for a record, over any number of crashes, against the attempts its
log charges.  A lease is charged by its entry before the handler is called, and is taken
back only by its holder; the holder of a lease is the last one charged.  So the calls that
were not undone are all charged when the last of them is granted, and that grant had no
more than `MaxAttempts`.
-/

namespace GoGuard
namespace Dlq

open Lib Machine Queue List

section Lending

/-- The record is leased under the token. -/
def Machine.Lent (m : Machine) (id token : Bytes) : Prop :=
  ∃ it, m.items.get id = some it ∧ it.record.state = .leased ∧ it.token = token

/-- The leases of a store, as the events that granted them. -/
def leasedTrace (m : Machine) : List LeaseEvent :=
  (m.liveItems.filter fun it => it.record.state = .leased).map fun it => .granted it.ptr it.token

variable {m : Machine} {p : Ptr} {token id : Bytes} {trace more : List LeaseEvent}

theorem issued_or_granted (h : Issued (trace ++ more) p token) :
    .granted p token ∈ more ∨ (.granted p token ∈ trace ∧ ∀ e ∈ more, ¬ e.Revokes p) := by
  obtain ⟨before, after, heq, hafter⟩ := h
  rcases append_eq_append_iff.mp heq with ⟨xs, rfl, hmore⟩ | ⟨xs, htrace, hrest⟩
  · left
    rw [hmore]
    exact mem_append_right _ mem_cons_self
  · cases xs with
    | nil =>
      left
      rw [nil_append] at hrest
      rw [← hrest]
      exact mem_cons_self
    | cons x xs =>
      cases hrest
      right
      refine ⟨?_, fun e he => hafter e (mem_append_right _ he)⟩
      rw [htrace]
      exact mem_append_right _ mem_cons_self

theorem holding_leasedTrace (h : Indexed m) : Holding (leasedTrace m) m := by
  intro id it hit hleased
  have hmem : it ∈ m.liveItems.filter fun it => it.record.state = .leased :=
    mem_filter.mpr ⟨h.mem_liveItems.mpr (h.get_ptr hit), by simpa using hleased⟩
  have hnodup : ((m.liveItems.filter fun it => it.record.state = .leased).map
      fun it => it.record.id).Nodup :=
    h.liveItems_nodup.sublist (filter_sublist.map _)
  unfold leasedTrace
  obtain ⟨before, after, hsplit⟩ := append_of_mem hmem
  rw [hsplit] at hnodup ⊢
  rw [map_append, map_cons] at hnodup
  refine ⟨_, _, by rw [map_append, map_cons], ?_⟩
  intro e he hrevokes
  obtain ⟨x, hx, rfl⟩ := mem_map.mp he
  have hid : x.record.id = it.record.id := congrArg Ptr.id hrevokes
  refine (nodup_cons.mp (nodup_append.mp hnodup).2.1).1 ?_
  rw [← hid]
  exact mem_map_of_mem hx

variable {offload : Bool} {refOf : Entry → BlobRef} {s s' : Core} {a : CoreAct}
variable {e : Option Entry}

/-- What a step does to a lease that is held behind it: it was just granted, or was held
before and no event of the step concerns it. -/
theorem lent_of_step (h : CoreOk s) (hstep : s.step offload refOf a = some (s', e))
    (hlent : s'.m.Lent id token) :
    (∃ p, .granted p token ∈ a.leaseEvents offload refOf s) ∨
      ∃ it, s.m.items.get id = some it ∧ it.record.state = .leased ∧ it.token = token ∧
        ∀ e ∈ a.leaseEvents offload refOf s, ¬ e.Revokes it.ptr := by
  have hindexed := (core_step h hstep).1.indexed
  obtain ⟨x, hx, hleased, rfl⟩ := hlent
  have hholding := (holding_leasedTrace h.indexed).coreStep h hstep
  rcases issued_or_granted (hholding id x hx hleased) with hnew | ⟨hold, hkept⟩
  · exact .inl ⟨_, hnew⟩
  · obtain ⟨it, hit, heq⟩ := mem_map.mp hold
    obtain ⟨hlive, hstate⟩ := mem_filter.mp hit
    have hget := h.indexed.mem_liveItems.mp hlive
    simp only [LeaseEvent.granted.injEq] at heq
    obtain ⟨hptr, htoken⟩ := heq
    have hid : it.record.id = id := (congrArg Ptr.id hptr).trans (hindexed.live id x hx).1
    rw [hid] at hget
    exact .inr ⟨it, hget, by simpa using hstate, htoken, hptr ▸ hkept⟩

/-- The entry of a step leaves the account of a lease alone that stays as it was. -/
theorem toll_of_lent {x : Entry} {it : Item} (h : CoreOk s)
    (hstep : s.step offload refOf a = some (s', some x)) (hit : s.m.items.get id = some it)
    (hleased : it.record.state = .leased)
    (hkept : ∀ e ∈ a.leaseEvents offload refOf s, ¬ e.Revokes it.ptr) : x.toll id = .free := by
  -- a grant names the records it is about
  have hgrant : ∀ {good : List Ptr} {tokens : List Bytes}, tokens.length = good.length →
      (∀ p ∈ good, ∃ y, s.m.items.get p.id = some y ∧ y.ptr = p) →
      (∀ e ∈ grants (good.zip tokens), ¬ e.Revokes it.ptr) →
      (Entry.lease (good.map Ptr.id)).toll id = .free := by
    intro good tokens hlen hlive hkept
    refine if_neg fun hid => ?_
    obtain ⟨p, hp, rfl⟩ := mem_map.mp hid
    obtain ⟨y, hy, hptr⟩ := hlive p hp
    obtain rfl := Option.some.inj (hy.symm.trans hit)
    have hzip : p ∈ (good.zip tokens).map Prod.fst := by
      rw [map_fst_zip hlen.ge]
      exact hp
    obtain ⟨z, hz, rfl⟩ := mem_map.mp hzip
    exact hkept _ (mem_map_of_mem hz) hptr.symm
  -- the call that ends a lease says so
  have hended : ∀ {c : Call} {now : Time} {m : Machine}, a = .call c now →
      c.exec offload refOf s.m now = .ok (some x, m) →
      ∀ ev ∈ c.endedLease s.m, ¬ ev.Revokes it.ptr := by
    rintro c now m rfl hexec
    simp only [CoreAct.leaseEvents, hexec] at hkept
    exact hkept
  have hparked : ∀ y, parkedItem s.m id ≠ .ok y := by
    intro y hy
    obtain ⟨hget, hstate⟩ := parkedItem_eq_ok hy
    obtain rfl := Option.some.inj (hget.symm.trans hit)
    rw [hstate] at hleased
    cases hleased
  cases Core.turn_of_step hstep with
  | called hidle hexec =>
    have hends := hended rfl hexec
    have hlogs := exec_logs hexec
    rename_i c now m
    cases c with
    | append r =>
      obtain ⟨r', hprep, rfl⟩ := hlogs
      refine if_neg fun hid => ?_
      have hnew := (prepare_eq_some hprep).new
      rw [hid, hit] at hnew
      cases hnew
    | checkpoint | ack | park | discard =>
      obtain ⟨-, -, rfl⟩ := hlogs
      rfl
    | release id' token' =>
      obtain ⟨y, -, rfl⟩ := hlogs
      refine if_neg fun hid => ?_
      rw [hid, Call.endedLease, hit] at hends
      exact hends _ mem_cons_self rfl
    | nack id' token' o =>
      obtain ⟨y, -, rfl⟩ := hlogs
      refine if_neg fun hid => ?_
      rw [hid.1, Call.endedLease, hit] at hends
      exact hends _ mem_cons_self rfl
    | requeueWith id' o =>
      obtain ⟨y, hy, rfl⟩ := hlogs
      refine if_neg fun hid => ?_
      rw [hid] at hy
      exact hparked y hy
  | parkedBad hcommit => rfl
  | granted hcommit hsome hlen =>
    simp only [CoreAct.leaseEvents, hcommit] at hkept
    refine hgrant hlen ?_ hkept
    intro p hp
    exact (h.commit _ hcommit p (.inr hp)).live
  | leasedNow hidle hord hlen =>
    refine hgrant hlen ?_ hkept
    intro p hp
    obtain ⟨y, hy, hptr, -⟩ := h.indexed.selectLease_sound hord hp
    exact ⟨y, hy, hptr⟩

/-- The call that takes an attempt back shows the token of its lease. -/
theorem refunds_of_logs {c : Call} {now : Time} {x : Entry} (hlogs : c.Logs m now x)
    (htoll : x.toll id = .refunds) :
    Redriver.refunded c = true ∧
      ∃ token it, c.fence = some (id, token) ∧ m.held id token = .ok it := by
  rcases toll_eq_refunds htoll with rfl | ⟨stamp, next, errText, blockedOn, rfl⟩
  · cases c with
    | release id' token =>
      obtain ⟨it, hheld, he⟩ := hlogs
      cases he
      exact ⟨rfl, token, it, rfl, hheld⟩
    | _ =>
      obtain ⟨it, -, he⟩ := hlogs
      cases he
  · cases c with
    | nack id' token o =>
      obtain ⟨it, hheld, he⟩ := hlogs
      simp only [Entry.nack.injEq] at he
      obtain ⟨rfl, -, -, -, -, hrefund⟩ := he
      exact ⟨hrefund.symm, token, it, rfl, hheld⟩
    | _ =>
      obtain ⟨it, -, he⟩ := hlogs
      cases he

end Lending

section Keys

/-- The handler was not called for the lease yet, and may be. -/
def JobPhase.untried : JobPhase → Bool
  | .queued | .started => true
  | _ => false

def Job.untried (j : Job) : Option Lease :=
  if j.phase.untried then some j.lease else none

/-- A lease as the calls are written down. -/
def Lease.key (l : Lease) : Bytes × Nat :=
  (l.id, l.lsn)

/-- The leases in hand whose grant was waited for. -/
def Dispatch.synced : Dispatch → List Lease
  | .waiting _ _ => []
  | d => d.leases

namespace Redriver

/-- The leases in hand and those of the jobs. -/
def leases (r : Redriver) : List Lease :=
  r.dispatch.leases ++ r.jobs.map Job.lease

def synced (r : Redriver) : List Lease :=
  r.dispatch.synced ++ r.jobs.map Job.lease

/-- The leases the handler may still be called for. -/
def untried (r : Redriver) : List Lease :=
  r.dispatch.leases ++ r.jobs.filterMap Job.untried

/-- The leases of the calls that were made and of those that may come. -/
def keys (r : Redriver) : List (Bytes × Nat) :=
  r.untried.map Lease.key ++ r.called

/-- What the redriver does with its leases between two grants, when `durable` entries of
the log are on disk. -/
structure Spends (max : Int64) (durable : Nat) (r r' : Redriver) : Prop where
  leases : r'.leases ⊆ r.leases
  keys : r'.keys.Subperm r.keys
  called : ∀ x ∈ r'.called, x ∈ r.called ∨ ∃ l ∈ r.synced, l.key = x ∧ l.attempts ≤ max
  undone : r.undone ⊆ r'.undone
  waiting : ∀ leases lsn, r'.dispatch = .waiting leases lsn → r.dispatch = .waiting leases lsn
  synced : ∀ l ∈ r'.synced, l ∈ r.synced ∨
    ∃ leases lsn, r.dispatch = .waiting leases lsn ∧ l ∈ leases ∧ lsn ≤ durable

end Redriver

variable {max : Int64} {durable : Nat} {r r' : Redriver} {cfg : RedriveConfig}

theorem synced_sublist (d : Dispatch) : d.synced.Sublist d.leases := by
  cases d with
  | waiting leases lsn => exact nil_sublist _
  | _ => exact List.Sublist.refl _

theorem spends_of_same (hdispatch : r'.dispatch = r.dispatch)
    (hjobs : r'.jobs.map Job.lease = r.jobs.map Job.lease) (hkeys : r'.keys.Subperm r.keys)
    (hcalled : ∀ x ∈ r'.called, x ∈ r.called ∨ ∃ l ∈ r.synced, l.key = x ∧ l.attempts ≤ max)
    (hundone : r.undone ⊆ r'.undone) : r.Spends max durable r' := by
  have hleases : r'.leases = r.leases := by
    unfold Redriver.leases
    rw [hdispatch, hjobs]
  have hsynced : r'.synced = r.synced := by
    unfold Redriver.synced
    rw [hdispatch, hjobs]
  exact ⟨hleases ▸ List.Subset.refl _, hkeys, hcalled, hundone,
    fun _ _ hat => hdispatch ▸ hat, fun l hl => .inl (hsynced ▸ hl)⟩

theorem spends_refl (hjobs : r'.jobs = r.jobs) (hcalled : r'.called = r.called)
    (hundone : r'.undone = r.undone) (hdispatch : r'.dispatch = r.dispatch) :
    r.Spends max durable r' := by
  have hkeys : r'.keys = r.keys := by
    unfold Redriver.keys Redriver.untried
    rw [hdispatch, hjobs, hcalled]
  exact spends_of_same hdispatch (by rw [hjobs]) (hkeys ▸ List.Subperm.refl _)
    (fun x hx => .inl (hcalled ▸ hx)) (hundone ▸ List.Subset.refl _)

theorem spends_redispatch {d : Dispatch} (hat : r.dispatch = d) (hjobs : r'.jobs = r.jobs)
    (hcalled : r'.called = r.called) (hundone : r'.undone = r.undone)
    (hnext : ∀ leases lsn, r'.dispatch ≠ .waiting leases lsn)
    (hsub : r'.dispatch.leases.Sublist d.synced) : r.Spends max durable r' := by
  subst hat
  have hsub' := hsub.trans (synced_sublist r.dispatch)
  refine ⟨?_, ?_, fun x hx => .inl (hcalled ▸ hx), hundone ▸ List.Subset.refl _,
    fun leases lsn hat => absurd hat (hnext leases lsn), ?_⟩
  · unfold Redriver.leases
    rw [hjobs]
    exact (hsub'.append_right _).subset
  · unfold Redriver.keys Redriver.untried
    rw [hjobs, hcalled]
    exact (((hsub'.append_right _).map _).append_right _).subperm
  · intro l hl
    unfold Redriver.synced at hl ⊢
    rw [hjobs] at hl
    rcases mem_append.mp hl with hl | hl
    · exact .inl (mem_append_left _ (hsub.subset ((synced_sublist _).subset hl)))
    · exact .inl (mem_append_right _ hl)

theorem spends_leased {leases : List Lease} {lsn : Nat} (hat : r.dispatch = .waiting leases lsn)
    (hlsn : lsn ≤ durable) : r.Spends max durable { r with dispatch := .handing leases } := by
  have hleases : ({ r with dispatch := .handing leases } : Redriver).leases = r.leases := by
    unfold Redriver.leases
    rw [hat]
    rfl
  have hkeys : ({ r with dispatch := .handing leases } : Redriver).keys = r.keys := by
    unfold Redriver.keys Redriver.untried
    rw [hat]
    rfl
  refine ⟨hleases ▸ List.Subset.refl _, hkeys ▸ List.Subperm.refl _, fun x hx => .inl hx,
    List.Subset.refl _, fun _ _ hw => (nomatch hw), ?_⟩
  intro l hl
  rcases mem_append.mp hl with hl | hl
  · exact .inr ⟨leases, lsn, hat, hl, hlsn⟩
  · exact .inl (mem_append_right _ hl)

theorem spends_sent {l : Lease} {rest : List Lease} (hat : r.dispatch = .sending l rest) :
    r.Spends max durable (r.send l rest) := by
  have hperm : ∀ xs : List Lease, (rest ++ (xs ++ [l])).Perm (r.dispatch.leases ++ xs) := by
    intro xs
    rw [hat, ← append_assoc]
    exact perm_append_singleton l _
  have hleases : (r.send l rest).leases.Perm r.leases := by
    change (rest ++ (r.jobs ++ [(⟨l, r.inst, r.run, .queued⟩ : Job)]).map Job.lease).Perm _
    rw [map_append]
    exact hperm _
  have huntried : (r.send l rest).untried.Perm r.untried := by
    change (rest ++ (r.jobs ++ [(⟨l, r.inst, r.run, .queued⟩ : Job)]).filterMap Job.untried).Perm _
    rw [filterMap_append]
    exact hperm _
  have hsynced : r.synced = r.leases := by
    unfold Redriver.synced Redriver.leases
    rw [hat]
    rfl
  refine ⟨hleases.subset, ((huntried.map _).append_right _).subperm, fun x hx => .inl hx,
    List.Subset.refl _, fun _ _ hw => (nomatch hw), ?_⟩
  intro x hx
  rw [hsynced]
  exact .inl (hleases.subset hx)

variable {i : Nat} {j : Job} {phase : JobPhase}

section

variable (hm : r.Moved r' i j phase) (hj : r.jobs[i]? = some j)
    (hphase : phase.untried = true → j.phase.untried = true)
include hm hj hphase

/-- A worker moves its job, to a phase before the call only from one before the call. -/
theorem Redriver.Moved.untried : r'.untried.Subperm r.untried := by
  unfold Redriver.untried
  rw [hm.dispatch, hm.jobs]
  refine (subperm_append_left _).mpr ?_
  by_cases hnew : phase.untried = true
  · have hsame : Job.untried { j with phase := phase } = Job.untried j := by
      unfold Job.untried
      rw [if_pos hnew, if_pos (hphase hnew)]
    rw [filterMap_set_same hj hsame]
  · have hnone : Job.untried { j with phase := phase } = none := if_neg hnew
    by_cases hold : j.phase.untried = true
    · have hset := filterMap_set_none (f := Job.untried) hj (if_pos hold) hnone
      exact (sublist_cons_self _ _).subperm.trans hset.symm.subperm
    · have hsame : Job.untried j = none := if_neg hold
      rw [filterMap_set_same hj (hnone.trans hsame.symm)]

theorem spends_moved (hcalled : r'.called = r.called)
    (hundone : r.undone ⊆ r'.undone) : r.Spends max durable r' := by
  refine spends_of_same hm.dispatch (hm.leases hj) ?_ (fun x hx => .inl (hcalled ▸ hx)) hundone
  unfold Redriver.keys
  rw [hcalled]
  obtain ⟨kept, hperm, hsub⟩ := hm.untried hj hphase
  exact (subperm_append_right _).mpr ⟨kept.map Lease.key, hperm.map _, hsub.map _⟩

end

theorem spends_begun (hj : r.jobs[i]? = some j) (hat : j.phase = .started) :
    r.Spends cfg.maxAttempts durable (r.begin cfg i j) := by
  have hm : r.Moved (r.begin cfg i j) i j (r.process cfg j) := (kept_begin r i j).toMoved
  by_cases hrun : r.process cfg j = .running
  · have hbegin : r.begin cfg i j =
        { r.put i j .running with called := (j.lease.id, j.lease.lsn) :: r.called } := if_pos hrun
    have hattempts : j.lease.attempts ≤ cfg.maxAttempts := by
      unfold Redriver.process at hrun
      split at hrun
      · cases hrun
      · obtain ⟨hle, hrun⟩ := of_unless hrun
        exact Int64.not_lt.mp hle
    rw [hrun] at hm
    have hset := filterMap_set_none (f := Job.untried) (y := { j with phase := .running }) hj
      (if_pos (by rw [hat]; rfl)) (if_neg fun h => nomatch h)
    have hkeys : (r.begin cfg i j).keys.Perm r.keys := by
      unfold Redriver.keys Redriver.untried
      rw [hm.dispatch, hm.jobs, hbegin, map_append, map_append, append_assoc,
        append_assoc]
      refine List.Perm.append_left _ ?_
      refine List.Perm.trans ?_ (((hset.map Lease.key).symm).append_right _)
      exact perm_middle
    refine spends_of_same hm.dispatch (hm.leases hj) hkeys.subperm ?_ ?_
    · intro x hx
      rw [hbegin] at hx
      rcases mem_cons.mp hx with rfl | hx
      · exact .inr ⟨j.lease, mem_append_right _
          (mem_map_of_mem (mem_of_getElem? hj)), rfl, hattempts⟩
      · exact .inl hx
    · rw [hbegin]
      exact List.Subset.refl _
  · have hbegin : r.begin cfg i j = r.put i j (r.process cfg j) := if_neg hrun
    refine spends_moved hm hj (fun _ => by rw [hat]; rfl) ?_ ?_
    · rw [hbegin]
      rfl
    · rw [hbegin]
      exact List.Subset.refl _

end Keys

section Charging

/-- The grant of a lease as the log has it. -/
def Lease.Granted (log : List Entry) (l : Lease) : Prop :=
  l.lsn ≤ log.length ∧
    ∃ r ∈ (empty.replay (log.take l.lsn)).recs, r.id = l.id ∧ r.attempts = l.attempts

/-- What the leases and the calls of a redriver have to do with the log of its store. -/
structure Redrive.Charged (max : Int64) (s : Redrive) : Prop where
  unique : ∀ ids, .lease ids ∈ s.wal.log → ids.Nodup
  once : s.r.keys.Nodup
  granted : ∀ l ∈ s.r.leases, l.Granted s.wal.log
  awaited : ∀ leases lsn, s.r.dispatch = .waiting leases lsn → ∀ l ∈ leases, l.lsn = lsn
  synced : ∀ l ∈ s.r.synced, l.lsn ≤ s.wal.durable
  called : ∀ x ∈ s.r.called, x.2 ≤ s.wal.durable ∧
    ∃ r ∈ (empty.replay (s.wal.log.take x.2)).recs, r.id = x.1 ∧ r.attempts ≤ max
  last : ∀ l ∈ s.r.leases, s.wal.core.m.Lent l.id l.token →
    (account l.id s.wal.log).charged.getLast? = some l.lsn
  stands : ∀ x ∈ s.r.keys, Stands s.wal.log s.r.undone x

/-- A step of the store that grants nothing, as far as some leases are concerned. -/
structure Wal.Moves (w w' : Wal) (es : List Entry) (leases : List Lease) : Prop where
  log : w'.log = w.log ++ es
  single : es = [] ∨ ∃ e, es = [e]
  durable : w.durable ≤ w'.durable
  grants : ∀ ids, .lease ids ∉ es
  lent : ∀ l ∈ leases, w'.core.m.Lent l.id l.token →
    w.core.m.Lent l.id l.token ∧ ∀ e ∈ es, e.toll l.id = .free

variable {max : Int64} {s : Redrive} {w w' : Wal} {r' : Redriver} {es : List Entry}

theorem Lease.Granted.append {log : List Entry} {l : Lease} (h : l.Granted log) (es : List Entry) :
    l.Granted (log ++ es) := by
  obtain ⟨hle, hr⟩ := h
  refine ⟨?_, ?_⟩
  · rw [length_append]
    omega
  · rw [take_append_of_le_length hle]
    exact hr

theorem Redrive.Charged.key_le {x : Bytes × Nat} (h : s.Charged max)
    (hdisk : s.wal.durable ≤ s.wal.log.length) (hx : x ∈ s.r.keys) : x.2 ≤ s.wal.log.length := by
  rcases mem_append.mp hx with hx | hx
  · obtain ⟨l, hl, rfl⟩ := mem_map.mp hx
    refine (h.granted l ?_).1
    rcases mem_append.mp hl with hl | hl
    · exact mem_append_left _ hl
    · obtain ⟨j, hj, hsome⟩ := mem_filterMap.mp hl
      obtain ⟨-, rfl⟩ := of_guard hsome
      exact mem_append_right _ (mem_map_of_mem hj)
  · exact (h.called x hx).1.trans hdisk

theorem account_free {id : Bytes} {log : List Entry} {e : Entry} (hfree : e.toll id = .free) :
    (account id (log ++ [e])).charged = (account id log).charged := by
  rw [account_concat]
  unfold Account.next
  rw [hfree]

theorem Redrive.Charged.advance (h : s.Charged max) (hdisk : s.wal.durable ≤ s.wal.log.length)
    (hw : s.wal.Moves w' es r'.leases) (hr : s.r.Spends max w'.durable r')
    (hrefund : ∀ e ∈ es, ∀ x ∈ r'.keys, e.toll x.1 = .refunds →
      (account x.1 s.wal.log).charged.getLast? = some x.2 →
        (x.1, x.2, s.wal.log.length + 1) ∈ r'.undone) :
    (⟨w', r'⟩ : Redrive).Charged max := by
  have hlong : ∀ n, n ≤ s.wal.log.length → w'.log.take n = s.wal.log.take n := by
    intro n hn
    rw [hw.log, take_append_of_le_length hn]
  refine ⟨?_, ?_, ?_, ?_, ?_, ?_, ?_, ?_⟩
  · intro ids hids
    rw [hw.log] at hids
    exact (mem_append.mp hids).elim (h.unique ids) fun hids => absurd hids (hw.grants ids)
  · obtain ⟨kept, hperm, hsub⟩ := hr.keys
    exact hperm.nodup_iff.mp (h.once.sublist hsub)
  · intro l hl
    rw [hw.log]
    exact (h.granted l (hr.leases hl)).append es
  · exact fun leases lsn hat => h.awaited leases lsn (hr.waiting leases lsn hat)
  · intro l hl
    rcases hr.synced l hl with hl | ⟨leases, lsn, hat, hl, hle⟩
    · exact (h.synced l hl).trans hw.durable
    · rw [h.awaited leases lsn hat l hl]
      exact hle
  · intro x hx
    rcases hr.called x hx with hx | ⟨l, hl, rfl, hle⟩
    · obtain ⟨hdur, hrec⟩ := h.called x hx
      rw [hlong x.2 (hdur.trans hdisk)]
      exact ⟨hdur.trans hw.durable, hrec⟩
    · have hl' : l ∈ s.r.leases := by
        refine (mem_append.mp hl).elim (fun hl => ?_) (mem_append_right _)
        exact mem_append_left _ ((synced_sublist _).subset hl)
      obtain ⟨hlsn, r, hr, hid, hattempts⟩ := h.granted l hl'
      refine ⟨(h.synced l hl).trans hw.durable, r, ?_, hid, hattempts ▸ hle⟩
      change r ∈ (empty.replay (w'.log.take l.lsn)).recs
      rw [hlong _ hlsn]
      exact hr
  · intro l hl hlent
    obtain ⟨hold, hfree⟩ := hw.lent l hl hlent
    have hlast := h.last l (hr.leases hl) hold
    rw [hw.log]
    rcases hw.single with rfl | ⟨e, rfl⟩
    · rw [append_nil]
      exact hlast
    · rw [account_free (hfree e mem_cons_self)]
      exact hlast
  · intro x hx
    have hx' := hr.keys.subset hx
    have hstands := h.stands x hx'
    rw [hw.log]
    rcases hw.single with rfl | ⟨e, rfl⟩
    · rw [append_nil]
      exact fun n hle hn hsince hstill =>
        hstands n hle hn hsince fun p hp => hstill p (hr.undone hp)
    · refine hstands.concat (h.key_le hdisk hx') hr.undone ?_
      exact hrefund e mem_cons_self x hx

end Charging

section Store

variable {o : WalOptions} {sgs : Signing} {w w' : Wal} {closed : List (List Entry)}
variable {active : List Entry} {leases : List Lease}

theorem Wal.Moves.refl (w : Wal) (leases : List Lease) : w.Moves w [] leases :=
  ⟨(append_nil _).symm, .inl rfl, le_refl _, fun _ he => (nomatch he),
    fun _ _ hlent => ⟨hlent, fun _ he => nomatch he⟩⟩

theorem WalOk.background_moves {a : WalAct} (h : WalOk o sgs w closed active)
    (hback : a.isBackground = true) (hstep : w.step o a = some w') (leases : List Lease) :
    w.Moves w' [] leases := by
  refine ⟨?_, .inl rfl, h.durable_mono hstep, fun _ he => (nomatch he), ?_⟩
  · rw [append_nil]
    exact Wal.log_of_background hback hstep
  · rintro l - ⟨it, hit, hleased, htoken⟩
    obtain ⟨-, -, -, hsame⟩ := Wal.background_cases h.core hback hstep
    have hget := hsame l.id
    rw [hit] at hget
    obtain ⟨it', hit', heq⟩ := Option.map_eq_some_iff.mp hget.symm
    simp only [Prod.mk.injEq] at heq
    exact ⟨⟨it', hit', heq.1 ▸ hleased, heq.2.trans htoken⟩, fun _ he => nomatch he⟩

/-- The step hands leases out. -/
def CoreAct.lends : CoreAct → Bool
  | .grant _ | .leaseNow .. => true
  | _ => false

theorem not_granted
    {a : CoreAct} {offload : Bool} {refOf : Entry → BlobRef} {s : Core} {p : Ptr} {token : Bytes}
    (ha : a.lends = false) : .granted p token ∉ a.leaseEvents offload refOf s := by
  intro hmem
  cases a with
  | call c now =>
    simp only [CoreAct.leaseEvents] at hmem
    split at hmem
    · cases hmem
    · cases c with
      | release id t | nack id t o | park id t reason =>
        obtain ⟨it, -, heq⟩ := mem_map.mp hmem
        cases heq
      | _ => cases hmem
  | parkBad =>
    simp only [CoreAct.leaseEvents] at hmem
    split at hmem
    · cases mem_singleton.mp hmem
    · cases hmem
  | grant tokens => cases ha
  | leaseNow ord now req tokens => cases ha
  | _ => cases hmem

theorem WalOk.core_lent {a : CoreAct} (h : WalOk o sgs w closed active)
    (hstep : w.step o (.core a) = some w')
    (hold : ∀ l ∈ leases, ∀ p, .granted p l.token ∉ a.leaseEvents o.offload (w.refOf o) w.core) :
    ∃ es, w'.log = w.log ++ es ∧
      (es = [] ∨ ∃ c e, es = [e] ∧ w.core.step o.offload (w.refOf o) a = some (c, some e)) ∧
        ∀ l ∈ leases, w'.core.m.Lent l.id l.token →
          w.core.m.Lent l.id l.token ∧ ∀ e ∈ es, e.toll l.id = .free := by
  have hlent : ∀ {c : Core} {e : Option Entry},
      w.core.step o.offload (w.refOf o) a = some (c, e) → ∀ l ∈ leases, c.m.Lent l.id l.token →
        w.core.m.Lent l.id l.token ∧ ∀ x, e = some x → x.toll l.id = .free := by
    intro c e hcore l hl hlent
    rcases lent_of_step h.core hcore hlent with ⟨p, hnew⟩ | ⟨it, hit, hleased, htoken, hkept⟩
    · exact absurd hnew (hold l hl p)
    · refine ⟨⟨it, hit, hleased, htoken⟩, ?_⟩
      rintro x rfl
      exact toll_of_lent h.core hcore hit hleased hkept
  cases Wal.turn_of_step hstep with
  | silent hadmits hcore =>
    refine ⟨[], (append_nil _).symm, .inl rfl, ?_⟩
    exact fun l hl hnew => ⟨(hlent hcore l hl hnew).1, fun _ he => nomatch he⟩
  | refused hadmits hcore hsize =>
    exact ⟨[], (append_nil _).symm, .inl rfl,
      fun l _ hsame => ⟨hsame, fun _ he => nomatch he⟩⟩
  | @logged _ c e hadmits hcore hsize hwait =>
    refine ⟨[e], rfl, .inr ⟨c, e, rfl, hcore⟩, ?_⟩
    intro l hl hnew
    obtain ⟨hbefore, hfree⟩ := hlent hcore l hl hnew
    exact ⟨hbefore, fun x hx => hfree x (by rw [mem_singleton.mp hx])⟩

theorem WalOk.core_moves {a : CoreAct} (h : WalOk o sgs w closed active) (ha : a.lends = false)
    (hstep : w.step o (.core a) = some w') (leases : List Lease) :
    ∃ es, w.Moves w' es leases ∧
      ∀ e ∈ es, ∃ c, w.core.step o.offload (w.refOf o) a = some (c, some e) := by
  obtain ⟨es, hlog, hes, hlent⟩ := h.core_lent hstep fun l _ p => not_granted ha
  refine ⟨es, ⟨hlog, ?_, h.durable_mono hstep, ?_, hlent⟩, ?_⟩
  · exact hes.imp_right fun ⟨_, e, he, _⟩ => ⟨e, he⟩
  · intro ids he
    rcases hes with rfl | ⟨c, e, rfl, hcore⟩
    · cases he
    · cases mem_singleton.mp he
      cases Core.turn_of_step hcore with
      | @called c now _ _ hidle hexec =>
        have hlogs := exec_logs hexec
        cases c <;>
          · obtain ⟨y, -, heq⟩ := hlogs
            cases heq
      | granted hcommit hsome hlen => cases ha
      | leasedNow hidle hord hlen => cases ha
  · intro e he
    rcases hes with rfl | ⟨c, x, rfl, hcore⟩
    · cases he
    · rw [mem_singleton.mp he]
      exact ⟨c, hcore⟩

theorem WalOk.attempts_logged {id : Bytes} {it : Item} (h : WalOk o sgs w closed active)
    (hit : w.core.m.items.get id = some it) :
    ∃ r ∈ (empty.replay w.log).recs, r.id = id ∧ r.attempts = it.record.attempts := by
  obtain ⟨q, hshows, hreborn⟩ := h.shown
  have hindexed := h.core.indexed
  obtain ⟨r, hr, hseen⟩ := hshows.record hindexed (hindexed.get_ptr hit)
  have hmem : r.reborn ∈ (empty.replay w.log).reborn.recs := by
    rw [← hreborn]
    exact mem_map_of_mem hr
  obtain ⟨r', hr', heq⟩ := mem_map.mp hmem
  have hid : r'.reborn.id = r.reborn.id := congrArg Record.id heq
  have hattempts : r'.reborn.attempts = r.reborn.attempts := congrArg Record.attempts heq
  have hread : r.attempts = it.record.attempts := by
    obtain ⟨pay, -, rfl⟩ := Option.map_eq_some_iff.mp hseen.1.read
    rfl
  refine ⟨r', hr', hid.trans ?_, hattempts.trans hread⟩
  exact (hshows.sight.same hseen).1.trans (hindexed.live id it hit).1

end Store

section Granting

variable {o : WalOptions} {sgs : Signing} {max : Int64} {s : Redrive} {w : Wal}

theorem Redrive.Charged.grant
    {closed closed' : List (List Entry)} {active active' : List Entry} {cap : Int} {n : Nat}
    {tokens : List Bytes} (h : s.Charged max) (hok : s.Ok cap)
    (hwal : WalOk o sgs s.wal closed active) (hwal' : WalOk o sgs w closed' active')
    (hat : s.r.dispatch = .committing n) (hfresh : freshTokens s.r.used tokens = true)
    (hw : s.wal.step o (.core (.grant tokens)) = some w) :
    (⟨w, s.granted tokens w⟩ : Redrive).Charged max := by
  have hdisk := hwal.durable_le
  have hstore := hok.store
  rw [hat] at hstore
  rcases granted_cases hstore hfresh hw with ⟨hr, rfl, -⟩ | ⟨leases, ids, hgrant⟩
  · -- the entry was too long
    have hmoves : s.wal.Moves { s.wal with core := { s.wal.core with commit := none } } []
        ({ s.r with dispatch := .idle } : Redriver).leases :=
      ⟨(append_nil _).symm, .inl rfl, le_refl _, fun _ he => (nomatch he),
        fun _ _ hlent => ⟨hlent, fun _ he => nomatch he⟩⟩
    rw [hr]
    refine h.advance hdisk hmoves ?_ fun _ he => nomatch he
    exact spends_redispatch hat rfl rfl rfl (fun _ _ hw => nomatch hw) (nil_sublist _)
  · have hlen : w.log.length = s.wal.log.length + 1 := by
      rw [hgrant.log, length_append, length_singleton]
    have hjobs : s.r.leases = s.r.jobs.map Job.lease := by
      unfold Redriver.leases
      rw [hat]
      rfl
    have hkeys : s.r.keys = (s.r.jobs.filterMap Job.untried).map Lease.key ++ s.r.called := by
      unfold Redriver.keys Redriver.untried
      rw [hat]
      rfl
    have hcharges : ∀ l ∈ leases, (Entry.lease ids).toll l.id = .charges := fun l hl =>
      if_pos (hgrant.names l hl).1
    -- the leases of the jobs have other tokens
    have hold : ∀ l ∈ s.r.jobs.map Job.lease, ∀ p, .granted p l.token ∉
        (CoreAct.grant tokens).leaseEvents o.offload (s.wal.refOf o) s.wal.core := by
      intro l hl p hnew
      obtain ⟨-, x, hx, -⟩ := hstore.leasing
      simp only [CoreAct.leaseEvents, hx] at hnew
      obtain ⟨y, hy, heq⟩ := mem_map.mp hnew
      simp only [LeaseEvent.granted.injEq] at heq
      unfold freshTokens at hfresh
      simp only [Bool.and_eq_true, decide_eq_true_eq, all_eq_true] at hfresh
      refine (hfresh.2 y.2 (of_mem_zip hy).2).2 ?_
      rw [heq.2]
      exact hok.tokens.used l (mem_append_right _ hl)
    obtain ⟨es, hlog, -, hlent⟩ := hwal.core_lent hw hold
    obtain rfl : es = [.lease ids] := append_cancel_left (hlog.symm.trans hgrant.log)
    have hlong : ∀ k, k ≤ s.wal.log.length → w.log.take k = s.wal.log.take k := by
      intro k hk
      rw [hgrant.log, take_append_of_le_length hk]
    have hwhole : w.log.take (s.wal.log.length + 1) = w.log :=
      take_of_length_le hlen.le
    rw [hgrant.redriver]
    refine ⟨?_, ?_, ?_, ?_, ?_, ?_, ?_, ?_⟩
    · intro ids' hids
      rw [hgrant.log] at hids
      rcases mem_append.mp hids with hids | hids
      · exact h.unique ids' hids
      · cases mem_singleton.mp hids
        exact hgrant.unique
    · change ((leases ++ s.r.jobs.filterMap Job.untried).map Lease.key ++ s.r.called).Nodup
      rw [map_append, append_assoc, ← hkeys]
      refine nodup_append.mpr ⟨?_, h.once, ?_⟩
      · refine List.Nodup.of_map Prod.fst ?_
        rw [map_map]
        exact hgrant.once
      · rintro x hx y hy rfl
        obtain ⟨l, hl, rfl⟩ := mem_map.mp hx
        have hle := h.key_le hdisk hy
        have hlsn : l.key.2 = s.wal.log.length + 1 := (hgrant.names l hl).2
        omega
    · intro l hl
      rcases mem_append.mp hl with hl | hl
      · have hlsn := (hgrant.names l hl).2
        obtain ⟨it, hit, -, -, hattempts⟩ := (hgrant.store.held l hl).granted
        obtain ⟨r, hr, hid, hsame⟩ := hwal'.attempts_logged hit
        refine ⟨hlsn.trans_le hlen.ge, r, ?_, hid, hsame.trans hattempts⟩
        rw [hlsn]
        rw [hwhole]
        exact hr
      · change l.Granted w.log
        rw [hgrant.log]
        exact (h.granted l (hjobs ▸ hl)).append _
    · intro leases' lsn hwait l hl
      cases hwait
      exact (hgrant.names l hl).2
    · intro l hl
      refine (h.synced l ?_).trans (hwal.durable_mono hw)
      exact mem_append_right _ hl
    · intro x hx
      obtain ⟨hdur, hrec⟩ := h.called x hx
      refine ⟨hdur.trans (hwal.durable_mono hw), ?_⟩
      rw [hlong x.2 (hdur.trans hdisk)]
      exact hrec
    · intro l hl hlent'
      rw [hgrant.log]
      rcases mem_append.mp hl with hl | hl
      · rw [account_concat]
        unfold Account.next
        rw [hcharges l hl, (hgrant.names l hl).2, lsn_account]
        exact List.getLast?_concat
      · obtain ⟨hbefore, hfree⟩ := hlent l hl hlent'
        rw [account_free (hfree _ mem_cons_self)]
        exact h.last l (hjobs ▸ hl) hbefore
    · intro x hx
      change x ∈ (leases ++ s.r.jobs.filterMap Job.untried).map Lease.key ++ s.r.called at hx
      rw [map_append, append_assoc, ← hkeys] at hx
      rw [hgrant.log]
      rcases mem_append.mp hx with hx | hx
      · obtain ⟨l, hl, rfl⟩ := mem_map.mp hx
        exact stands_charged (hgrant.names l hl).2 (hcharges l hl)
      · refine (h.stands x hx).concat (h.key_le hdisk hx) (List.Subset.refl _) ?_
        intro htoll
        rcases toll_eq_refunds htoll with he | ⟨_, _, _, _, he⟩
        · cases he
        · cases he

theorem Redrive.Charged.crashed {closed : List (List Entry)} {active : List Entry} {c : Crash}
    (h : s.Charged max) (hwal : WalOk o sgs s.wal closed active)
    (hw : s.wal.step o (.reopen c) = some w) :
    (⟨w, s.r.crashed w.log.length⟩ : Redrive).Charged max := by
  cases Wal.turn_of_step hw with
  | @reopened _ x hposs hrecover =>
    obtain ⟨hdur, hkept⟩ := hwal.kept_le hposs hrecover
    have hlen : (s.wal.log.take (x.nextLSN - 1)).length = x.nextLSN - 1 := by
      rw [length_take]
      omega
    change (⟨.opened x (s.wal.log.take (x.nextLSN - 1)) s.wal.acked,
      s.r.crashed (s.wal.log.take (x.nextLSN - 1)).length⟩ : Redrive).Charged max
    rw [hlen]
    refine ⟨?_, ?_, fun _ hl => (nomatch hl), fun _ _ hat => (nomatch hat),
      fun _ hl => (nomatch hl), ?_, fun _ hl => (nomatch hl), ?_⟩
    · exact fun ids hids => h.unique ids (take_subset _ _ hids)
    · exact (nodup_append.mp h.once).2.1
    · intro y hy
      obtain ⟨hle, hrec⟩ := h.called y hy
      refine ⟨?_, ?_⟩
      · change y.2 ≤ (s.wal.log.take (x.nextLSN - 1)).length
        omega
      · change ∃ r ∈ (empty.replay ((s.wal.log.take (x.nextLSN - 1)).take y.2)).recs, _
        rw [take_take, min_eq_left (by omega)]
        exact hrec
    · exact fun y hy => (h.stands y (mem_append_right _ hy)).take _

end Granting

section Steps

/-- The step of the store by which a step of the redriver may write. -/
def Redrive.writes (s : Redrive) : RedriveAct → Option WalAct
  | .parkBad => some (.core .parkBad)
  | .grant tokens => some (.core (.grant tokens))
  | .release now =>
    match s.r.dispatch with
    | .releasing l _ => some (.core (.call (.release l.id l.token) now))
    | _ => none
  | .checkpoint i cp now =>
    s.r.jobs[i]?.map fun j => .core (.call (.checkpoint j.lease.id j.lease.token cp) now)
  | .settle i now =>
    match (s.r.jobs[i]?.map Job.phase) with
    | some (.settling x) => some (.core (.call x.call now))
    | _ => none
  | .client c now => some (.core (.call c now))
  | .background x => some x
  | _ => none

/-- What a step writes can be read back. -/
def Redrive.Sound (o : WalOptions) (s : Redrive) (a : RedriveAct) : Prop :=
  ∀ x ∈ s.writes a, s.wal.Sound o x

instance Redrive.decidableSound (o : WalOptions) (s : Redrive) (a : RedriveAct) :
    Decidable (s.Sound o a) :=
  match h : s.writes a with
  | none => isTrue (by simp [Redrive.Sound, h])
  | some x => decidable_of_iff (s.wal.Sound o x) (by simp [Redrive.Sound, h])

variable {o : WalOptions} {sgs : Signing} {cfg : RedriveConfig} {s s' : Redrive} {a : RedriveAct}

variable {w : Wal} {closed : List (List Entry)} {active : List Entry} {cap : Int} {max : Int64}

theorem sound_of_silent {x : CoreAct}
    (h : ∀ c e, w.core.step o.offload (w.refOf o) x = some (c, e) → e = none) :
    w.Sound o (.core x) :=
  fun c e hcore => nomatch h c (some e) hcore

theorem Redrive.walOk_step (h : WalOk o sgs s.wal closed active) (hsound : s.Sound o a)
    (hstep : s.step o cfg a = some s') : ∃ closed' active', WalOk o sgs s'.wal closed' active' := by
  cases Redrive.turn_of_step hstep with
  | client _ hw | background _ hw | parkedBad _ hw | granted _ _ hw =>
    exact h.step (hsound _ rfl) hw
  | crashed hw | leased _ hw | confirmed _ _ hw => exact h.step (by trivial) hw
  | selected _ _ hw | committed _ hw | gaveUp _ hw =>
    refine h.step (sound_of_silent fun c e hcore => ?_) hw
    cases Core.turn_of_step hcore
    rfl
  | closed hx hat hw =>
    refine h.step (sound_of_silent fun c e hcore => ?_) hw
    rcases hx with rfl | rfl
    · cases Core.turn_of_step hcore
      rfl
    · cases Core.turn_of_step hcore
      rfl
  | @released l rest now w hat hw =>
    refine h.step (hsound _ ?_) hw
    simp only [Redrive.writes, hat]
    rfl
  | checkpointed hj hat hw =>
    refine h.step (hsound _ ?_) hw
    simp only [Redrive.writes, hj]
    rfl
  | settled hj hat hw =>
    refine h.step (hsound _ ?_) hw
    simp only [Redrive.writes, hj, Option.map_some, hat]
    rfl
  | _ => exact ⟨_, _, h⟩

theorem Redrive.Ok.crashed {c : Crash} (hcap : 0 ≤ cap) (hw : s.wal.step o (.reopen c) = some w)
    (hwal : WalOk o sgs w closed active) : (⟨w, s.r.crashed w.log.length⟩ : Redrive).Ok cap := by
  cases Wal.turn_of_step hw with
  | reopened hposs hrecover =>
    obtain ⟨-, hactive, honce, hinflight, hroom⟩ := hands_initial hcap
    exact ⟨⟨fun _ hj => (nomatch hj), hactive, honce, hinflight, hroom⟩,
      ⟨nodup_nil, fun _ hl => (nomatch hl), fun _ hj => (nomatch hj)⟩,
      hwal.core, ⟨rfl, rfl⟩, fun _ hl => nomatch hl⟩

theorem Redrive.Charged.call {c : Call} {now : Time} {r' : Redriver} (h : s.Charged max)
    (hwal : WalOk o sgs s.wal closed active) (hw : s.wal.step o (.core (.call c now)) = some w)
    (hr : s.r.Spends max w.durable r')
    (hrefund : ∀ x ∈ r'.keys, Redriver.refunded c = true →
      (∃ token it, c.fence = some (x.1, token) ∧ s.wal.core.m.held x.1 token = .ok it) →
        (account x.1 s.wal.log).charged.getLast? = some x.2 →
          w.log.length = s.wal.log.length + 1 → (x.1, x.2, w.log.length) ∈ r'.undone) :
    (⟨w, r'⟩ : Redrive).Charged max := by
  obtain ⟨es, hmoves, hes⟩ := hwal.core_moves rfl hw r'.leases
  refine h.advance hwal.durable_le hmoves hr ?_
  intro e he x hx htoll hlast
  obtain ⟨core, hcore⟩ := hes e he
  obtain ⟨hrefunded, hshown⟩ := refunds_of_logs (exec_logs (exec_of_call hcore)) htoll
  have hlen : w.log.length = s.wal.log.length + 1 := by
    rcases hmoves.single with rfl | ⟨y, rfl⟩
    · cases he
    · rw [hmoves.log, length_append, length_singleton]
  rw [← hlen]
  exact hrefund x hx hrefunded hshown hlast hlen

/-- Whoever shows the token of a lease has the last one charged. -/
theorem Redrive.Charged.last_of_held {l : Lease} {id token : Bytes} {it : Item} (h : s.Charged max)
    (hl : l ∈ s.r.leases) (hfence : some (l.id, l.token) = some (id, token))
    (hheld : s.wal.core.m.held id token = .ok it) :
    (account id s.wal.log).charged.getLast? = some l.lsn ∧ l.id = id := by
  obtain ⟨rfl, rfl⟩ := hfence
  obtain ⟨hit, hleased, htoken⟩ := held_token hheld
  exact ⟨h.last l hl ⟨it, hit, hleased, htoken⟩, rfl⟩

/-- Every step of the redriver and of its store. -/
theorem Redrive.Charged.step {closed' : List (List Entry)} {active' : List Entry}
    (h : s.Charged cfg.maxAttempts) (hok : s.Ok cap) (hwal : WalOk o sgs s.wal closed active)
    (hwal' : WalOk o sgs s'.wal closed' active') (hstep : s.step o cfg a = some s') :
    s'.Charged cfg.maxAttempts := by
  have hdisk := hwal.durable_le
  -- the steps of the redriver alone
  have hlocal : ∀ {r' : Redriver}, s.r.Spends cfg.maxAttempts s.wal.durable r' →
      (⟨s.wal, r'⟩ : Redrive).Charged cfg.maxAttempts := fun hr =>
    h.advance hdisk (Wal.Moves.refl _ _) hr fun _ he => nomatch he
  -- those that only let the store's own goroutines work
  have hback : ∀ {x : WalAct} {w : Wal} {r' : Redriver}, x.isBackground = true →
      s.wal.step o x = some w → s.r.Spends cfg.maxAttempts w.durable r' →
        (⟨w, r'⟩ : Redrive).Charged cfg.maxAttempts := fun hx hw hr =>
    h.advance hdisk (hwal.background_moves hx hw _) hr fun _ he => nomatch he
  -- the steps of a `Lease` up to its grant
  have hlease : ∀ {x : CoreAct} {w : Wal} {r' : Redriver}, x.lends = false →
      (∀ c e id, s.wal.core.step o.offload (s.wal.refOf o) x = some (c, some e) →
        e.toll id = .free) →
      s.wal.step o (.core x) = some w → s.r.Spends cfg.maxAttempts w.durable r' →
        (⟨w, r'⟩ : Redrive).Charged cfg.maxAttempts := by
    intro x w r' hx hfree hw hr
    obtain ⟨es, hmoves, hes⟩ := hwal.core_moves hx hw r'.leases
    refine h.advance hdisk hmoves hr ?_
    intro e he y _ htoll
    obtain ⟨c, hcore⟩ := hes e he
    rw [hfree c e y.1 hcore] at htoll
    cases htoll
  cases Redrive.turn_of_step hstep with
  | started | stopped => exact hlocal (spends_refl rfl rfl rfl rfl)
  | @client c now w hclient hw =>
    refine h.call hwal hw (spends_refl rfl rfl rfl rfl) ?_
    intro x _ hrefunded
    cases c with
    | append r => cases hrefunded
    | requeueWith id o => cases hrefunded
    | discard id => cases hrefunded
    | _ => cases hclient
  | background hx hw => exact hback hx hw (spends_refl rfl rfl rfl rfl)
  | crashed hw => exact h.crashed hwal hw
  | selected hat _ hw | committed hat hw | gaveUp hat hw =>
    refine hlease rfl (fun c e id hcore => ?_) hw
      (spends_redispatch hat rfl rfl rfl (fun _ _ hw => nomatch hw) (nil_sublist _))
    cases Core.turn_of_step hcore
  | @parkedBad n w hat hw =>
    refine hlease rfl ?_ hw ?_
    · intro c e id hcore
      cases Core.turn_of_step hcore
      rfl
    · by_cases hopen : w.core.commit.isSome = true
      · rw [if_pos hopen]
        exact spends_redispatch hat rfl rfl rfl (fun _ _ hw => nomatch hw) (nil_sublist _)
      · rw [if_neg hopen]
        exact spends_redispatch hat rfl rfl rfl (fun _ _ hw => nomatch hw) (nil_sublist _)
  | granted hat hfresh hw => exact h.grant hok hwal hwal' hat hfresh hw
  | @closed n _ x w hx hat hw =>
    have hquiet : x.lends = false := by
      rcases hx with rfl | rfl
      · rfl
      · rfl
    refine hlease hquiet ?_ hw ?_
    · intro c e id hcore
      rcases hx with rfl | rfl
      · cases Core.turn_of_step hcore
      · cases Core.turn_of_step hcore
    · exact spends_redispatch hat rfl rfl rfl (fun _ _ hw => nomatch hw) (nil_sublist _)
  | @leased leases lsn w hat hw =>
    have hle : lsn ≤ w.durable := by
      cases Wal.turn_of_step hw with
      | finished hle => exact hle
    exact hback rfl hw (spends_leased hat hle)
  | unconfirmed hat =>
    exact hlocal (spends_redispatch hat rfl rfl rfl (fun _ _ hw => nomatch hw) (nil_sublist _))
  | @handed leases hat =>
    refine hlocal ?_
    rcases hand_cases s.r leases with
      ⟨rfl, hhand⟩ | ⟨l, rest, rfl, ⟨-, hhand⟩ | ⟨-, hhand⟩⟩
    · rw [hhand]
      exact spends_redispatch hat rfl rfl rfl (fun _ _ hw => nomatch hw) (nil_sublist _)
    · rw [hhand]
      exact spends_redispatch hat rfl rfl rfl (fun _ _ hw => nomatch hw) (List.Sublist.refl _)
    · rw [hhand]
      exact spends_redispatch hat rfl rfl rfl (fun _ _ hw => nomatch hw) (List.Sublist.refl _)
  | counted hat =>
    exact hlocal (spends_redispatch hat rfl rfl rfl (fun _ _ hw => nomatch hw)
      (List.Sublist.refl _))
  | sent hat => exact hlocal (spends_sent hat)
  | @released l rest now w hat hw =>
    have hkeys : s.r.keys =
        l.key :: ({ s.r with dispatch := .handing rest } : Redriver).keys := by
      unfold Redriver.keys Redriver.untried
      rw [hat]
      rfl
    refine h.call hwal hw (spends_redispatch hat rfl rfl rfl (fun _ _ hw => nomatch hw)
      (sublist_cons_self _ _)) ?_
    -- the lease that was in hand is not one of those left
    rintro x hx - ⟨token, it, hfence, hheld⟩ hlast -
    have hl : l ∈ s.r.leases := by
      unfold Redriver.leases
      rw [hat]
      exact mem_append_left _ mem_cons_self
    obtain ⟨hlsn, hid⟩ := h.last_of_held hl hfence hheld
    have hsame : x = l.key :=
      Prod.ext hid.symm (Option.some.inj (hlast.symm.trans hlsn))
    have honce := h.once
    rw [hkeys] at honce
    exact absurd (hsame ▸ hx) (nodup_cons.mp honce).1
  | unreleased hat =>
    exact hlocal (spends_redispatch hat rfl rfl rfl (fun _ _ hw => nomatch hw)
      (sublist_cons_self _ _))
  | received hj hat =>
    exact hlocal (spends_moved ⟨rfl, rfl, rfl, rfl, rfl⟩ hj (fun _ => by rw [hat]; rfl) rfl
      (List.Subset.refl _))
  | begun hj hat => exact hlocal (spends_begun hj hat)
  | checkpointed hj hat hw =>
    refine h.call hwal hw (spends_refl rfl rfl rfl rfl) ?_
    intro x _ hrefunded
    cases hrefunded
  | returned hj | unsettled hj | failed hj | cleared hj | lowered hj =>
    exact hlocal (spends_moved ⟨rfl, rfl, rfl, rfl, rfl⟩ hj (fun hu => nomatch hu) rfl
      (List.Subset.refl _))
  | @settled i j x now w hj hat hw =>
    have hpart : (s.posted i j x w).called = s.r.called ∧
        s.r.undone ⊆ (s.posted i j x w).undone := by
      unfold Redrive.posted Redriver.await
      split
      · refine ⟨rfl, ?_⟩
        split
        · exact subset_cons_self _ _
        · exact List.Subset.refl _
      · exact ⟨rfl, List.Subset.refl _⟩
    refine h.call hwal hw (spends_moved (kept_posted s i j x w).toMoved hj ?_ hpart.1 hpart.2) ?_
    · intro hu
      split at hu <;> cases hu
    · -- the lease of the job is the last one charged, and is written down as undone
      rintro y hy hrefunded ⟨token, it, hfence, hheld⟩ hlast hlen
      have hjob := mem_of_getElem? hj
      have hl : j.lease ∈ s.r.leases :=
        mem_append_right _ (mem_map_of_mem hjob)
      rw [hok.tokens.shown j hjob x hat] at hfence
      obtain ⟨hlsn, hid⟩ := h.last_of_held hl hfence hheld
      have hlogged : s.logged w = true := by
        unfold Redrive.logged
        rw [hwal.next, hwal'.next]
        simp only [ne_eq, decide_not, Bool.not_eq_true', decide_eq_false_iff_not]
        omega
      have hundone : (s.posted i j x w).undone =
          (j.lease.id, j.lease.lsn, w.log.length) :: s.r.undone := by
        unfold Redrive.posted
        rw [if_pos hlogged]
        exact if_pos hrefunded
      rw [hundone, ← hid, ← Option.some.inj (hlast.symm.trans hlsn)]
      exact mem_cons_self
  | @confirmed i lsn j x now w hj hat hw =>
    refine hback rfl hw (spends_moved (kept_confirm s.r i j x now).toMoved hj (fun hu => nomatch hu)
      ?_ ?_)
    · unfold Redriver.confirm Redriver.holdDependency
      split <;> rfl
    · unfold Redriver.confirm Redriver.holdDependency
      split <;> exact List.Subset.refl _

end Steps

section Results

variable {o : WalOptions} {cfg : RedriveConfig} {s : Redrive}

/-- The handler calls under the leases a record got since its last Append or Requeue, but
for those whose attempt a Release or a Nack in the log took back. -/
def Redrive.spent (s : Redrive) (id : Bytes) : List (Bytes × Nat) :=
  s.r.called.filter fun x =>
    x.1 = id ∧ (account id s.wal.log).since < x.2 ∧ ∀ u ∈ s.r.undone, (u.1, u.2.1) ≠ x

theorem charged_new (o : WalOptions) (max : Int64) : (Redrive.new (.new o)).Charged max :=
  ⟨fun _ hids => (nomatch hids), nodup_nil, fun _ hl => (nomatch hl),
    fun _ _ hat => (nomatch hat), fun _ hl => (nomatch hl), fun _ hx => (nomatch hx),
    fun _ hl => (nomatch hl), fun _ hx => (nomatch hx)⟩

theorem charged_run {acts : List RedriveAct}
    (hsound : RunAll (Redrive.step o (newRedriver cfg)) (Redrive.Sound o) (.new (.new o)) acts)
    (hrun : run (Redrive.step o (newRedriver cfg)) (.new (.new o)) acts = some s) :
    s.Charged (newRedriver cfg).maxAttempts ∧ s.wal.durable ≤ s.wal.log.length := by
  have hcap := (capacity_pos cfg).le
  have hinv : s.Ok (newRedriver cfg).capacity ∧ s.Charged (newRedriver cfg).maxAttempts ∧
      ∃ closed active, WalOk o o.signing s.wal closed active := by
    refine run_invariant_of (Redrive.step o (newRedriver cfg))
      (I := fun s => s.Ok (newRedriver cfg).capacity ∧ s.Charged (newRedriver cfg).maxAttempts ∧
        ∃ closed active, WalOk o o.signing s.wal closed active) ?_ hsound
      ⟨redriveOk_new hcap (indexed_new o.lim) rfl rfl, charged_new o _, [], [], walOk_new o⟩ hrun
    rintro s a t ha ⟨hok, hcharged, closed, active, hwal⟩ hstep
    obtain ⟨closed', active', hwal'⟩ := Redrive.walOk_step hwal ha hstep
    refine ⟨?_, hcharged.step hok hwal hwal' hstep, closed', active', hwal'⟩
    cases a with
    | crash c =>
      obtain ⟨w, hw, rfl⟩ := onStore_eq_some hstep
      exact Redrive.Ok.crashed hcap hw hwal'
    | _ => exact hok.step hcap rfl hstep
  obtain ⟨-, hcharged, closed, active, hwal⟩ := hinv
  exact ⟨hcharged, hwal.durable_le⟩

/-- At every step of any history of redrivers with one `MaxAttempts` on a store, over
crashes and reopenings, if what the steps write can be read back: the handler calls for a
record that was new with no attempts, since its last Append or Requeue and but for those
that were undone, are at most `MaxAttempts`. -/
theorem handler_calls_le_max_attempts (o : WalOptions) (cfg : RedriveConfig)
    (acts : List RedriveAct) (s : Redrive)
    (hsound : RunAll (Redrive.step o (newRedriver cfg)) (Redrive.Sound o) (.new (.new o)) acts)
    (hrun : run (Redrive.step o (newRedriver cfg)) (.new (.new o)) acts = some s) (id : Bytes)
    (hnew : ∀ r, .append r ∈ s.wal.log → r.id = id → r.attempts = 0)
    (hlen : s.wal.log.length < 2 ^ 63) :
    ((s.spent id).length : Int) ≤ (newRedriver cfg).maxAttempts.toInt := by
  obtain ⟨h, hdisk⟩ := charged_run hsound hrun
  have hspent : ∀ x ∈ s.spent id, x ∈ s.r.called ∧ x.1 = id ∧
      (account id s.wal.log).since < x.2 ∧ ∀ u ∈ s.r.undone, (u.1, u.2.1) ≠ x := by
    intro x hx
    obtain ⟨hmem, hcond⟩ := mem_filter.mp hx
    exact ⟨hmem, of_decide_eq_true hcond⟩
  by_cases hnone : s.spent id = []
  · have hpos : 0 ≤ (newRedriver cfg).maxAttempts.toInt := by
      have hzero : (0 : Int64).toInt = 0 := rfl
      unfold newRedriver
      simp only
      split
      · decide
      · next hlt =>
        rw [Int64.not_le, Int64.lt_iff_toInt_lt, hzero] at hlt
        exact hlt.le
    rw [hnone]
    exact hpos
  · -- the last of the leases
    obtain ⟨k, hk, hmax⟩ : ∃ k ∈ (s.spent id).map Prod.snd,
        ∀ i ∈ (s.spent id).map Prod.snd, i ≤ k := by
      obtain ⟨x, hx⟩ := exists_mem_of_ne_nil _ hnone
      have hne : ((s.spent id).map Prod.snd).toFinset.Nonempty :=
        ⟨x.2, mem_toFinset.mpr (mem_map_of_mem hx)⟩
      obtain ⟨k, hk, hmax⟩ := Finset.exists_max_image _ (fun i => i) hne
      exact ⟨k, mem_toFinset.mp hk, fun i hi => hmax i (mem_toFinset.mpr hi)⟩
    obtain ⟨x, hx, rfl⟩ := mem_map.mp hk
    obtain ⟨hcalled, hid, -⟩ := hspent x hx
    obtain ⟨hdur, r, hr, hrid, hattempts⟩ := h.called x hcalled
    have hcount : ((s.spent id).map Prod.snd).length ≤
        (account id (s.wal.log.take x.2)).charged.length := by
      have hpair : ∀ i ∈ (s.spent id).map Prod.snd, (id, i) ∈ s.spent id := by
        intro i hi
        obtain ⟨y, hy, rfl⟩ := mem_map.mp hi
        have heq : (id, y.2) = y := Prod.ext (hspent y hy).2.1.symm rfl
        rw [heq]
        exact hy
      refine length_le_charged s.r.undone ?_ ?_ ?_ ?_ (hdur.trans hdisk) hmax
      · refine List.Nodup.map_on ?_ ((nodup_append.mp h.once).2.1.filter _)
        intro y hy z hz heq
        exact Prod.ext ((hspent y hy).2.1.trans (hspent z hz).2.1.symm) heq
      · intro i hi
        exact h.stands _ (mem_append_right _ (hspent _ (hpair i hi)).1)
      · exact fun i hi => (hspent _ (hpair i hi)).2.2.1
      · exact fun i hi p hp => (hspent _ (hpair i hi)).2.2.2 _ hp rfl
    have hle := charged_le_attempts
      (fun ids hids => h.unique ids (take_subset _ _ hids))
      (fun r hr => hnew r (take_subset _ _ hr))
      (by rw [length_take]; omega) hr (hrid.trans hid)
    have hmax' := Int64.le_iff_toInt_le.mp hattempts
    rw [length_map] at hcount
    omega

/-- A redriver that gives up after one attempt. -/
def strict : RedriveConfig :=
  ⟨1, 100, 10, 1, fun _ => 5⟩

/-- A record is leased and given to the handler. -/
def handledAt (now : Time) (token : String) : List RedriveAct :=
  (leaseOne now token).append [.count, .send, .hand, .receive 0, .begin 0]

/-- The whole log is there behind the crash. -/
def nothingLost : Crash :=
  ⟨10000, none, false, [], false⟩

/-- The process ends in the handler, and the record is leased again. -/
def crashedInHandler : List RedriveAct :=
  .client (.append (plainRecord "a" (str "v"))) 5 :: .start true ::
    (handledAt 10 "t").append (.crash nothingLost :: .start true :: leaseOne 500 "u")

def Entry.unspent : Entry → Bool
  | .append r => decide (r.attempts = 0)
  | _ => true

theorem handler_calls_le_max_attempts_crash :
    ∃ s, run (Redrive.step plainOptions (newRedriver strict)) (.new (.new plainOptions))
        crashedInHandler = some s ∧
      s.spent (str "a") = [(str "a", 2)] ∧ ((s.spent (str "a")).length : Int) ≤ 1 := by
  obtain ⟨s, hs, hspent, hlen, hall⟩ : ∃ s, run (Redrive.step plainOptions (newRedriver strict))
      (.new (.new plainOptions)) crashedInHandler = some s ∧
        s.spent (str "a") = [(str "a", 2)] ∧ s.wal.log.length < 2 ^ 63 ∧
          s.wal.log.all Entry.unspent := by
    decide +kernel
  refine ⟨s, hs, hspent, handler_calls_le_max_attempts plainOptions strict crashedInHandler s
    (by decide +kernel) hs (str "a") ?_ hlen⟩
  intro r hr _
  exact of_decide_eq_true (all_eq_true.mp hall _ hr)

/-- The handler is called, its attempt is taken back, and the process ends before `Nack`
returns. -/
def crashedInNack : List RedriveAct :=
  .client (.append (plainRecord "a" (str "v"))) 5 :: .start true ::
    (handledAt 10 "t").append
      (.returned 0 (.blocked (str "db") true) [] :: .settle 0 20 :: .background .syncStart ::
        .background .syncDone :: .crash nothingLost :: .start true :: handledAt 500 "u")

/-- Two calls in one period with a budget of one, and no Release or Nack has returned nil. -/
theorem unconfirmed_refund_is_not_counted :
    ∃ s, run (Redrive.step plainOptions (newRedriver strict)) (.new (.new plainOptions))
        crashedInNack = some s ∧
      (newRedriver strict).maxAttempts = 1 ∧ s.r.called = [(str "a", 4), (str "a", 2)] ∧
        s.r.refunds = [] ∧ (account (str "a") s.wal.log).since = 1 := by
  decide +kernel

end Results

end Dlq
end GoGuard
