import GoGuard.Dlq.WakeTime
import GoGuard.Lib.Transition

/-!
# Lease selection

What `selectLease` is for: walk all records in Seq order and take the first that
may be leased (`fullScan`).  The index visits only the groups that can have
something and merges their candidates.  `selectLease_spec` says that both give
the same records whenever the index and the wake times are right; the last
section shows that they are right in every state the operations reach.
-/

namespace GoGuard
namespace Dlq
namespace Machine

open Lib List

section Specification

/-- All records of the store, in the order of `order`. -/
def liveItems (m : Machine) : List Item :=
  m.order.filterMap fun p => m.items.get p.id

/-- Pending with a next attempt that is not after `now`, or Leased with a lease
that has run out. -/
def Due (it : Item) (now : Time) : Prop :=
  (it.record.state = .pending ∧ ¬ it.record.nextAttempt > now) ∨
    (it.record.state = .leased ∧ ¬ it.leaseUntil > now)

/-- No earlier record of the store has the order key of the item. -/
def HeadOfKey (m : Machine) (it : Item) : Prop :=
  it.record.orderKey = [] ∨
    ∀ x ∈ m.liveItems, x.record.orderKey = it.record.orderKey →
      it.record.seq ≤ x.record.seq

/-- The record may be leased to the request. -/
def Selectable (m : Machine) (now : Time) (req : LeaseRequest) (it : Item) : Prop :=
  it.reserved = false ∧ Due it now ∧ HeadOfKey m it ∧
    (req.blockedOn ≠ [] → it.record.blockedOn = req.blockedOn) ∧
      it.record.blockedOn ∉ req.skip

instance
    (it : Item) (now : Time) :
    Decidable (Due it now) := by
  unfold Due
  infer_instance

instance
    (m : Machine) (it : Item) :
    Decidable (HeadOfKey m it) := by
  unfold HeadOfKey
  infer_instance

instance
    (m : Machine) (now : Time) (req : LeaseRequest) (it : Item) :
    Decidable (Selectable m now req it) := by
  unfold Selectable
  infer_instance

/-- The records a lease takes, found by walking all of them. -/
def fullScan (m : Machine) (now : Time) (req : LeaseRequest) : List Item :=
  (m.liveItems.filter fun it => Selectable m now req it).take req.max.toNat

end Specification

section Items

variable {m : Machine} {it : Item}

theorem IndexedBut.map_ptr_liveItems (h : Indexed m) : m.liveItems.map Item.ptr = m.order := by
  have hsub : ∀ l : List Ptr, (∀ p ∈ l, p ∈ m.order) →
      (l.filterMap fun p => m.items.get p.id).map Item.ptr = l := by
    intro l hl
    induction l with
    | nil => rfl
    | cons p l ih =>
      obtain ⟨it, hit, hptr⟩ := h.ptr p (hl p mem_cons_self)
      have hrest := ih fun q hq => hl q (mem_cons_of_mem _ hq)
      simp only [filterMap_cons, hit, map_cons, hptr, hrest]
  exact hsub m.order fun _ hp => hp

theorem IndexedBut.mem_liveItems (h : Indexed m) :
    it ∈ m.liveItems ↔ m.items.get it.record.id = some it := by
  unfold liveItems
  rw [mem_filterMap]
  constructor
  · rintro ⟨p, -, hit⟩
    exact h.get_ptr hit
  · intro hit
    exact ⟨it.ptr, (h.live _ it hit).2, hit⟩

theorem IndexedBut.atHead_iff (h : Indexed m) (hit : m.items.get it.record.id = some it) :
    m.atHead it = true ↔ HeadOfKey m it := by
  unfold atHead HeadOfKey
  simp only [Bool.or_eq_true, decide_eq_true_eq]
  refine or_congr_right' fun hkey => ?_
  have hline : ∀ p, p ∈ m.keyLine it.record.orderKey ↔
      ∃ x, m.items.get p.id = some x ∧ x.ptr = p ∧
        x.record.orderKey = it.record.orderKey := by
    intro p
    rw [h.key_mem]
    exact and_iff_right hkey
  have hasc := h.key_asc it.record.orderKey
  constructor
  · intro hhead x hx hxkey
    have hmem : x.ptr ∈ m.keyLine it.record.orderKey :=
      (hline _).mpr ⟨x, h.mem_liveItems.mp hx, rfl, hxkey⟩
    exact hasc.head?_le hhead hmem
  · intro hmin
    have hself : it.ptr ∈ m.keyLine it.record.orderKey := (hline _).mpr ⟨it, hit, rfl, rfl⟩
    obtain ⟨a, l, hl⟩ := exists_cons_of_ne_nil (ne_nil_of_mem hself)
    have hhead : (m.keyLine it.record.orderKey).head? = some a := by rw [hl]; rfl
    obtain ⟨x, hx, hxptr, hxkey⟩ := (hline a).mp (mem_of_head? hhead)
    have hle : it.record.seq ≤ x.record.seq := by
      refine hmin x ?_ hxkey
      rw [h.mem_liveItems]
      exact h.get_ptr hx
    have hge : a.seq ≤ it.ptr.seq := hasc.head?_le hhead hself
    have ha : a = it.ptr := by
      refine hasc.eq_of_key_eq (mem_of_head? hhead) hself (le_antisymm hge ?_)
      rw [← hxptr]
      exact hle
    rw [← ha]
    exact hhead

theorem due_iff (it : Item) (now : Time) : due it now = true ↔ Due it now := by
  unfold due Due
  cases it.record.state <;> simp

theorem IndexedBut.selectable_iff (h : Indexed m) (hit : m.items.get it.record.id = some it)
    (now : Time) (req : LeaseRequest) :
    Selectable m now req it ↔
      m.eligible it now = true ∧
        (req.blockedOn ≠ [] → it.record.blockedOn = req.blockedOn) ∧
          it.record.blockedOn ∉ req.skip := by
  unfold Selectable eligible
  rw [← h.atHead_iff hit, ← due_iff]
  simp [and_assoc]

end Items

section Candidates

variable (m : Machine) (now : Time) (req : LeaseRequest)

/-- What `consider` finds in the group of a dependency. -/
def candidates (dep : Bytes) : List Ptr :=
  match m.groups.get dep with
  | none => []
  | some g =>
    if g.dep ∈ req.skip then []
    else if isZero g.wake = false ∧ now < g.wake then []
    else (m.scanGroup g now req.max).1

theorem scanItems_groups (groups : GoMap Bytes Group) (max : Int) (l out : List Ptr) (next : Time) :
    scanItems { m with groups := groups } now max l out next =
      m.scanItems now max l out next := by
  induction l generalizing out next with
  | nil => rfl
  | cons p l ih =>
    have helig : eligibleAt { m with groups := groups } now p = m.eligibleAt now p := rfl
    have hwaits : waitsUntil { m with groups := groups } p = m.waitsUntil p := rfl
    simp only [scanItems, helig, hwaits, ih]

theorem consider_snd (acc : List (List Ptr)) (dep : Bytes) :
    (consider now req (m, acc) dep).2 =
      acc ++ [m.candidates now req dep].filter (· ≠ []) := by
  unfold consider candidates
  cases hg : m.groups.get dep with
  | none => simp
  | some g =>
    by_cases hskip : g.dep ∈ req.skip
    · simp [hskip]
    · by_cases hwake : isZero g.wake = false ∧ now < g.wake
      · simp [hskip, hwake]
      · simp only [if_neg hskip, if_neg hwake]
        by_cases hfound : (m.scanGroup g now req.max).1 = []
        · simp [hfound]
        · rw [if_neg hfound, filter_cons_of_pos (by simpa using hfound)]
          rfl

theorem candidates_consider (acc : List (List Ptr)) {dep d : Bytes} (hd : d ≠ dep) :
    (consider now req (m, acc) dep).1.candidates now req d = m.candidates now req d := by
  unfold consider
  split
  · rfl
  · split
    · rfl
    · split
      · rfl
      · simp only [candidates, GoMap.get_set, if_neg hd, scanGroup, scanItems_groups]

theorem consider_fold (deps : List Bytes) (acc : List (List Ptr)) (hnodup : deps.Nodup) :
    (deps.foldl (consider now req) (m, acc)).2 =
      acc ++ (deps.map (m.candidates now req)).filter (· ≠ []) := by
  induction deps generalizing m acc with
  | nil => simp
  | cons d deps ih =>
    obtain ⟨hd, hdeps⟩ := nodup_cons.mp hnodup
    have hrest : deps.map ((consider now req (m, acc) d).1.candidates now req) =
        deps.map (m.candidates now req) := by
      refine map_congr_left fun e he => ?_
      refine candidates_consider m now req acc ?_
      rintro rfl
      exact hd he
    have hstep := ih (consider now req (m, acc) d).1 (consider now req (m, acc) d).2 hdeps
    rw [foldl_cons, map_cons, ← singleton_append, filter_append,
      ← append_assoc, ← consider_snd, ← hrest]
    exact hstep

end Candidates

section Selection

variable {m : Machine} {now : Time} {req : LeaseRequest}

variable {d : Bytes} {p : Ptr} {ord : List Bytes}

theorem candidates_covers (hfound : m.candidates now req d ≠ []) :
    Covers req.max.toNat
      (m.candidates now req d, (m.shelf (some d)).filter (m.eligibleAt now)) := by
  unfold candidates at hfound ⊢
  split at hfound
  · exact absurd rfl hfound
  · next g hg =>
    split at hfound
    · exact absurd rfl hfound
    · next hskip =>
      split at hfound
      · exact absurd rfl hfound
      · next hwake =>
        have hshelf : m.shelf (some d) = g.items := by simp [shelf, groupFor, hg]
        rw [if_neg hskip, if_neg hwake, hshelf]
        obtain ⟨found, hres, hpre, hall⟩ :=
          scanItems_found m now req.max g.items [] zeroTime
        have hfst : (m.scanGroup g now req.max).1 = found := by
          rw [nil_append] at hres
          rw [← hres]
          unfold scanGroup
          split
          · next hscan => rw [hscan]
          · next hscan => rw [hscan]
        rw [hfst]
        exact ⟨hpre, hall⟩

theorem candidates_ne_nil (hw : WakeOk m) (hmax : 0 < req.max.toNat) {g : Group}
    (hg : m.groups.get d = some g) (hskip : g.dep ∉ req.skip) (hp : p ∈ g.items)
    (helig : m.eligibleAt now p = true) : m.candidates now req d ≠ [] := by
  have hawake : ¬ (isZero g.wake = false ∧ now < g.wake) := by
    rintro ⟨hz, hlt⟩
    rw [hw d g hg hz p hp now hlt] at helig
    cases helig
  simp only [candidates, hg, if_neg hskip, if_neg hawake]
  obtain ⟨found, hres, -, hall⟩ := scanItems_found m now req.max g.items [] zeroTime
  have hfound : found ≠ [] := by
    rcases hall with rfl | hlen
    · exact ne_nil_of_mem (mem_filter.mpr ⟨hp, helig⟩)
    · rintro rfl
      simp at hlen
      omega
  unfold scanGroup
  split
  · next hscan =>
    rw [hscan] at hres
    exact absurd hres.symm hfound
  · next hscan =>
    rw [hscan] at hres
    rw [hres]
    exact hfound

/-- An element of the order is selectable as the index sees it. -/
def selectableAt (m : Machine) (now : Time) (req : LeaseRequest) (p : Ptr) : Bool :=
  match m.items.get p.id with
  | none => false
  | some it => Selectable m now req it

theorem IndexedBut.fullScan_ptr (h : Indexed m) :
    (m.fullScan now req).map Item.ptr =
      (m.order.filter (m.selectableAt now req)).take req.max.toNat := by
  have hfilter : ∀ l : List Item, (∀ it ∈ l, m.items.get it.record.id = some it) →
      (l.filter fun it => Selectable m now req it).map Item.ptr =
        (l.map Item.ptr).filter (m.selectableAt now req) := by
    intro l hl
    rw [filter_map]
    refine congrArg (List.map Item.ptr) (filter_congr fun it hit => ?_)
    have hget : m.items.get it.ptr.id = some it := hl it hit
    simp [selectableAt, hget]
  unfold fullScan
  rw [map_take, hfilter _ fun it hit => h.mem_liveItems.mp hit, h.map_ptr_liveItems]

theorem IndexedBut.selectableAt_iff (h : Indexed m) (p : Ptr) :
    (p ∈ m.order ∧ m.selectableAt now req p = true) ↔
      ∃ d, p ∈ m.shelf (some d) ∧ m.eligibleAt now p = true ∧
        (req.blockedOn ≠ [] → d = req.blockedOn) ∧ d ∉ req.skip := by
  constructor
  · rintro ⟨hp, hsel⟩
    obtain ⟨it, hit, hptr⟩ := h.ptr p hp
    have hit' : m.items.get it.record.id = some it := h.get_ptr hit
    simp only [selectableAt, hit, decide_eq_true_eq] at hsel
    obtain ⟨helig, hdep, hskip⟩ := (h.selectable_iff hit' now req).mp hsel
    refine ⟨it.record.blockedOn, ?_, ?_, hdep, hskip⟩
    · refine (h.shelf_mem _ p).mpr ⟨by simp, it, hit, hptr, ?_⟩
      have hdue : due it now = true := by
        simp only [eligible, Bool.and_eq_true] at helig
        exact helig.1.2
      have hstate : it.record.state ≠ .parked := by
        intro hparked
        simp [due, hparked] at hdue
      simp [Record.shelf, hstate]
    · simp only [eligibleAt, hit]
      exact helig
  · rintro ⟨d, hp, helig, hdep, hskip⟩
    refine ⟨h.mem_order_of_shelf hp, ?_⟩
    obtain ⟨-, it, hit, hptr, hshelf⟩ := (h.shelf_mem _ p).mp hp
    have hblocked : it.record.blockedOn = d := by
      unfold Record.shelf at hshelf
      split at hshelf
      · cases hshelf
      · exact Option.some.inj hshelf
    simp only [eligibleAt, hit] at helig
    simp only [selectableAt, hit, decide_eq_true_eq]
    rw [h.selectable_iff (h.get_ptr hit)]
    rw [hblocked]
    exact ⟨helig, hdep, hskip⟩

theorem nodup_considered (hord : ord.Perm m.groups.keys) :
    (if req.blockedOn = [] then ord else [req.blockedOn]).Nodup := by
  split
  · exact hord.nodup_iff.mpr m.groups.nodup_keys
  · exact nodup_singleton _

theorem selectLease_snd (hord : ord.Perm m.groups.keys) :
    (m.selectLease ord now req).2 = mergeHeads Ptr.seq req.max.toNat
      (((if req.blockedOn = [] then ord else [req.blockedOn]).map
        (m.candidates now req)).filter (· ≠ [])) := by
  unfold Machine.selectLease
  rw [consider_fold m now req _ [] (nodup_considered hord)]
  rfl

theorem mem_selectLease (hord : ord.Perm m.groups.keys) (hp : p ∈ (m.selectLease ord now req).2) :
    ∃ d, m.candidates now req d ≠ [] ∧ p ∈ m.shelf (some d) ∧ m.eligibleAt now p = true := by
  rw [selectLease_snd hord] at hp
  obtain ⟨l, hl, hpl⟩ := mem_mergeHeads hp
  obtain ⟨hl, hfound⟩ := mem_filter.mp hl
  obtain ⟨d, -, rfl⟩ := mem_map.mp hl
  have hne : m.candidates now req d ≠ [] := by simpa using hfound
  obtain ⟨hshelf, helig⟩ := mem_filter.mp ((candidates_covers hne).1.subset hpl)
  exact ⟨d, hne, hshelf, helig⟩

/-- Only eligible records are selected, whatever the wake times say. -/
theorem IndexedBut.selectLease_sound (h : Indexed m) (hord : ord.Perm m.groups.keys)
    (hp : p ∈ (m.selectLease ord now req).2) :
    ∃ it, m.items.get p.id = some it ∧ it.ptr = p ∧ m.eligible it now = true := by
  obtain ⟨d, -, hshelf, helig⟩ := mem_selectLease hord hp
  obtain ⟨-, it, hit, hptr, -⟩ := (h.shelf_mem (some d) p).mp hshelf
  refine ⟨it, hit, hptr, ?_⟩
  unfold eligibleAt at helig
  rw [hit] at helig
  exact helig

/-- No record is selected whose dependency is to be skipped. -/
theorem IndexedBut.selectLease_skips (h : Indexed m) {it : Item} (hord : ord.Perm m.groups.keys)
    (hit : m.items.get it.record.id = some it) (hskip : it.record.blockedOn ∈ req.skip) :
    it.ptr ∉ (m.selectLease ord now req).2 := by
  intro hp
  obtain ⟨d, hne, hshelf, -⟩ := mem_selectLease hord hp
  obtain ⟨-, x, hx, -, hd⟩ := (h.shelf_mem (some d) it.ptr).mp hshelf
  obtain rfl := Option.some.inj (hit.symm.trans hx)
  have hdep : it.record.blockedOn = d := by
    unfold Record.shelf at hd
    split at hd
    · cases hd
    · exact Option.some.inj hd
  refine hne ?_
  unfold candidates
  cases hg : m.groups.get d with
  | none => rfl
  | some g =>
    have hgdep : g.dep = d := (h.group d g hg).1
    exact if_pos (by rw [hgdep, ← hdep]; exact hskip)

theorem length_selectLease_le (hord : ord.Perm m.groups.keys) :
    (m.selectLease ord now req).2.length ≤ req.max.toNat := by
  exact length_mergeHeads_le _ _

theorem IndexedBut.nodup_eligible (h : Indexed m) {deps : List Bytes} (hdeps : deps.Nodup) :
    (deps.flatMap fun d => (m.shelf (some d)).filter (m.eligibleAt now)).Nodup := by
  refine nodup_flatMap.mpr ⟨?_, hdeps.imp ?_⟩
  · exact fun d _ => ((h.shelf_asc (some d)).sublist filter_sublist).nodup
  · intro d e hde p hp hq
    exact hde (Option.some.inj (h.shelf_unique (mem_of_mem_filter hp)
      (mem_of_mem_filter hq)))

theorem IndexedBut.nodup_selectLease (h : Indexed m) (hord : ord.Perm m.groups.keys) :
    ((m.selectLease ord now req).2.map Ptr.id).Nodup := by
  refine (nodup_map_iff_inj_on ?_).mpr ?_
  · rw [selectLease_snd hord]
    have hall : ∀ ds : List Bytes,
        (((ds.map (m.candidates now req)).filter (· ≠ [])).flatten).Sublist
          (ds.flatMap fun d => (m.shelf (some d)).filter (m.eligibleAt now)) := by
      intro ds
      induction ds with
      | nil => exact List.Sublist.refl _
      | cons d ds ih =>
        rw [map_cons, filter_cons, flatMap_cons]
        split
        · next hfound =>
          exact (candidates_covers (by simpa using hfound)).1.sublist.append ih
        · exact ih.trans (sublist_append_right _ _)
    obtain ⟨l, hperm, hsub⟩ := mergeHeads_subperm Ptr.seq req.max.toNat
      (((if req.blockedOn = [] then ord else [req.blockedOn]).map
        (m.candidates now req)).filter (· ≠ []))
    refine hperm.nodup_iff.mp ?_
    exact (h.nodup_eligible (nodup_considered hord)).sublist (hsub.trans (hall _))
  · intro p hp p' hp' heq
    obtain ⟨it, hit, rfl, -⟩ := h.selectLease_sound hord hp
    obtain ⟨it', hit', rfl, -⟩ := h.selectLease_sound hord hp'
    rw [heq] at hit
    rw [Option.some.inj (hit.symm.trans hit')]

/-- With the index and the wake times right, `selectLease` is the full scan. -/
theorem IndexedBut.selectLease_spec (h : Indexed m) (hw : WakeOk m)
    (hord : ord.Perm m.groups.keys) :
    (m.selectLease ord now req).2 = (m.fullScan now req).map Item.ptr := by
  rw [h.fullScan_ptr]
  let deps := if req.blockedOn = [] then ord else [req.blockedOn]
  have hdeps : deps.Nodup := nodup_considered hord
  have hmem : ∀ d g, m.groups.get d = some g → (req.blockedOn ≠ [] → d = req.blockedOn) →
      d ∈ deps := by
    intro d g hg hdep
    change d ∈ if req.blockedOn = [] then ord else [req.blockedOn]
    split
    · exact hord.mem_iff.mpr (GoMap.mem_keys_iff.mpr ⟨g, hg⟩)
    · next hne => exact mem_singleton.mpr (hdep hne)
  have hsel : (m.selectLease ord now req).2 = mergeHeads Ptr.seq req.max.toNat
      ((deps.map (m.candidates now req)).filter (· ≠ [])) := selectLease_snd hord
  rw [hsel]
  -- nothing is asked for, or a group without candidates has nothing eligible
  rcases Nat.eq_zero_or_pos req.max.toNat with hzero | hmax
  · rw [hzero]
    rfl
  let full := fun d => (m.candidates now req d, (m.shelf (some d)).filter (m.eligibleAt now))
  let found := deps.filter fun d => m.candidates now req d ≠ []
  have hfst : (deps.map (m.candidates now req)).filter (· ≠ []) =
      (found.map full).map Prod.fst := by
    rw [filter_map, map_map]
    rfl
  rw [hfst]
  refine mergeHeads_eq_take (h.asc.sublist filter_sublist) ?_ ?_ ?_
  · -- the groups with candidates hold everything selectable, each record once
    rw [map_map, ← flatMap_def]
    refine (perm_ext_iff_of_nodup (h.asc.sublist filter_sublist).nodup ?_).mpr ?_
    · exact h.nodup_eligible (hdeps.sublist filter_sublist)
    · intro p
      rw [mem_filter, h.selectableAt_iff, mem_flatMap]
      constructor
      · rintro ⟨d, hp, helig, hdep, hskip⟩
        refine ⟨d, ?_, mem_filter.mpr ⟨hp, helig⟩⟩
        cases hg : m.groups.get d with
        | none => simp [shelf, groupFor, hg] at hp
        | some g =>
          refine mem_filter.mpr ⟨hmem d g hg hdep, ?_⟩
          have hitems : p ∈ g.items := by simpa [shelf, groupFor, hg] using hp
          have hskip' : g.dep ∉ req.skip := by
            rw [(h.group d g hg).1]
            exact hskip
          simpa using candidates_ne_nil hw hmax hg hskip' hitems helig
      · rintro ⟨d, hd, hp⟩
        obtain ⟨hp, helig⟩ := mem_filter.mp hp
        obtain ⟨hd, hcand⟩ := mem_filter.mp hd
        refine ⟨d, hp, helig, ?_, ?_⟩
        · intro hne
          change d ∈ if req.blockedOn = [] then ord else [req.blockedOn] at hd
          rw [if_neg hne] at hd
          exact mem_singleton.mp hd
        · intro hskip
          cases hg : m.groups.get d with
          | none => simp [candidates, hg] at hcand
          | some g => simp [candidates, hg, (h.group d g hg).1, hskip] at hcand
  · intro x hx
    obtain ⟨d, -, rfl⟩ := mem_map.mp hx
    exact (h.shelf_asc (some d)).sublist filter_sublist
  · intro x hx
    obtain ⟨d, hd, rfl⟩ := mem_map.mp hx
    exact candidates_covers (by simpa using (mem_filter.mp hd).2)

end Selection

section Runs

/-- The calls that change a machine.  A call about an item names it: by its
identifier, which the caller has just looked up, or by its pointer where the
caller may have kept the item (a reservation lasts while a payload is read). -/
inductive Op where
  | insert (r : Record)
  | insertOffloaded (r : Record) (body : BlobRef)
  | grant (picked : List (Ptr × Bytes)) (now : Time) (ttl : Int)
  | remove (id : Bytes)
  | applyNack (id : Bytes) (stamp next : Time) (errText blockedOn : Bytes) (refund : Bool)
  | applyRelease (id : Bytes)
  | applyPark (id : Bytes) (stamp : Time) (reason : Bytes)
  | applyRequeue (id : Bytes) (replace : Bool) (cp : Option Bytes)
  | setCheckpoint (id : Bytes) (cp : Option Bytes)
  | setCheckpointRef (id : Bytes) (n : Nat) (ref : BlobRef)
  | reserve (p : Ptr)
  | unreserve (p : Ptr)
  | selectLease (ord : List Bytes) (now : Time) (req : LeaseRequest)
deriving DecidableEq

/-- A call about a live item. -/
def withItem (m : Machine) (id : Bytes) (f : Item → Machine) : Option Machine :=
  (m.items.get id).map f

/-- One call; `none` when the caller may not make it. -/
def step (m : Machine) : Op → Option Machine
  | .insert r =>
    -- `prepare` gives a new record a Seq of its own
    if (m.items.get r.id).isSome ∨ m.seq < r.seq then some (m.insert r) else none
  | .insertOffloaded r body =>
    if (m.items.get r.id).isSome ∨ m.seq < r.seq then some (m.insertOffloaded r body)
    else none
  | .grant picked now ttl => some (m.grant picked now ttl)
  | .remove id => m.withItem id m.remove
  | .applyNack id stamp next errText blockedOn refund =>
    m.withItem id fun it => m.applyNack it stamp next errText blockedOn refund
  | .applyRelease id => m.withItem id m.applyRelease
  | .applyPark id stamp reason => m.withItem id fun it => m.applyPark it stamp reason
  | .applyRequeue id replace cp => m.withItem id fun it => m.applyRequeue it replace cp
  | .setCheckpoint id cp => some (m.setCheckpoint id cp)
  | .setCheckpointRef id n ref => some (m.setCheckpointRef id n ref)
  | .reserve p => some (m.withPtr p m.reserve)
  | .unreserve p => some (m.withPtr p m.unreserve)
  | .selectLease ord now req =>
    -- the loop over the groups visits each of them once
    if ord.Perm m.groups.keys then some (m.selectLease ord now req).1 else none

/-- The clock of an earlier scan was no trap for it. -/
def Op.ok (m : Machine) : Op → Prop
  | .selectLease _ now _ => ClockOk m now
  | _ => True

instance
    (m : Machine) (op : Op) :
    Decidable (op.ok m) := by
  cases op <;> unfold Op.ok <;> infer_instance

variable {m m' : Machine}

theorem withItem_eq_some (h : Indexed m) {id : Bytes} {f : Item → Machine}
    (hstep : m.withItem id f = some m') : ∃ it, m.items.get it.record.id = some it ∧ f it = m' := by
  obtain ⟨it, hit, rfl⟩ := Option.map_eq_some_iff.mp hstep
  exact ⟨it, h.get_ptr hit, rfl⟩

theorem withPtr_keeps (P : Machine → Prop) (h : Indexed m) {p : Ptr} {f : Item → Machine} (hm : P m)
    (hf : ∀ it, m.items.get it.record.id = some it → P (f it)) : P (m.withPtr p f) := by
  unfold withPtr
  split
  · exact hm
  · next it hit =>
    split
    · exact hf it (h.get_ptr hit)
    · exact hm

/-- Every call keeps the index and the wake times right. -/
theorem step_keeps {op : Op} (h : Indexed m ∧ WakeOk m) (hok : op.ok m)
    (hstep : step m op = some m') : Indexed m' ∧ WakeOk m' := by
  obtain ⟨hi, hw⟩ := h
  cases op with
  | insert r =>
    obtain ⟨hseq, hm⟩ := Option.ite_none_right_eq_some.mp hstep
    cases hm
    exact ⟨hi.insert hseq, hw.insert hi⟩
  | insertOffloaded r body =>
    obtain ⟨hseq, hm⟩ := Option.ite_none_right_eq_some.mp hstep
    cases hm
    exact ⟨hi.insertOffloaded hseq body, hw.insertOffloaded hi body⟩
  | grant picked now ttl =>
    cases hstep
    exact ⟨hi.grant picked now ttl, hw.grant hi picked now ttl⟩
  | remove id =>
    obtain ⟨it, hit, rfl⟩ := withItem_eq_some hi hstep
    exact ⟨hi.remove hit, hw.calmer (calmer_remove hi hit)⟩
  | applyNack id stamp next errText blockedOn refund =>
    obtain ⟨it, hit, rfl⟩ := withItem_eq_some hi hstep
    exact ⟨hi.applyNack hit _ _ _ _ _, hw.applyNack hi hit _ _ _ _ _⟩
  | applyRelease id =>
    obtain ⟨it, hit, rfl⟩ := withItem_eq_some hi hstep
    exact ⟨hi.applyRelease hit, hw.applyRelease hi hit⟩
  | applyPark id stamp reason =>
    obtain ⟨it, hit, rfl⟩ := withItem_eq_some hi hstep
    exact ⟨hi.applyPark hit _ _, hw.applyPark hi hit _ _⟩
  | applyRequeue id replace cp =>
    obtain ⟨it, hit, rfl⟩ := withItem_eq_some hi hstep
    exact ⟨hi.applyRequeue hit _ _, hw.applyRequeue hi hit _ _⟩
  | setCheckpoint id cp =>
    cases hstep
    exact ⟨hi.setCheckpoint id cp, hw.setCheckpoint hi id cp⟩
  | setCheckpointRef id n ref =>
    cases hstep
    exact ⟨hi.setCheckpointRef id n ref, hw.setCheckpointRef hi id n ref⟩
  | reserve p =>
    cases hstep
    exact withPtr_keeps (fun m => Indexed m ∧ WakeOk m) hi ⟨hi, hw⟩
      fun it hit => ⟨hi.reserve hit, hw.reserve hi hit⟩
  | unreserve p =>
    cases hstep
    exact withPtr_keeps (fun m => Indexed m ∧ WakeOk m) hi ⟨hi, hw⟩
      fun it hit => ⟨hi.unreserve hit, hw.unreserve hi hit⟩
  | selectLease ord now req =>
    obtain ⟨-, hm⟩ := Option.ite_none_right_eq_some.mp hstep
    cases hm
    exact ⟨hi.selectLease ord now req, hw.selectLease (ClockOk.timely hok) ord req⟩

theorem run_keeps {lim : Limits} {ops : List Op} (hrun : run step (newMachine lim) ops = some m)
    (hok : RunAll step (fun m op => op.ok m) (newMachine lim) ops) : Indexed m ∧ WakeOk m :=
  run_invariant_of step (fun _ _ _ hok h hstep => step_keeps h hok hstep) hok
    ⟨indexed_new lim, wakeOk_new lim⟩ hrun

/-- In every state the calls can reach, whatever wake times earlier scans left,
the indexed selection is the full scan over all records in Seq order. -/
theorem selectLease_eq_fullScan (lim : Limits) (ops : List Op) (m : Machine)
    (hrun : run step (newMachine lim) ops = some m)
    (hok : RunAll step (fun m op => op.ok m) (newMachine lim) ops)
    (ord : List Bytes) (now : Time) (req : LeaseRequest) (hord : ord.Perm m.groups.keys) :
    (m.selectLease ord now req).2 = (m.fullScan now req).map Item.ptr ∧
      Ascending (fun it => it.record.seq) m.liveItems ∧
        ∀ it, it ∈ m.liveItems ↔ m.items.get it.record.id = some it := by
  obtain ⟨hi, hw⟩ := run_keeps hrun hok
  refine ⟨hi.selectLease_spec hw hord, ?_, fun it => hi.mem_liveItems⟩
  have hasc : ((m.liveItems.map Item.ptr).map Ptr.seq).Pairwise (· < ·) := by
    rw [hi.map_ptr_liveItems]
    exact pairwise_map.mpr hi.asc
  rw [map_map] at hasc
  exact pairwise_map.mp hasc

/-- A small record. -/
def demoRecord (id : String) (seq : Nat) (orderKey blockedOn : String) (nextAttempt : Time) :
    Record where
  id := str id
  seq := seq
  state := .pending
  source := ⟨str "kafka", str "t", 0, 0⟩
  key := none
  value := none
  headers := []
  orderKey := str orderKey
  blockedOn := str blockedOn
  attempts := 0
  firstFailed := 0
  lastFailed := 0
  nextAttempt := nextAttempt
  lastError := []
  checkpoint := none
  schemaVersion := 1

def demoRequest : LeaseRequest := ⟨[], [], 2, 1000⟩

/-- A scan finds nothing and caches wake times for both groups; then the head of
key `k` leaves, and a clock that went back asks again. -/
def demoOps : List Op :=
  [.insert (demoRecord "a" 1 "k" "db" 500), .insert (demoRecord "b" 2 "k" "api" 10),
    .insert (demoRecord "c" 3 "" "db" 400), .selectLease [str "api", str "db"] 100 demoRequest,
    .applyPark (str "a") 120 (str "gone"), .remove (str "a")]

theorem selectLease_eq_fullScan_demo :
    ∃ m, run step (newMachine ⟨0, 0, 0⟩) demoOps = some m ∧
      (m.selectLease [str "db", str "api"] 50 demoRequest).2 = [⟨str "b", 2⟩] ∧
        (m.selectLease [str "db", str "api"] 50 demoRequest).2 =
          (m.fullScan 50 demoRequest).map Item.ptr := by
  obtain ⟨m, hrun⟩ : ∃ m, run step (newMachine ⟨0, 0, 0⟩) demoOps = some m :=
    Option.isSome_iff_exists.mp (by decide +kernel)
  have hm : m = (run step (newMachine ⟨0, 0, 0⟩) demoOps).getD (newMachine ⟨0, 0, 0⟩) := by
    rw [hrun]
    rfl
  refine ⟨m, hrun, ?_, ?_⟩
  · rw [hm]
    decide +kernel
  · refine (selectLease_eq_fullScan ⟨0, 0, 0⟩ demoOps m hrun (by decide +kernel) _ _ _ ?_).1
    rw [hm]
    decide +kernel

/-- A record that is due at once (a zero next attempt), and a scan by a clock
less than a second before the zero time. -/
def trapOps : List Op :=
  [.insert (demoRecord "a" 1 "" "" zeroTime),
    .selectLease [[]] (zeroTime - 500000000) demoRequest]

/-- That scan takes the zero time it has to wait for as "nothing to wait for" and
caches a wake time past the due time. -/
theorem selectLease_misses_due_record :
    ∃ (m : Machine) (ord : List Bytes) (now : Time) (req : LeaseRequest),
      run step (newMachine ⟨0, 0, 0⟩) trapOps = some m ∧ ord.Perm m.groups.keys ∧
        (m.selectLease ord now req).2 ≠ (m.fullScan now req).map Item.ptr := by
  obtain ⟨m, hrun⟩ : ∃ m, run step (newMachine ⟨0, 0, 0⟩) trapOps = some m :=
    Option.isSome_iff_exists.mp (by decide +kernel)
  have hm : m = (run step (newMachine ⟨0, 0, 0⟩) trapOps).getD (newMachine ⟨0, 0, 0⟩) := by
    rw [hrun]
    rfl
  refine ⟨m, [[]], zeroTime + 100000000, demoRequest, hrun, ?_, ?_⟩
  · rw [hm]
    decide +kernel
  · rw [hm]
    decide +kernel

end Runs

end Machine

end Dlq
end GoGuard
