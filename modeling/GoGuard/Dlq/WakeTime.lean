import GoGuard.Dlq.MachineIndex

/-!
# Cached wake times

A group remembers how long it may be left out of the scan.  The time is right
as long as nothing in the group can be leased before it.  An operation keeps
that if it makes no item eligible in a group whose wake time it leaves alone
(`Calmer`); every operation that makes an item eligible sooner clears the wake
time of the item's group first (`Rested`).
-/

namespace GoGuard
namespace Dlq
namespace Machine

open Lib List

section Relations

/-- Before the wake time of a group nothing in it is eligible. -/
def WakeOk (m : Machine) : Prop :=
  ∀ d g, m.groups.get d = some g → isZero g.wake = false →
    ∀ p ∈ g.items, ∀ t < g.wake, m.eligibleAt t p = false

/-- The group of an item has no wake time. -/
def Rested (m : Machine) (id : Bytes) : Prop :=
  ∀ it dep g, m.items.get id = some it → it.grp = some dep → m.groups.get dep = some g →
    isZero g.wake = true

/-- A group of `m'` with a wake time has it from `m`, and nothing in it can be
leased sooner than in `m`. -/
def Calmer (m m' : Machine) : Prop :=
  ∀ d g', m'.groups.get d = some g' → isZero g'.wake = false →
    ∃ g, m.groups.get d = some g ∧ g.wake = g'.wake ∧
      ∀ p ∈ g'.items, p ∈ g.items ∧
        ∀ t, m'.eligibleAt t p = true → m.eligibleAt t p = true

variable {m m' : Machine}

theorem wakeOk_new (lim : Limits) : WakeOk (newMachine lim) := by
  intro d g hg
  simp [newMachine] at hg

theorem WakeOk.calmer (hw : WakeOk m) (hc : Calmer m m') : WakeOk m' := by
  intro d g' hg' hz p hp t ht
  obtain ⟨g, hg, hwake, hitems⟩ := hc d g' hg' hz
  obtain ⟨hp', helig⟩ := hitems p hp
  rw [← hwake] at hz ht
  have hnot := hw d g hg hz p hp' t ht
  by_contra hne
  rw [helig t (by simpa using hne)] at hnot
  cases hnot

theorem calmer_of_eligibleAt (hgroups : m'.groups = m.groups)
    (helig : ∀ d g p t, m.groups.get d = some g → isZero g.wake = false → p ∈ g.items →
      m'.eligibleAt t p = true → m.eligibleAt t p = true) :
    Calmer m m' := by
  intro d g hg hz
  rw [hgroups] at hg
  exact ⟨g, hg, rfl, fun p hp => ⟨hp, fun t => helig d g p t hg hz hp⟩⟩

theorem get_groups_clearWake {d dep : Bytes} {g : Group}
    (hg : (m.clearWake dep).groups.get d = some g) (hz : isZero g.wake = false) :
    m.groups.get d = some g := by
  unfold clearWake at hg
  split at hg
  · exact hg
  · rw [GoMap.get_set] at hg
    split at hg
    · cases hg
      simp [isZero] at hz
    · exact hg

theorem calmer_clearWake (m : Machine) (dep : Bytes) : Calmer m (m.clearWake dep) := by
  intro d g hg hz
  refine ⟨g, get_groups_clearWake hg hz, rfl, fun p hp => ⟨hp, fun t ht => ?_⟩⟩
  unfold clearWake at ht
  split at ht <;> exact ht

end Relations

section Items

variable {m : Machine} {it old : Item} {id : Bytes}

theorem IndexedBut.grp_of_mem (h : Indexed m) {d : Bytes} {g : Group} {p : Ptr}
    (hg : m.groups.get d = some g) (hp : p ∈ g.items) :
    ∃ it, m.items.get p.id = some it ∧ it.ptr = p ∧ it.grp = some d ∧
      it.record.shelf = some d := by
  have hshelf : p ∈ m.shelf (some d) := by
    simpa [shelf, groupFor, hg] using hp
  obtain ⟨-, it, hit, hptr, hsh⟩ := (h.shelf_mem (some d) p).mp hshelf
  exact ⟨it, hit, hptr, (h.grp _ it hit (by simp)).trans hsh, hsh⟩

/-- Changing an item is harmless if the item does not become eligible, or if its
group has no wake time. -/
theorem calmer_setItem (h : Indexed m) (hold : m.items.get id = some old)
    (hcalm : (∀ t, m.eligible it t = true → m.eligible old t = true) ∨ Rested m id) :
    Calmer m { m with items := m.items.set id it } := by
  refine calmer_of_eligibleAt rfl ?_
  intro d g p t hg hz hp helig
  unfold eligibleAt at helig ⊢
  simp only [GoMap.get_set] at helig
  by_cases hid : p.id = id
  · rw [if_pos hid] at helig
    rcases hcalm with hle | hrest
    · rw [hid, hold]
      exact hle t helig
    · obtain ⟨it', hit', -, hgrp, -⟩ := h.grp_of_mem hg hp
      rw [hid] at hit'
      rw [hrest it' d g hit' hgrp hg] at hz
      cases hz
  · rw [if_neg hid] at helig
    exact helig

theorem Rested.setItem (hr : Rested m id) (hold : m.items.get id = some old)
    (hgrp : it.grp = old.grp) : Rested { m with items := m.items.set id it } id := by
  intro it' dep g hit' hdep hg
  simp only [GoMap.get_set, if_true, Option.some.injEq] at hit'
  subst hit'
  exact hr old dep g hold (hgrp.symm.trans hdep) hg

theorem WakeOk.update (h : Indexed m) (hw : WakeOk m) (hr : Rested m id) (f : Item → Item) :
    WakeOk (m.update id f) := by
  unfold Machine.update
  split
  · exact hw
  · next it hit => exact hw.calmer (calmer_setItem h hit (.inr hr))

theorem WakeOk.resize (h : Indexed m) (hw : WakeOk m) (id : Bytes) : WakeOk (m.resize id) := by
  unfold Machine.resize
  split
  · exact hw
  · next it hit =>
    refine hw.calmer ?_
    exact calmer_setItem h hit (.inl fun t ht => ht)

end Items

section Moving

variable {m m' : Machine} {it old : Item}

/-- An element does not become eligible if its item stays and it does not become
the head of its line. -/
theorem eligibleAt_mono {p : Ptr} {t : Time} (hget : m'.items.get p.id = m.items.get p.id)
    (hhead : ∀ x, m.items.get p.id = some x →
      (m'.keyLine x.record.orderKey).head? = some x.ptr →
        (m.keyLine x.record.orderKey).head? = some x.ptr)
    (helig : m'.eligibleAt t p = true) :
    m.eligibleAt t p = true := by
  unfold eligibleAt at helig ⊢
  rw [hget] at helig
  cases hx : m.items.get p.id with
  | none => simp [hx] at helig
  | some x =>
    have hline := hhead x hx
    simp only [hx, eligible, atHead, Bool.and_eq_true, Bool.or_eq_true,
      decide_eq_true_eq] at helig ⊢
    exact ⟨helig.1, helig.2.imp_right hline⟩

theorem get_groups_unlink {d : Bytes} {g : Group} (hg : (m.unlink it).groups.get d = some g)
    (hz : isZero g.wake = false) : m.groups.get d = some g ∧ it.grp ≠ some d := by
  unfold unlink at hg
  split at hg
  · next hgrp => exact ⟨hg, by simp [hgrp]⟩
  · next dep hgrp =>
    have hd : d ≠ dep := by
      rintro rfl
      split at hg
      · simp at hg
      · simp only [GoMap.get_set, if_true, Option.some.injEq] at hg
        subst hg
        simp [isZero] at hz
    refine ⟨?_, by simpa [hgrp] using Ne.symm hd⟩
    split at hg
    · simpa [hd] using hg
    · simpa [hd] using hg

theorem get_groups_link {d : Bytes} {g : Group} (hg : (m.link it).groups.get d = some g)
    (hz : isZero g.wake = false) : m.groups.get d = some g ∧ it.record.shelf ≠ some d := by
  unfold link at hg
  split at hg
  · next hstate => exact ⟨hg, by simp [Record.shelf, hstate]⟩
  · next hstate =>
    have hd : d ≠ it.record.blockedOn := by
      rintro rfl
      simp only [GoMap.get_set, if_true, Option.some.injEq] at hg
      subst hg
      simp [isZero] at hz
    refine ⟨by simpa [hd] using hg, ?_⟩
    simpa [Record.shelf, hstate] using Ne.symm hd

theorem keyLine_unlink (m : Machine) (it : Item) (k : Bytes) :
    (m.unlink it).keyLine k = m.keyLine k := by
  unfold unlink keyLine
  split <;> rfl

theorem keyLine_link (m : Machine) (it : Item) (k : Bytes) :
    (m.link it).keyLine k = m.keyLine k := by
  unfold link keyLine
  split <;> rfl

theorem calmer_relink (h : Indexed m) (hold : m.items.get it.record.id = some old)
    (hsig : old.sig = it.sig) {it' : Item} (hid : it'.record.id = it.record.id) :
    Calmer m ((m.unlink it).link it') := by
  intro d g hg hz
  obtain ⟨hg', -⟩ := get_groups_link hg hz
  obtain ⟨hg₀, hgrp⟩ := get_groups_unlink hg' hz
  refine ⟨g, hg₀, rfl, fun p hp => ⟨hp, fun t ht => ?_⟩⟩
  have hne : p.id ≠ it'.record.id := by
    intro heq
    obtain ⟨x, hx, -, hxgrp, -⟩ := h.grp_of_mem hg₀ hp
    rw [heq, hid] at hx
    obtain rfl := Option.some.inj (hx.symm.trans hold)
    exact hgrp ((sig_parts hsig).2.2.2.symm.trans hxgrp)
  refine eligibleAt_mono ?_ ?_ ht
  · rw [get_link, if_neg hne, get_unlink]
  · intro x _ hhead
    rw [keyLine_link, keyLine_unlink] at hhead
    exact hhead

theorem rested_link (m : Machine) (it : Item) : Rested (m.link it) it.record.id := by
  intro it' dep g hit' hgrp hg
  rw [get_link, if_pos rfl] at hit'
  obtain rfl := Option.some.inj hit'
  by_contra hz
  exact (get_groups_link hg (by simpa using hz)).2 hgrp

theorem rested_clearWake {id dep : Bytes} (hit : m.items.get id = some it)
    (hgrp : it.grp = some dep) : Rested (m.clearWake dep) id := by
  intro it' dep' g hit' hgrp' hg
  rw [get_clearWake] at hit'
  obtain rfl := Option.some.inj (hit'.symm.trans hit)
  obtain rfl := Option.some.inj (hgrp'.symm.trans hgrp)
  unfold clearWake at hg
  split at hg
  · next hnone =>
    rw [hnone] at hg
    cases hg
  · simp only [GoMap.get_set, if_true, Option.some.injEq] at hg
    subst hg
    simp [isZero]

theorem WakeOk.move (h : Indexed m) (hw : WakeOk m) (hold : m.items.get it.record.id = some old)
    (hsig : old.sig = it.sig) (state : State) (dep : Bytes) :
    WakeOk (m.move it state dep) ∧ Rested (m.move it state dep) it.record.id := by
  unfold Machine.move
  split
  · next hsame =>
    obtain ⟨hsome, -, -⟩ := hsame
    obtain ⟨d, hd⟩ := Option.isSome_iff_exists.mp hsome
    have hcount := h.count ((m.counts.add it.record.state (-1)).add state 1) m.bytes
    have hclear := hcount.clearWake (it.grp.getD [])
    have hget := (get_clearWake
      { m with counts := (m.counts.add it.record.state (-1)).add state 1 }
      (it.grp.getD []) it.record.id).trans hold
    have hgrp : old.grp = some (it.grp.getD []) := by
      rw [(sig_parts hsig).2.2.2, hd]
      rfl
    have hrest := rested_clearWake (m := { m with
      counts := (m.counts.add it.record.state (-1)).add state 1 }) hold hgrp
    constructor
    · have hcalm : Calmer m
          { m with counts := (m.counts.add it.record.state (-1)).add state 1 } :=
        calmer_of_eligibleAt rfl fun _ _ _ _ _ _ _ ht => ht
      have hwake := (hw.calmer hcalm).calmer (calmer_clearWake _ (it.grp.getD []))
      exact hwake.calmer (calmer_setItem hclear hget (.inr hrest))
    · exact hrest.setItem hget (sig_parts hsig).2.2.2.symm
  · exact ⟨hw.calmer (calmer_relink h hold hsig rfl), rested_link _ (moved it state dep)⟩

end Moving

section Records

variable {m : Machine} {it : Item}

theorem calmer_insertItem (h : Indexed m) (hnew : m.items.get it.record.id = none) (size : Nat) :
    Calmer m (m.insertItem it size) := by
  intro d g hg hz
  obtain ⟨hg₀, -⟩ :=
    get_groups_link (m := { m with order := m.order ++ [it.ptr] }) hg hz
  refine ⟨g, hg₀, rfl, fun p hp => ⟨hp, fun t ht => ?_⟩⟩
  obtain ⟨x, hx, hptr, -, -⟩ := h.grp_of_mem hg₀ hp
  have hne : p.id ≠ it.record.id := by
    intro heq
    rw [heq, hnew] at hx
    cases hx
  refine eligibleAt_mono ?_ ?_ ht
  · have hlink := get_link { m with order := m.order ++ [it.ptr] } it p.id
    rw [if_neg hne] at hlink
    exact hlink
  · intro y hy hhead
    unfold keyLine insertItem at hhead
    split at hhead
    · exact hhead
    · next hkey =>
      rw [GoMap.get_set] at hhead
      split at hhead
      · next heq =>
        -- the record is in its line already, so the head stays
        have hmem : y.ptr ∈ m.keyLine y.record.orderKey :=
          (h.key_mem _ _).mpr ⟨by rw [heq]; exact hkey, y, h.get_ptr hy, rfl, rfl⟩
        unfold keyLine at hmem ⊢
        rw [← heq, Option.getD_some, List.head?_append_of_ne_nil _
          (ne_nil_of_mem hmem)] at hhead
        exact hhead
      · exact hhead

theorem rested_wakeNext {x : Item} {d : Bytes} {l : List Ptr} {p : Ptr}
    (hx : m.items.get x.ptr.id = some x) (hgrp : x.grp = some d) (hhead : l.head? = some p)
    (hnext : l.tail.head? = some x.ptr) : m.wakeNext l p = m.clearWake d := by
  cases l with
  | nil => cases hhead
  | cons a l =>
    cases l with
    | nil => cases hnext
    | cons b l =>
      obtain rfl := Option.some.inj hhead
      have hb : b = x.ptr := Option.some.inj hnext
      subst hb
      simp [wakeNext, hx, hgrp]

theorem groups_wakeNext {l : List Ptr} {p : Ptr} {d : Bytes} {g : Group}
    (hg : (m.wakeNext l p).groups.get d = some g) (hz : isZero g.wake = false) :
    m.groups.get d = some g := by
  rcases wakeNext_cases m l p with hsame | ⟨dep, hclear⟩
  · rw [hsame] at hg
    exact hg
  · rw [hclear] at hg
    exact get_groups_clearWake hg hz

theorem calmer_remove (h : Indexed m) (hit : m.items.get it.record.id = some it) :
    Calmer m (m.remove it) := by
  intro d g hg hz
  let m₁ : Machine :=
    { m.unlink it with
      order := m.order.erase it.ptr
      items := m.items.del it.record.id
      bytes := m.bytes - it.size }
  have hg₁ : m₁.groups.get d = some g := by
    change (m₁.removeKey it).groups.get d = some g at hg
    unfold removeKey at hg
    split at hg
    · exact hg
    · exact groups_wakeNext hg hz
  obtain ⟨hg₀, hgrp⟩ := get_groups_unlink hg₁ hz
  refine ⟨g, hg₀, rfl, fun p hp => ⟨hp, fun t ht => ?_⟩⟩
  obtain ⟨x, hx, hptr, hxgrp, -⟩ := h.grp_of_mem hg₀ hp
  have hne : p.id ≠ it.record.id := by
    intro heq
    rw [heq] at hx
    obtain rfl := Option.some.inj (hx.symm.trans hit)
    exact hgrp hxgrp
  have hx₁ : m₁.items.get p.id = some x := by
    rw [GoMap.get_del, if_neg hne]
    exact hx
  have hitems : (m.remove it).items = m₁.items := (removeKey_outside m₁ it).2.1
  refine eligibleAt_mono ?_ ?_ ht
  · rw [hitems, hx₁, hx]
  · intro y hy hhead
    obtain rfl := Option.some.inj (hy.symm.trans hx)
    change ((m₁.removeKey it).keyLine y.record.orderKey).head? = some y.ptr at hhead
    have hkey₁ : ∀ k, m₁.keyLine k = m.keyLine k := keyLine_unlink m it
    rw [keyLine_removeKey, hkey₁] at hhead
    split at hhead
    · next hkey =>
      obtain ⟨hkeyed, heq⟩ := hkey
      cases hline : m.keyLine y.record.orderKey with
      | nil => simp [hline] at hhead
      | cons a l =>
        rw [hline] at hhead
        by_cases ha : a = it.ptr
        · -- the successor's group was cleared, so it has no wake time
          subst ha
          rw [erase_cons_head] at hhead
          have hclear : m₁.wakeNext ((m₁.byKey.get it.record.orderKey).getD []) it.ptr =
              m₁.clearWake d := by
            refine rested_wakeNext ?_ hxgrp ?_ ?_
            · rw [hptr]
              exact hx₁
            · change (m₁.keyLine it.record.orderKey).head? = _
              rw [hkey₁, ← heq, hline]
              rfl
            · change (m₁.keyLine it.record.orderKey).tail.head? = _
              rw [hkey₁, ← heq, hline]
              exact hhead
          have hrest : isZero g.wake = true := by
            refine rested_clearWake hx₁ hxgrp y d g ((get_clearWake _ _ _).trans hx₁)
              hxgrp ?_
            change (m₁.removeKey it).groups.get d = some g at hg
            unfold removeKey at hg
            rw [if_neg hkeyed, hclear] at hg
            exact hg
          rw [hrest] at hz
          cases hz
        · rw [erase_cons_tail (by simpa using ha)] at hhead
          exact hhead
    · exact hhead

end Records

section Operations

variable {m : Machine} {it : Item}

section

variable (h : Indexed m) (hw : WakeOk m)
include h hw

theorem WakeOk.insert {r : Record} : WakeOk (m.insert r) := by
  unfold Machine.insert
  split
  · exact hw
  · next hnew =>
    exact hw.calmer (calmer_insertItem h (by simpa [Item.new] using hnew) r.size)

theorem WakeOk.insertOffloaded {r : Record} (body : BlobRef) :
    WakeOk (m.insertOffloaded r body) := by
  unfold Machine.insertOffloaded
  split
  · exact hw
  · next hnew =>
    refine hw.calmer (calmer_insertItem h ?_ r.size)
    simpa [offloadedItem, Item.new, strip] using hnew

theorem WakeOk.reserve (hit : m.items.get it.record.id = some it) : WakeOk (m.reserve it) := by
  refine hw.calmer (calmer_setItem h hit (.inl ?_))
  intro t ht
  simp [eligible] at ht

theorem WakeOk.unreserve (hit : m.items.get it.record.id = some it) : WakeOk (m.unreserve it) := by
  unfold Machine.unreserve
  split
  · exact hw
  · split
    · next hgrp =>
      refine hw.calmer (calmer_setItem h hit (.inr ?_))
      intro it' dep g hit' hgrp' _
      obtain rfl := Option.some.inj (hit'.symm.trans hit)
      rw [hgrp] at hgrp'
      cases hgrp'
    · next dep hgrp =>
      -- clearing first gives the same machine
      have hcomm : (m.store { it with reserved := false }).clearWake dep =
          (m.clearWake dep).store { it with reserved := false } := by
        unfold Machine.clearWake Machine.store
        cases m.groups.get dep <;> rfl
      rw [hcomm]
      refine (hw.calmer (calmer_clearWake m dep)).calmer ?_
      exact calmer_setItem (h.clearWake dep) ((get_clearWake _ _ _).trans hit)
        (.inr (rested_clearWake hit hgrp))

theorem WakeOk.moveUpdate {old : Item}
    (hold : m.items.get it.record.id = some old) (hsig : old.sig = it.sig)
    (state : State) (dep : Bytes) (f : Item → Item) :
    WakeOk ((m.move it state dep).update it.record.id f) := by
  obtain ⟨hwake, hrest⟩ := hw.move h hold hsig state dep
  exact hwake.update (h.move hold hsig state dep) hrest f

theorem WakeOk.grantOne (hit : m.items.get it.record.id = some it)
    (token : Bytes) (expires : Time) : WakeOk (m.grantOne it token expires) := by
  have hsig : it.sig = Item.sig { it with token := token, leaseUntil := expires } := rfl
  refine WakeOk.moveUpdate h hw ?_ hsig _ _ _
  exact hit

theorem WakeOk.grant
    (picked : List (Ptr × Bytes)) (now : Time) (ttl : Int) : WakeOk (m.grant picked now ttl) := by
  unfold Machine.grant
  induction picked generalizing m with
  | nil => exact hw
  | cons x picked ih =>
    simp only [foldl_cons]
    cases hit : m.items.get x.1.id with
    | none => exact ih h hw
    | some it =>
      have hit' : m.items.get it.record.id = some it := h.get_ptr hit
      exact ih (h.grantOne hit' x.2 (now + ttl)) (hw.grantOne h hit' x.2 (now + ttl))

theorem WakeOk.updateAside (id : Bytes) {f : Item → Item}
    (hf : ∀ it t, m.eligible (f it) t = true → m.eligible it t = true) :
    WakeOk (m.update id f) := by
  unfold Machine.update
  split
  · exact hw
  · next it hit => exact hw.calmer (calmer_setItem h hit (.inl (hf it)))

theorem WakeOk.setCheckpoint (id : Bytes) (cp : Option Bytes) : WakeOk (m.setCheckpoint id cp) := by
  refine WakeOk.resize ?_ ?_ id
  · exact h.update id fun _ => rfl
  · exact hw.updateAside h id fun _ _ ht => ht

theorem WakeOk.setCheckpointRef
    (id : Bytes) (n : Nat) (ref : BlobRef) : WakeOk (m.setCheckpointRef id n ref) := by
  refine WakeOk.resize ?_ ?_ id
  · exact h.update id fun _ => rfl
  · exact hw.updateAside h id fun _ _ ht => ht

theorem WakeOk.applyNack (hit : m.items.get it.record.id = some it)
    (stamp next : Time) (errText blockedOn : Bytes) (refund : Bool) :
    WakeOk (m.applyNack it stamp next errText blockedOn refund) := by
  refine WakeOk.resize ?_ (hw.moveUpdate h hit rfl _ _ _) it.record.id
  exact (h.move hit rfl _ _).update _ fun _ => rfl

theorem WakeOk.applyRelease
    (hit : m.items.get it.record.id = some it) : WakeOk (m.applyRelease it) :=
  hw.moveUpdate h hit rfl _ _ _

theorem WakeOk.applyPark (hit : m.items.get it.record.id = some it)
    (stamp : Time) (reason : Bytes) : WakeOk (m.applyPark it stamp reason) := by
  refine WakeOk.resize ?_ (hw.moveUpdate h hit rfl _ _ _) it.record.id
  exact (h.move hit rfl _ _).update _ fun _ => rfl

theorem WakeOk.applyRequeue
    (hit : m.items.get it.record.id = some it) (replace : Bool) (cp : Option Bytes) :
    WakeOk (m.applyRequeue it replace cp) := by
  unfold Machine.applyRequeue
  split
  · refine WakeOk.setCheckpoint ?_ (hw.moveUpdate h hit rfl _ _ _) it.record.id cp
    exact (h.move hit rfl _ _).update _ fun _ => rfl
  · exact hw.moveUpdate h hit rfl _ _ _

end

end Operations

section Scanning

variable {m : Machine}

/-- What the scan of a list adds to what it has found: the eligible elements in
order, all of them or at least `max` in total. -/
theorem scanItems_found (m : Machine) (now : Time) (max : Int) (l out : List Ptr) (next : Time) :
    ∃ found, (m.scanItems now max l out next).1 = out ++ found ∧
      found <+: l.filter (m.eligibleAt now) ∧
        (found = l.filter (m.eligibleAt now) ∨ max.toNat ≤ (out ++ found).length) := by
  induction l generalizing out next with
  | nil => exact ⟨[], by simp [scanItems]⟩
  | cons p l ih =>
    unfold scanItems
    by_cases hp : m.eligibleAt now p = true
    · rw [if_pos hp, filter_cons_of_pos hp]
      by_cases hmax : ((out ++ [p]).length : Int) = max
      · rw [if_pos hmax]
        refine ⟨[p], rfl, ?_, .inr (by omega)⟩
        exact cons_prefix_cons.mpr ⟨rfl, nil_prefix⟩
      · rw [if_neg hmax]
        obtain ⟨found, hres, hpre, hall⟩ := ih (out ++ [p]) next
        refine ⟨p :: found, by simpa using hres,
          cons_prefix_cons.mpr ⟨rfl, hpre⟩, ?_⟩
        refine hall.imp (congrArg (p :: ·)) fun hlen => ?_
        simpa using hlen
    · rw [if_neg hp, filter_cons_of_neg hp]
      exact ih out (nextWake now (m.waitsUntil p) next)

variable {now next wake t : Time} {max : Int} {l : List Ptr} {p : Ptr} {req : LeaseRequest}
  {x : Machine × List (List Ptr)}

theorem scanItems_nothing {out : List Ptr}
    (hscan : m.scanItems now max l out next = ([], some wake)) :
    (∀ p ∈ l, m.eligibleAt now p = false) ∧
      wake = l.foldl (fun n p => nextWake now (m.waitsUntil p) n) next := by
  induction l generalizing out next with
  | nil =>
    simp only [scanItems, Prod.mk.injEq, Option.some.injEq] at hscan
    exact ⟨by simp, hscan.2.symm⟩
  | cons p l ih =>
    unfold scanItems at hscan
    by_cases hp : m.eligibleAt now p = true
    · -- what has been found stays
      rw [if_pos hp] at hscan
      split at hscan
      · simp at hscan
      · obtain ⟨found, hres, -, -⟩ := scanItems_found m now max l (out ++ [p]) next
        rw [hscan] at hres
        simp at hres
    · rw [if_neg hp] at hscan
      obtain ⟨hnone, hwake⟩ := ih hscan
      refine ⟨?_, hwake⟩
      intro q hq
      rcases mem_cons.mp hq with rfl | hq
      · simpa using hp
      · exact hnone q hq

/-- A clock reading for which a zero `next` in `scanGroup` means that nothing was
found: the zero time does not lie between the reading and the latest wake time,
or nothing in a group waits until exactly the zero time. -/
def ClockOk (m : Machine) (now : Time) : Prop :=
  now < zeroTime → zeroTime < now + maxWakeSkew →
    ∀ d ∈ m.groups.keys, ∀ p ∈ (m.groupFor d).items, m.waitsUntil p ≠ zeroTime

instance
    (m : Machine) (now : Time) :
    Decidable (ClockOk m now) := by
  unfold ClockOk
  infer_instance

/-- `next` is no later than any time after `now` that was met, apart from times
beyond the latest wake time. -/
theorem nextWake_fold {limit : Time} (waits : Ptr → Time) (l : List Ptr) (next : Time)
    (hzero : ∀ p ∈ l, now < waits p → waits p = zeroTime → limit ≤ zeroTime) :
    (∀ w, limit ≤ w ∨ (isZero next = false ∧ next ≤ w) →
      limit ≤ w ∨
        (isZero (l.foldl (fun n p => nextWake now (waits p) n) next) = false ∧
          l.foldl (fun n p => nextWake now (waits p) n) next ≤ w)) ∧
      ∀ p ∈ l, now < waits p →
        limit ≤ waits p ∨
          (isZero (l.foldl (fun n p => nextWake now (waits p) n) next) = false ∧
            l.foldl (fun n p => nextWake now (waits p) n) next ≤ waits p) := by
  induction l generalizing next with
  | nil => exact ⟨fun w hw => hw, by simp⟩
  | cons p l ih =>
    obtain ⟨hkeep, hmet⟩ := ih (nextWake now (waits p) next)
      fun q hq => hzero q (mem_cons_of_mem _ hq)
    have hp := hzero p mem_cons_self
    refine ⟨?_, ?_⟩
    · intro w hw
      refine hkeep w ?_
      unfold nextWake
      split
      · next hnext =>
        simp only [isZero, decide_eq_true_eq, decide_eq_false_iff_not] at hw hnext hp ⊢
        by_cases hz : waits p = zeroTime
        · have hlim := hp hnext.1 hz
          grind
        · grind
      · exact hw
    · intro q hq hnow
      rcases mem_cons.mp hq with rfl | hq
      · refine hkeep _ ?_
        unfold nextWake
        simp only [isZero, decide_eq_true_eq, decide_eq_false_iff_not]
        by_cases hz : waits q = zeroTime
        · have hlim := hp hnow hz
          grind
        · split <;> grind
      · exact hmet q hq hnow

/-- What is not eligible now is not eligible before a time that is no later than
the one it waits for. -/
theorem eligibleAt_before (hnow : m.eligibleAt now p = false)
    (hwake : now < m.waitsUntil p → wake ≤ m.waitsUntil p) (ht : t < wake) :
    m.eligibleAt t p = false := by
  unfold eligibleAt waitsUntil at *
  cases hx : m.items.get p.id with
  | none => rfl
  | some it =>
    simp only [hx, eligible] at hnow hwake ⊢
    by_contra hne
    simp only [Bool.not_eq_false, Bool.and_eq_true] at hne
    obtain ⟨⟨hres, hdue⟩, hhead⟩ := hne
    unfold due at hnow hdue
    cases hstate : it.record.state with
    | parked => simp [hstate] at hdue
    | pending | leased =>
      grind

/-- The times the shelves wait for do not confuse a scan at `now`. -/
def Timely (m : Machine) (now : Time) : Prop :=
  ∀ d, ∀ p ∈ m.shelf (some d), now < m.waitsUntil p → m.waitsUntil p = zeroTime →
    now + maxWakeSkew ≤ zeroTime

theorem ClockOk.timely (hc : ClockOk m now) : Timely m now := by
  intro d p hp hnow hzero
  by_contra hlim
  have hd : d ∈ m.groups.keys := by
    rw [GoMap.mem_keys_iff]
    cases hg : m.groups.get d with
    | none => simp [shelf, groupFor, hg] at hp
    | some g => exact ⟨g, rfl⟩
  rw [hzero] at hnow
  exact hc hnow (not_le.mp hlim) d hd p hp hzero

theorem wakeAfter_before
    (hzero : ∀ p ∈ l, now < m.waitsUntil p → m.waitsUntil p = zeroTime →
      now + maxWakeSkew ≤ zeroTime)
    (hscan : m.scanItems now max l [] zeroTime = ([], some next))
    (hp : p ∈ l)
    (ht : t < wakeAfter now next) :
    m.eligibleAt t p = false := by
  obtain ⟨hnone, hnext⟩ := scanItems_nothing hscan
  refine eligibleAt_before (hnone p hp) ?_ ht
  intro hnow
  have hfold := (nextWake_fold m.waitsUntil l zeroTime hzero).2 p hp hnow
  unfold wakeAfter
  split
  · next hlim => grind
  · next hlim => grind

theorem WakeOk.setGroup {dep : Bytes} {g : Group} (hw : WakeOk m)
    (hg : isZero g.wake = false → ∀ p ∈ g.items, ∀ t < g.wake, m.eligibleAt t p = false) :
    WakeOk { m with groups := m.groups.set dep g } := by
  intro d g' hg' hz p hp t ht
  simp only [GoMap.get_set] at hg'
  split at hg'
  · cases hg'
    exact hg hz p hp t ht
  · exact hw d g' hg' hz p hp t ht

theorem WakeOk.scan {dep : Bytes} {g : Group} (hw : WakeOk m) (htime : Timely m now)
    (hg : m.groups.get dep = some g) (max : Int) :
    WakeOk { m with groups := m.groups.set dep (m.scanGroup g now max).2 } := by
  refine hw.setGroup ?_
  unfold scanGroup
  split
  · next next hscan =>
    intro _ p hp t ht
    refine wakeAfter_before (fun q hq => htime dep q ?_) hscan hp ht
    simpa [shelf, groupFor, hg] using hq
  · exact fun hz p hp t ht => hw dep g hg hz p hp t ht

theorem timely_scan {dep : Bytes} {g : Group} (htime : Timely m now)
    (hg : m.groups.get dep = some g) (max : Int) :
    Timely { m with groups := m.groups.set dep (m.scanGroup g now max).2 } now := by
  obtain ⟨wake, hwake⟩ := scanGroup_group m g now max
  rw [hwake]
  intro d p hp
  refine htime d p ?_
  by_cases hd : d = dep
  · subst hd
    simpa [shelf, groupFor, hg] using hp
  · simpa [shelf, groupFor, hd] using hp

/-- `selectLease` leaves right wake times. -/
theorem WakeOk.selectLease (hw : WakeOk m) (htime : Timely m now)
    (ord : List Bytes) (req : LeaseRequest) : WakeOk (m.selectLease ord now req).1 :=
  (selectLease_keeps (P := fun m => WakeOk m ∧ Timely m now) ⟨hw, htime⟩
    (fun h hg => ⟨h.1.scan h.2 hg _, timely_scan h.2 hg _⟩) ord).1

end Scanning

end Machine

end Dlq
end GoGuard
