import GoGuard.Dlq.SelectLease
import GoGuard.Dlq.Store

/-!
# The state machine refines the queue

Every change the machine makes to an item is a change of one element of its item
table (`Touched`).  What an item stands for is its record with the payload a
reader finds for it (`reading`): in memory, or on disk.  `Shows` relates a
machine to the queue its items stand for, and the main results say that a logged
step of a store, and the replay of an entry, are `Queue.apply`.
-/

namespace GoGuard
namespace Dlq

open Lib List

namespace Machine

section Touching

/-- The machine changed one item, and nothing else that a restart can see. -/
structure Touched (m m' : Machine) (it it' : Item) : Prop where
  order : m'.order = m.order
  get : ∀ id, m'.items.get id = if id = it.record.id then some it' else m.items.get id
  same : it'.record.id = it.record.id
  seq : m'.seq = m.seq
  bytes : m'.bytes = m.bytes + ((it'.size : Int) - it.size)
  keyLine : ∀ k, m'.keyLine k = m.keyLine k

variable {m m' m'' : Machine} {it it' it'' : Item}

theorem Touched.trans (h : Touched m m' it it') (h' : Touched m' m'' it' it'') :
    Touched m m'' it it'' := by
  refine ⟨h'.order.trans h.order, ?_, h'.same.trans h.same, h'.seq.trans h.seq, ?_, ?_⟩
  · intro id
    rw [h'.get, h.same]
    split
    · rfl
    · next hne => rw [h.get, if_neg hne]
  · rw [h'.bytes, h.bytes]
    omega
  · intro k
    rw [h'.keyLine, h.keyLine]

theorem touched_set (it : Item) (hsame : it'.record.id = it.record.id)
    (hsize : it'.size = it.size) :
    Touched m { m with items := m.items.set it.record.id it' } it it' := by
  refine ⟨rfl, fun id => GoMap.get_set .., hsame, rfl, ?_, fun _ => rfl⟩
  rw [hsize]
  simp

theorem touched_store (hsame : it'.record.id = it.record.id) (hsize : it'.size = it.size) :
    Touched m (m.store it') it it' := by
  unfold Machine.store
  rw [hsame]
  exact touched_set it hsame hsize

theorem touched_update (it : Item) (hit : m.items.get it.record.id = some it) (f : Item → Item)
    (hsame : (f it).record.id = it.record.id) (hsize : (f it).size = it.size) :
    Touched m (m.update it.record.id f) it (f it) := by
  unfold Machine.update
  rw [hit]
  exact touched_set it hsame hsize

theorem touched_resize (hit : m.items.get it.record.id = some it) :
    Touched m (m.resize it.record.id) it
      { it with size := it.record.size + it.bodyN + it.ckptN } := by
  unfold Machine.resize
  rw [hit]
  exact ⟨rfl, fun id => GoMap.get_set .., rfl, rfl, rfl, fun _ => rfl⟩

theorem touched_aside (hit : m.items.get it.record.id = some it) (horder : m'.order = m.order)
    (hitems : m'.items = m.items) (hseq : m'.seq = m.seq) (hbytes : m'.bytes = m.bytes)
    (hkey : m'.byKey = m.byKey) : Touched m m' it it := by
  refine ⟨horder, ?_, rfl, hseq, by rw [hbytes]; simp, ?_⟩
  · intro id
    rw [hitems]
    split
    · next heq => rw [heq, hit]
    · rfl
  · intro k
    unfold keyLine
    rw [hkey]

theorem touched_clearWake (hit : m.items.get it.record.id = some it) (dep : Bytes) :
    Touched m (m.clearWake dep) it it := by
  refine touched_aside hit ?_ ?_ ?_ ?_ ?_ <;>
    · unfold clearWake
      split <;> rfl

theorem touched_unlink (hit : m.items.get it'.record.id = some it') (it : Item) :
    Touched m (m.unlink it) it' it' := by
  refine touched_aside hit ?_ ?_ ?_ ?_ ?_ <;>
    · unfold unlink
      split <;> rfl

theorem touched_link {old : Item} (hsame : it.record.id = old.record.id)
    (hsize : it.size = old.size) :
    Touched m (m.link it) old { it with grp := it.record.shelf } := by
  refine ⟨?_, ?_, hsame, ?_, ?_, keyLine_link m it⟩
  · unfold link
    split <;> rfl
  · intro id
    rw [get_link, hsame]
  · unfold link
    split <;> rfl
  · have hbytes : (m.link it).bytes = m.bytes := by
      unfold link
      split <;> rfl
    rw [hbytes, hsize]
    simp

theorem touched_move {old : Item} (it : Item) (hold : m.items.get it.record.id = some old)
    (hsame : old.record.id = it.record.id) (hsize : it.size = old.size)
    (state : State) (dep : Bytes) :
    ∃ grp, Touched m (m.move it state dep) old { moved it state dep with grp := grp } := by
  have hold' : m.items.get old.record.id = some old := by rw [hsame]; exact hold
  unfold move
  split
  · refine ⟨it.grp, ?_⟩
    have hcount : Touched m
        { m with counts := (m.counts.add it.record.state (-1)).add state 1 } old old :=
      touched_aside hold' rfl rfl rfl rfl rfl
    refine hcount.trans (Touched.trans (touched_clearWake ?_ (it.grp.getD [])) ?_)
    · exact hold'
    · exact touched_store hsame.symm hsize
  · refine ⟨(moved it state dep).record.shelf, ?_⟩
    exact (touched_unlink hold' it).trans (touched_link hsame.symm hsize)

end Touching

section Revising

/-- The size an item is charged is that of what it holds and what is on disk. -/
def Fit (it : Item) : Prop :=
  it.size = it.record.size + it.bodyN + it.ckptN

/-- The item got a changed record; its payload stays where it is. -/
structure Revised (g : Record → Record) (it it' : Item) : Prop where
  record : it'.record = g it.record
  bodyRef : it'.bodyRef = it.bodyRef
  ckptRef : it'.ckptRef = it.ckptRef
  bodyN : it'.bodyN = it.bodyN
  ckptN : it'.ckptN = it.ckptN
  fit : Fit it → Fit it'

variable {m : Machine} {it : Item}

theorem touched_moveUpdate {old : Item} (it : Item) (hold : m.items.get it.record.id = some old)
    (hsame : old.record.id = it.record.id) (hsize : it.size = old.size)
    (state : State) (dep : Bytes) (f : Item → Item) (hid : ∀ x, (f x).record.id = x.record.id)
    (hsz : ∀ x, (f x).size = x.size) :
    ∃ grp, Touched m ((m.move it state dep).update it.record.id f) old
      (f { moved it state dep with grp := grp }) := by
  obtain ⟨grp, hmove⟩ := touched_move it hold hsame hsize state dep
  refine ⟨grp, hmove.trans ?_⟩
  have hget : (m.move it state dep).items.get it.record.id =
      some { moved it state dep with grp := grp } := by
    rw [hmove.get, if_pos hsame.symm]
  exact touched_update { moved it state dep with grp := grp } hget f (hid _) (hsz _)

section

variable (hit : m.items.get it.record.id = some it)
include hit

theorem touched_grantOne (token : Bytes) (expires : Time) :
    ∃ it', Touched m (m.grantOne it token expires) it it' ∧ Revised Record.lease it it' ∧
      it'.token = token := by
  obtain ⟨grp, h⟩ := touched_moveUpdate
    { it with token := token, leaseUntil := expires } hit rfl rfl .leased
    it.record.blockedOn
    (fun it => { it with record := { it.record with attempts := it.record.attempts + 1 } })
    (fun _ => rfl) (fun _ => rfl)
  exact ⟨_, h, ⟨rfl, rfl, rfl, rfl, rfl, fun hfit => hfit⟩, rfl⟩

theorem touched_replayLease :
    ∃ it', Touched m (m.replayLease it.record.id) it it' ∧ Revised Record.lease it it' := by
  obtain ⟨grp, h⟩ := touched_move
    { it with record := { it.record with attempts := it.record.attempts + 1 } }
    hit rfl rfl .leased it.record.blockedOn
  have hreplay : m.replayLease it.record.id =
      m.move { it with record := { it.record with attempts := it.record.attempts + 1 } }
        .leased it.record.blockedOn := by
    unfold Machine.replayLease
    rw [hit]
  rw [hreplay]
  exact ⟨_, h, ⟨rfl, rfl, rfl, rfl, rfl, fun hfit => hfit⟩⟩

theorem touched_applyRelease :
    ∃ it', Touched m (m.applyRelease it) it it' ∧ Revised Record.release it it' := by
  obtain ⟨grp, h⟩ := touched_moveUpdate it hit rfl rfl .pending it.record.blockedOn
    (fun it => Item.unlease
      { it with record := { it.record with attempts := refundAttempt it.record.attempts } })
    (fun _ => rfl) (fun _ => rfl)
  exact ⟨_, h, ⟨rfl, rfl, rfl, rfl, rfl, fun hfit => hfit⟩⟩

theorem touched_requeue :
    ∃ it', Touched m (m.applyRequeue it false none) it it' ∧ Revised Record.requeue it it' := by
  obtain ⟨grp, h⟩ := touched_moveUpdate it hit rfl rfl .pending it.record.blockedOn
    (fun it =>
      { it with record := { it.record with attempts := 0, nextAttempt := zeroTime } })
    (fun _ => rfl) (fun _ => rfl)
  exact ⟨_, h, ⟨rfl, rfl, rfl, rfl, rfl, fun hfit => hfit⟩⟩

end

theorem Touched.resized {m' : Machine} {it' : Item} (h : Touched m m' it it') :
    Touched m (m'.resize it.record.id) it
      { it' with size := it'.record.size + it'.bodyN + it'.ckptN } := by
  refine h.trans ?_
  rw [← h.same]
  refine touched_resize ?_
  rw [h.get, if_pos h.same]

section

variable (hit : m.items.get it.record.id = some it)
include hit

theorem touched_applyNack (stamp next : Time) (errText blockedOn : Bytes) (refund : Bool) :
    ∃ it', Touched m (m.applyNack it stamp next errText blockedOn refund) it it' ∧
      Revised (Record.nack stamp next errText blockedOn refund) it it' := by
  obtain ⟨grp, h⟩ := touched_moveUpdate it hit rfl rfl .pending
    (if blockedOn = [] then it.record.blockedOn else blockedOn)
    (fun it => Item.unlease
      { it with
        record := { it.record with
          attempts :=
            if refund then refundAttempt it.record.attempts else it.record.attempts
          lastFailed := stamp
          nextAttempt := next
          lastError := errText } })
    (fun _ => rfl) (fun _ => rfl)
  exact ⟨_, h.resized, ⟨rfl, rfl, rfl, rfl, rfl, fun _ => rfl⟩⟩

theorem touched_applyPark (stamp : Time) (reason : Bytes) :
    ∃ it', Touched m (m.applyPark it stamp reason) it it' ∧
      Revised (Record.park stamp reason) it it' := by
  obtain ⟨grp, h⟩ := touched_moveUpdate it hit rfl rfl .parked it.record.blockedOn
    (fun it => Item.unlease
      { it with record := { it.record with lastFailed := stamp, lastError := reason } })
    (fun _ => rfl) (fun _ => rfl)
  exact ⟨_, h.resized, ⟨rfl, rfl, rfl, rfl, rfl, fun _ => rfl⟩⟩

theorem touched_setCheckpoint (cp : Option Bytes) :
    ∃ it', Touched m (m.setCheckpoint it.record.id cp) it it' ∧
      it'.record = it.record.setCheckpoint cp ∧ it'.bodyRef = it.bodyRef ∧
        it'.ckptRef = .zero ∧ it'.bodyN = it.bodyN ∧ it'.ckptN = 0 ∧ Fit it' := by
  have h := touched_update it hit (fun it =>
    { it with
      ver := it.ver + 1
      record := { it.record with checkpoint := cp }
      ckptRef := .zero
      ckptN := 0 }) rfl rfl
  exact ⟨_, h.resized, rfl, rfl, rfl, rfl, rfl, rfl⟩

theorem touched_setCheckpointRef (n : Nat) (ref : BlobRef) :
    ∃ it', Touched m (m.setCheckpointRef it.record.id n ref) it it' ∧
      it'.record = it.record.setCheckpoint none ∧ it'.bodyRef = it.bodyRef ∧
        it'.ckptRef = ref ∧ it'.bodyN = it.bodyN ∧ it'.ckptN = n ∧ Fit it' := by
  have h := touched_update it hit (fun it =>
    { it with
      ver := it.ver + 1
      record := { it.record with checkpoint := none }
      ckptRef := ref
      ckptN := n }) rfl rfl
  exact ⟨_, h.resized, rfl, rfl, rfl, rfl, rfl, rfl⟩

end

end Revising

section Live

variable {m m' : Machine} {it it' : Item}

/-- A list of items with one of them changed or taken out. -/
def replaced (l : List Item) (it : Item) (new : Option Item) : List Item :=
  l.filterMap fun x => if x.record.id = it.record.id then new else some x

theorem Touched.liveItems (h : Indexed m) (ht : Touched m m' it it') :
    m'.liveItems = replaced m.liveItems it (some it') := by
  unfold Machine.liveItems replaced
  rw [ht.order, filterMap_filterMap]
  refine filterMap_congr fun p hp => ?_
  obtain ⟨x, hx, hptr⟩ := h.ptr p hp
  have hid : x.record.id = p.id := congrArg Ptr.id hptr
  rw [ht.get, hx, Option.bind_some]
  by_cases heq : p.id = it.record.id
  · rw [if_pos heq, if_pos (hid.trans heq)]
  · rw [if_neg heq, if_neg (hid ▸ heq)]

theorem remove_fields (m : Machine) (it : Item) :
    (m.remove it).order = m.order.erase it.ptr ∧
      (m.remove it).items = m.items.del it.record.id ∧
        (m.remove it).seq = m.seq ∧ (m.remove it).bytes = m.bytes - it.size := by
  obtain ⟨horder, hitems, hseq, hbytes, -⟩ := removeKey_outside
    { m.unlink it with
      order := m.order.erase it.ptr
      items := m.items.del it.record.id
      bytes := m.bytes - it.size } it
  exact ⟨horder, hitems, hseq.trans (unlink_outside m it).2.2.1, hbytes⟩

theorem liveItems_remove (h : Indexed m) (hit : m.items.get it.record.id = some it) :
    (m.remove it).liveItems = replaced m.liveItems it none := by
  obtain ⟨horder, hitems, -, -⟩ := remove_fields m it
  unfold Machine.liveItems replaced
  rw [horder, hitems, h.asc.nodup.erase_eq_filter, filterMap_filter,
    filterMap_filterMap]
  refine filterMap_congr fun p hp => ?_
  obtain ⟨x, hx, hptr⟩ := h.ptr p hp
  have hid : x.record.id = p.id := congrArg Ptr.id hptr
  by_cases heq : p = it.ptr
  · have hsame : x.record.id = it.record.id := by rw [hid, heq]; rfl
    rw [hx]
    simp [heq, hsame]
  · have hne : p.id ≠ it.record.id := by
      intro hpid
      rw [hpid] at hx
      obtain rfl := Option.some.inj (hx.symm.trans hit)
      exact heq hptr.symm
    simp [heq, hne, hx, hid]

/-- The bytes of a list of items. -/
def totalSize (l : List Item) : Int :=
  (l.map fun it => (it.size : Int)).sum

/-- The bytes of what an item was replaced by. -/
def sizeOr0 (new : Option Item) : Int :=
  (new.map fun it => (it.size : Int)).getD 0

theorem IndexedBut.liveItems_nodup (h : Indexed m) :
    (m.liveItems.map fun it => it.record.id).Nodup := by
  refine (nodup_map_iff_inj_on ?_).mpr ?_
  · refine List.Nodup.of_map Item.ptr ?_
    rw [h.map_ptr_liveItems]
    exact h.asc.nodup
  · intro x hx y hy heq
    have hx' := h.mem_liveItems.mp hx
    rw [heq] at hx'
    exact Option.some.inj (hx'.symm.trans (h.mem_liveItems.mp hy))

/-- What a sum over the items becomes when one of them is replaced. -/
theorem sum_replaced (w : Item → Int) {l : List Item}
    (hnodup : (l.map fun it => it.record.id).Nodup) (hit : it ∈ l) (new : Option Item) :
    ((replaced l it new).map w).sum = (l.map w).sum + ((new.map w).getD 0 - w it) := by
  unfold replaced
  induction l with
  | nil => cases hit
  | cons x l ih =>
    obtain ⟨hx, hnodup⟩ := nodup_cons.mp hnodup
    by_cases heq : x = it
    · -- the other items have other identifiers
      subst heq
      have hrest : l.filterMap (fun y => if y.record.id = x.record.id then new else some y)
          = l := by
        have hsome : ∀ y ∈ l, (if y.record.id = x.record.id then new else some y) = some y := by
          intro y hy
          refine if_neg fun hyx => hx ?_
          exact mem_map.mpr ⟨y, hy, hyx⟩
        rw [filterMap_congr hsome, filterMap_some]
      rw [filterMap_cons, if_pos rfl, hrest]
      cases new with
      | none => simp
      | some y =>
        simp only [map_cons, sum_cons, Option.map_some, Option.getD_some]
        omega
    · have hit' : it ∈ l := (mem_cons.mp hit).resolve_left (Ne.symm heq)
      have hne : x.record.id ≠ it.record.id := by
        intro hid
        exact hx (mem_map.mpr ⟨it, hit', hid.symm⟩)
      rw [filterMap_cons, if_neg hne]
      simp only [map_cons, sum_cons, ih hnodup hit']
      omega

theorem totalSize_replaced {l : List Item} (hnodup : (l.map fun it => it.record.id).Nodup)
    (hit : it ∈ l) (new : Option Item) :
    totalSize (replaced l it new) = totalSize l + (sizeOr0 new - it.size) :=
  sum_replaced (fun it => (it.size : Int)) hnodup hit new

theorem insertItem_fields (m : Machine) (it : Item) (size : Nat) :
    (m.insertItem it size).order = m.order ++ [it.ptr] ∧
      (∀ id, (m.insertItem it size).items.get id =
        if id = it.record.id then some { it with grp := it.record.shelf }
        else m.items.get id) ∧
        (m.insertItem it size).seq = (if it.record.seq > m.seq then it.record.seq else m.seq) ∧
          (m.insertItem it size).bytes = m.bytes + size := by
  refine ⟨?_, get_link { m with order := m.order ++ [it.ptr] } it, rfl, rfl⟩
  unfold insertItem link
  split <;> rfl

theorem liveItems_insertItem (h : Indexed m) (hnew : m.items.get it.record.id = none) (size : Nat) :
    (m.insertItem it size).liveItems = m.liveItems ++ [{ it with grp := it.record.shelf }] := by
  obtain ⟨horder, hget, -, -⟩ := insertItem_fields m it size
  unfold Machine.liveItems
  rw [horder, filterMap_append]
  refine congrArg₂ (· ++ ·) (filterMap_congr fun p hp => ?_) ?_
  · obtain ⟨x, hx, -⟩ := h.ptr p hp
    rw [hget, if_neg]
    intro heq
    rw [heq, hnew] at hx
    cases hx
  · have hself : (m.insertItem it size).items.get it.ptr.id =
        some { it with grp := it.record.shelf } := by
      rw [hget]
      exact if_pos rfl
    simp [hself]

end Live

end Machine

open Machine

section Reading

/-- The part of a record that a store may keep on disk. -/
structure Payload where
  key : Option Bytes
  value : Option Bytes
  headers : List Header
  checkpoint : Option Bytes
deriving DecidableEq

def Record.payload (r : Record) : Payload :=
  ⟨r.key, r.value, r.headers, r.checkpoint⟩

def Record.withPayload (r : Record) (p : Payload) : Record :=
  { r with key := p.key, value := p.value, headers := p.headers, checkpoint := p.checkpoint }

/-- Where the payload of an item is. -/
structure Loc where
  id : Bytes
  held : Payload
  bodyRef : BlobRef
  ckptRef : BlobRef
deriving DecidableEq

def Item.loc (it : Item) : Loc :=
  ⟨it.record.id, it.record.payload, it.bodyRef, it.ckptRef⟩

/-- What finds payloads. -/
abbrev Reader := Loc → Option Payload

/-- The record an item stands for. -/
def reading (pay : Reader) (it : Item) : Option Record :=
  (pay it.loc).map it.record.withPayload

/-- A change of a record that leaves its payload alone. -/
def MetaOnly (g : Record → Record) : Prop :=
  ∀ r p, g (r.withPayload p) = (g r).withPayload p ∧ (g r).payload = r.payload ∧
    (g r).id = r.id

theorem metaOnly_lease : MetaOnly Record.lease :=
  fun _ _ => ⟨rfl, rfl, rfl⟩

theorem metaOnly_nack (stamp next : Time) (errText blockedOn : Bytes) (refund : Bool) :
    MetaOnly (Record.nack stamp next errText blockedOn refund) :=
  fun _ _ => ⟨rfl, rfl, rfl⟩

theorem metaOnly_release : MetaOnly Record.release :=
  fun _ _ => ⟨rfl, rfl, rfl⟩

theorem metaOnly_park (stamp : Time) (reason : Bytes) : MetaOnly (Record.park stamp reason) :=
  fun _ _ => ⟨rfl, rfl, rfl⟩

theorem metaOnly_requeue : MetaOnly Record.requeue :=
  fun _ _ => ⟨rfl, rfl, rfl⟩

variable {pay : Reader} {it it' : Item} {r : Record}

theorem reading_eq_some (h : reading pay it = some r) :
    ∃ p, pay it.loc = some p ∧ r = it.record.withPayload p := by
  obtain ⟨p, hp, rfl⟩ := Option.map_eq_some_iff.mp h
  exact ⟨p, hp, rfl⟩

theorem reading_meta (h : reading pay it = some r) :
    r.id = it.record.id ∧ r.seq = it.record.seq ∧ r.orderKey = it.record.orderKey ∧
      r.state = it.record.state := by
  obtain ⟨p, -, rfl⟩ := reading_eq_some h
  exact ⟨rfl, rfl, rfl, rfl⟩

/-- An item whose place is unchanged stands for the changed record. -/
theorem reading_revised {g : Record → Record} (hg : MetaOnly g) (hrev : Revised g it it') :
    reading pay it' = (reading pay it).map g := by
  have hloc : it'.loc = it.loc := by
    have hr := hg it.record it.record.payload
    simp only [Item.loc, hrev.record, hrev.bodyRef, hrev.ckptRef, hr.2.1, hr.2.2]
  unfold reading
  rw [hloc, hrev.record, Option.map_map]
  refine congrArg (fun f => Option.map f (pay it.loc)) (funext fun p => ?_)
  exact ((hg it.record p).1).symm

end Reading

section Showing

/-- A relation between items and the records they stand for: everything but the
payload is in the item, and a change of the rest carries over. -/
structure Sight (R : Item → Record → Prop) : Prop where
  same : ∀ {it r}, R it r → r.id = it.record.id ∧ r.seq = it.record.seq ∧
    r.orderKey = it.record.orderKey ∧ r.state = it.record.state
  revised : ∀ {it it' r g}, MetaOnly g → Revised g it it' → R it r → R it' (g r)
  shelved : ∀ {it r} (grp : Option Bytes), R it r → R { it with grp := grp } r

theorem sight_reading (pay : Reader) : Sight fun it r => reading pay it = some r := by
  refine ⟨reading_meta, ?_, fun _ h => h⟩
  intro it it' r g hg hrev hr
  rw [reading_revised hg hrev, hr]
  rfl

/-- The items of the machine stand for the records of the queue, in order. -/
structure Shows (R : Item → Record → Prop) (m : Machine) (q : Queue) : Prop where
  sight : Sight R
  recs : List.Forall₂ R m.liveItems q.recs
  seq : m.seq = q.seq
  bytes : m.bytes = totalSize m.liveItems

variable {R : Item → Record → Prop}
variable {m m' : Machine} {q : Queue} {it it' : Item} {id : Bytes}

theorem shows_new (hR : Sight R) (lim : Limits) : Shows R (newMachine lim) .empty :=
  ⟨hR, .nil, rfl, rfl⟩

theorem forall₂_mem_left {α β : Type} {R : α → β → Prop} {l : List α} {l' : List β} {b : β}
    (h : List.Forall₂ R l l') (hb : b ∈ l') : ∃ a ∈ l, R a b := by
  induction h with
  | nil => cases hb
  | @cons a b' l l' hab _ ih =>
    rcases mem_cons.mp hb with rfl | hb
    · exact ⟨a, mem_cons_self, hab⟩
    · obtain ⟨x, hx, hxb⟩ := ih hb
      exact ⟨x, mem_cons_of_mem _ hx, hxb⟩

variable {r : Record} {f : Change} {new : Option Item}

theorem Shows.item (h : Indexed m) (hs : Shows R m q) (hr : r ∈ q.recs) :
    ∃ it, m.items.get r.id = some it ∧ R it r := by
  obtain ⟨it, hit, hread⟩ := forall₂_mem_left hs.recs hr
  refine ⟨it, ?_, hread⟩
  rw [(hs.sight.same hread).1]
  exact h.mem_liveItems.mp hit

theorem Shows.record (h : Indexed m) (hs : Shows R m q) (hit : m.items.get it.record.id = some it) :
    ∃ r ∈ q.recs, R it r :=
  forall₂_mem_left hs.recs.flip (h.mem_liveItems.mpr hit)

theorem Shows.map_ptr (h : Indexed m) (hs : Shows R m q) :
    q.recs.map (fun r => (⟨r.id, r.seq⟩ : Ptr)) = m.order := by
  rw [← h.map_ptr_liveItems]
  have hrecs := hs.recs
  generalize m.liveItems = items, q.recs = recs at hrecs
  induction hrecs with
  | nil => rfl
  | cons hone _ ih =>
    obtain ⟨hid, hseq, -, -⟩ := hs.sight.same hone
    rw [map_cons, map_cons, ih, hid, hseq]
    rfl

theorem Shows.aside (hs : Shows R m q) (horder : m'.order = m.order) (hitems : m'.items = m.items)
    (hseq : m'.seq = m.seq) (hbytes : m'.bytes = m.bytes) : Shows R m' q := by
  have hlive : m'.liveItems = m.liveItems := by
    unfold Machine.liveItems
    rw [horder, hitems]
  exact ⟨hs.sight, hlive ▸ hs.recs, hseq.trans hs.seq, by rw [hbytes, hlive, hs.bytes]⟩

theorem Queue.touch_id (hf : ∀ r ∈ q.recs, r.id = id → f r = some r) : q.touch id f = q := by
  have hrecs : ∀ r ∈ q.recs, (if r.id = id then f r else some r) = some r := by
    intro r hr
    split
    · next heq => exact hf r hr heq
    · rfl
  unfold Queue.touch
  rw [filterMap_congr hrecs, filterMap_some]

theorem Shows.touch_absent (h : Indexed m) (hs : Shows R m q) (hnone : m.items.get id = none)
    (f : Change) : q.touch id f = q := by
  refine Queue.touch_id fun r hr hid => ?_
  obtain ⟨it, hit, -⟩ := hs.item h hr
  rw [hid, hnone] at hit
  cases hit

theorem forall₂_replaced {items : List Item} {recs : List Record}
    (hrecs : List.Forall₂ R items recs) (hsight : Sight R)
    (hit : ∀ x ∈ items, x.record.id = it.record.id → x = it)
    (hf : ∀ r, R it r → Option.Rel R new (f r)) :
    List.Forall₂ R (replaced items it new)
      (recs.filterMap fun r => if r.id = it.record.id then f r else some r) := by
  unfold replaced
  induction hrecs with
  | nil => exact .nil
  | @cons x r items recs hxr _ ih =>
    have hrest := ih fun y hy => hit y (mem_cons_of_mem _ hy)
    have hid := (hsight.same hxr).1
    by_cases heq : x.record.id = it.record.id
    · obtain rfl := hit x mem_cons_self heq
      simp only [filterMap_cons, if_pos hid, if_true]
      have hnew := hf r hxr
      generalize f r = r' at hnew
      cases hnew with
      | none => exact hrest
      | some hnew => exact .cons hnew hrest
    · have hne : ¬ r.id = it.record.id := fun hr => heq (hid.symm.trans hr)
      simp only [filterMap_cons, if_neg heq, if_neg hne]
      exact .cons hxr hrest

section

variable (h : Indexed m) (hs : Shows R m q) (hit : m.items.get it.record.id = some it)
include h hs hit

theorem Shows.replace (hlive : m'.liveItems = replaced m.liveItems it new) (hseq : m'.seq = m.seq)
    (hbytes : m'.bytes = m.bytes + (sizeOr0 new - it.size))
    (hf : ∀ r, R it r → Option.Rel R new (f r)) : Shows R m' (q.touch it.record.id f) := by
  refine ⟨hs.sight, ?_, hseq.trans hs.seq, ?_⟩
  · rw [hlive]
    refine forall₂_replaced hs.recs hs.sight ?_ hf
    intro x hx hid
    have hx' := h.mem_liveItems.mp hx
    rw [hid] at hx'
    exact Option.some.inj (hx'.symm.trans hit)
  · rw [hlive, totalSize_replaced h.liveItems_nodup (h.mem_liveItems.mpr hit), hbytes, hs.bytes]

theorem Shows.touch (ht : Touched m m' it it') (hf : ∀ r, R it r → ∃ r', f r = some r' ∧ R it' r') :
    Shows R m' (q.touch it.record.id f) := by
  refine hs.replace h hit (ht.liveItems h) ht.seq ht.bytes ?_
  intro r hr
  obtain ⟨r', hfr, hr'⟩ := hf r hr
  rw [hfr]
  exact .some hr'

theorem Shows.remove
    (hf : ∀ r, R it r → f r = none) : Shows R (m.remove it) (q.touch it.record.id f) := by
  obtain ⟨-, -, hseq, hbytes⟩ := remove_fields m it
  refine hs.replace h hit (liveItems_remove h hit) hseq ?_ ?_
  · rw [hbytes]
    simp only [sizeOr0, Option.map_none, Option.getD_none]
    omega
  · intro r hr
    rw [hf r hr]
    exact .none

end

theorem Shows.push (h : Indexed m) (hs : Shows R m q) (hnew : m.items.get it.record.id = none)
    (hread : R it r) : Shows R (m.insertItem it it.size) (q.push r) := by
  have hmeta := hs.sight.same hread
  have hfresh : ¬ ∃ x ∈ q.recs, x.id = r.id := by
    rintro ⟨x, hx, hid⟩
    obtain ⟨y, hy, -⟩ := hs.item h hx
    rw [hid, hmeta.1, hnew] at hy
    cases hy
  obtain ⟨-, -, hseq, hbytes⟩ := insertItem_fields m it it.size
  unfold Queue.push
  rw [if_neg hfresh]
  refine ⟨hs.sight, ?_, ?_, ?_⟩
  · rw [liveItems_insertItem h hnew]
    exact rel_append hs.recs (.cons (hs.sight.shelved _ hread) .nil)
  · rw [hseq, hs.seq, hmeta.2.1]
  · rw [hbytes, hs.bytes, liveItems_insertItem h hnew]
    simp [totalSize]

end Showing

end Dlq
end GoGuard
