import GoGuard.Dlq.Restart

/-!
# The representation invariant of the machine

The machine keeps its records six times over: the item table, the list of all
records, the groups and the parked list, the lines of the order keys, the
counters per state and the byte count.  `Represented` states what they have to
do with each other, and every sequence of calls and replays keeps it.

A record of a store that keeps payloads on disk is in three parts: what the item
holds, `bodyN` and `ckptN`.  `Whole` says that together they are the record, so
the byte count is that of the queue of whole records the same calls make.
-/

namespace GoGuard
namespace Dlq

open Lib List

section Whole

open Machine

/-- The item stands for the record: it holds the metadata, and counts the bytes of
the payload that it does not hold. -/
structure Whole (it : Item) (r : Record) : Prop where
  record : it.record = r.withPayload it.record.payload
  fit : Fit it
  body : bodySize r = bodySize it.record + it.bodyN
  ckpt : lenBytes r.checkpoint = lenBytes it.record.checkpoint + it.ckptN

/-- The bytes of a record that are not payload. -/
def metaSize (r : Record) : Nat :=
  r.id.length + r.orderKey.length + r.blockedOn.length + r.lastError.length
    + r.source.kind.length + r.source.name.length + 64

theorem Record.size_eq (r : Record) : r.size = metaSize r + bodySize r + lenBytes r.checkpoint := by
  unfold Record.size metaSize bodySize
  omega

theorem Whole.size_eq {it : Item} {r : Record} (h : Whole it r) : it.size = r.size := by
  have hmeta : metaSize it.record = metaSize r := by
    rw [h.record]
    rfl
  have hfit := h.fit
  rw [hfit, Record.size_eq, Record.size_eq, hmeta, h.body, h.ckpt]
  omega

theorem sight_whole : Sight Whole := by
  refine ⟨?_, ?_, ?_⟩
  · intro it r h
    rw [h.record]
    exact ⟨rfl, rfl, rfl, rfl⟩
  · intro it it' r g hg hrev h
    obtain ⟨hpay, hkeep, -⟩ := hg r it.record.payload
    obtain ⟨-, hkeep', -⟩ := hg it.record it.record.payload
    have hbody : ∀ x y : Record, x.payload = y.payload →
        bodySize x = bodySize y ∧ lenBytes x.checkpoint = lenBytes y.checkpoint := by
      intro x y hxy
      simp only [Record.payload, Payload.mk.injEq] at hxy
      unfold bodySize
      rw [hxy.1, hxy.2.1, hxy.2.2.1, hxy.2.2.2]
      exact ⟨rfl, rfl⟩
    refine ⟨?_, hrev.fit h.fit, ?_, ?_⟩
    · rw [hrev.record, hkeep', ← hpay, ← h.record]
    · rw [hrev.record, hrev.bodyN, (hbody _ _ hkeep).1, (hbody _ _ hkeep').1]
      exact h.body
    · rw [hrev.record, hrev.ckptN, (hbody _ _ hkeep).2, (hbody _ _ hkeep').2]
      exact h.ckpt
  · intro it r grp h
    exact ⟨h.record, h.fit, h.body, h.ckpt⟩

theorem whole_newItem (offload : Bool) (r : Record) (ref : BlobRef) :
    Whole (newItem offload r ref) r := by
  cases offload with
  | false => exact ⟨rfl, rfl, rfl, rfl⟩
  | true =>
    refine ⟨rfl, ?_, ?_, ?_⟩
    · change r.size = (strip r).size + bodySize r + lenBytes r.checkpoint
      have hstrip : (strip r).size = metaSize r := by
        rfl
      rw [hstrip, Record.size_eq]
    · change bodySize r = bodySize (strip r) + bodySize r
      have hstrip : bodySize (strip r) = 0 := rfl
      rw [hstrip, Nat.zero_add]
    · change lenBytes r.checkpoint = lenBytes none + lenBytes r.checkpoint
      have hnone : lenBytes none = 0 := rfl
      rw [hnone, Nat.zero_add]

theorem Whole.withCheckpoint {it it' : Item} {r : Record} {held cp : Option Bytes} (h : Whole it r)
    (hrec : it'.record = it.record.setCheckpoint held) (hbodyN : it'.bodyN = it.bodyN)
    (hckptN : lenBytes cp = lenBytes held + it'.ckptN) (hfit : Fit it') :
    Whole it' (r.setCheckpoint cp) := by
  refine ⟨?_, hfit, ?_, ?_⟩
  · rw [hrec]
    nth_rewrite 1 [h.record]
    rfl
  · rw [hrec, hbodyN]
    exact h.body
  · rw [hrec]
    exact hckptN

theorem findsCheckpoint_whole (offload : Bool) (ref : BlobRef) (id : Bytes) (cp : Option Bytes) :
    FindsCheckpoint Whole offload ref id cp cp := by
  intro it it' r _ hwith h
  refine h.withCheckpoint hwith.record hwith.bodyN ?_ hwith.fit
  rw [hwith.ckptN]
  cases offload with
  | false => exact (Nat.add_zero _).symm
  | true => exact (Nat.zero_add _).symm

theorem Shows.bytes_eq {m : Machine} {q : Queue} (hs : Shows Whole m q) :
    m.bytes = (q.recs.map fun r => (r.size : Int)).sum := by
  rw [hs.bytes]
  unfold totalSize
  have hsizes : ∀ (l : List Item) (l' : List Record), List.Forall₂ Whole l l' →
      (l.map fun it => (it.size : Int)) = l'.map fun r => (r.size : Int) := by
    intro l l' hl
    induction hl with
    | nil => rfl
    | cons hw _ ih => rw [map_cons, map_cons, hw.size_eq, ih]
  rw [hsizes _ _ hs.recs]

end Whole

namespace Machine

section Fields

variable (m : Machine) (it : Item)

@[simp] theorem rest_clearWake (dep : Bytes) :
    (m.clearWake dep).byKey = m.byKey ∧ (m.clearWake dep).counts = m.counts := by
  unfold clearWake
  split <;> exact ⟨rfl, rfl⟩

@[simp] theorem rest_update (id : Bytes) (f : Item → Item) :
    (m.update id f).byKey = m.byKey ∧ (m.update id f).counts = m.counts := by
  unfold update
  split <;> exact ⟨rfl, rfl⟩

@[simp] theorem rest_resize (id : Bytes) :
    (m.resize id).byKey = m.byKey ∧ (m.resize id).counts = m.counts := by
  unfold resize
  split <;> exact ⟨rfl, rfl⟩

@[simp] theorem rest_link :
    (m.link it).byKey = m.byKey ∧ (m.link it).counts = m.counts.add it.record.state 1 := by
  unfold link
  split <;> exact ⟨rfl, rfl⟩

@[simp] theorem rest_unlink :
    (m.unlink it).byKey = m.byKey ∧
      (m.unlink it).counts = m.counts.add it.record.state (-1) := by
  unfold unlink
  split <;> exact ⟨rfl, rfl⟩

@[simp] theorem rest_move (state : State) (dep : Bytes) :
    (m.move it state dep).byKey = m.byKey ∧
      (m.move it state dep).counts = (m.counts.add it.record.state (-1)).add state 1 := by
  unfold move
  split
  · exact rest_clearWake _ _
  · simp [moved]

end Fields

section Keys

variable {m : Machine} {it : Item}

/-- No order key has an empty line. -/
def KeysOk (m : Machine) : Prop :=
  ∀ k, m.byKey.get k ≠ some []

theorem keysOk_insertItem (h : KeysOk m) (it : Item) (size : Nat) :
    KeysOk (m.insertItem it size) := by
  intro k
  change (if it.record.orderKey = [] then m.byKey
    else m.byKey.set it.record.orderKey
      ((m.byKey.get it.record.orderKey).getD [] ++ [it.ptr])).get k ≠ some []
  split
  · exact h k
  · rw [GoMap.get_set]
    split
    · simp
    · exact h k

theorem keysOk_remove (h : KeysOk m) (it : Item) : KeysOk (m.remove it) := by
  intro k
  unfold remove removeKey
  split
  · simp only [rest_unlink]
    exact h k
  · simp only [rest_unlink]
    split
    · rw [GoMap.get_del]
      split
      · exact Option.some_ne_none _ |>.symm
      · exact h k
    · next hrest =>
      rw [GoMap.get_set]
      split
      · intro heq
        exact hrest (Option.some.inj heq)
      · exact h k

end Keys

section Counting

variable {m m' : Machine} {it it' : Item}

/-- How many of the items are in a state. -/
def inState (s : State) (l : List Item) : Int :=
  ((l.filter fun it => it.record.state = s).length : Int)

/-- The counters are the numbers of items per state. -/
def Counted (m : Machine) : Prop :=
  m.counts =
    ⟨inState .pending m.liveItems, inState .leased m.liveItems, inState .parked m.liveItems⟩

/-- The part of a state in a counter. -/
def one (s : State) (it : Item) : Int :=
  if it.record.state = s then 1 else 0

theorem inState_eq_sum (s : State) (l : List Item) : inState s l = (l.map (one s)).sum := by
  unfold inState
  induction l with
  | nil => rfl
  | cons x l ih =>
    rw [map_cons, sum_cons, ← ih]
    by_cases hx : x.record.state = s
    · simp [hx, one]
      omega
    · simp [hx, one]

theorem Counted.replace {new : Option Item} (hc : Counted m) (h : Indexed m)
    (hit : m.items.get it.record.id = some it) (hlive : m'.liveItems = replaced m.liveItems it new)
    (hcounts : m'.counts =
      match new with
      | none => m.counts.add it.record.state (-1)
      | some it' => (m.counts.add it.record.state (-1)).add it'.record.state 1) :
    Counted m' := by
  have hsum : ∀ s, inState s m'.liveItems =
      inState s m.liveItems + ((new.map (one s)).getD 0 - one s it) := by
    intro s
    rw [inState_eq_sum, inState_eq_sum, hlive]
    exact sum_replaced (one s) h.liveItems_nodup (h.mem_liveItems.mpr hit) new
  unfold Counted at hc ⊢
  rw [hcounts, hsum, hsum, hsum, hc]
  cases new with
  | none =>
    cases hs : it.record.state <;> simp [Counts.add, one, hs]
  | some it' =>
    cases hs : it.record.state <;> cases hs' : it'.record.state <;>
      simp [Counts.add, one, hs, hs']

theorem Counted.aside (hc : Counted m) (horder : m'.order = m.order) (hitems : m'.items = m.items)
    (hcounts : m'.counts = m.counts) : Counted m' := by
  unfold Counted liveItems at hc ⊢
  rw [hcounts, horder, hitems]
  exact hc

theorem counts_remove (m : Machine) (it : Item) :
    (m.remove it).counts = m.counts.add it.record.state (-1) :=
  (removeKey_outside _ it).2.2.2.2.trans (rest_unlink m it).2

theorem Counted.insertItem (hc : Counted m) (h : Indexed m) (hnew : m.items.get it.record.id = none)
    (size : Nat) : Counted (m.insertItem it size) := by
  have hcounts : (m.insertItem it size).counts = m.counts.add it.record.state 1 :=
    (rest_link _ it).2
  unfold Counted at hc ⊢
  rw [hcounts, liveItems_insertItem h hnew, hc]
  cases hs : it.record.state <;>
    simp [Counts.add, inState, filter_append, hs]

end Counting

end Machine

open Machine

section Calls

/-- The calls of the machine's methods.  A checkpoint that goes to disk is given
with its bytes, of which the machine keeps the number. -/
inductive IndexOp where
  | insert (r : Record)
  | insertOffloaded (r : Record) (body : BlobRef)
  | grant (picked : List (Ptr × Bytes)) (now : Time) (ttl : Int)
  | remove (id : Bytes)
  | applyNack (id : Bytes) (stamp next : Time) (errText blockedOn : Bytes) (refund : Bool)
  | applyRelease (id : Bytes)
  | applyPark (id : Bytes) (stamp : Time) (reason : Bytes)
  | applyRequeue (id : Bytes) (replace : Bool) (cp : Option Bytes)
  | setCheckpoint (id : Bytes) (cp : Option Bytes)
  | setCheckpointRef (id : Bytes) (cp : Option Bytes) (ref : BlobRef)
  | reserve (p : Ptr)
  | unreserve (p : Ptr)
  | selectLease (ord : List Bytes) (now : Time) (req : LeaseRequest)
  | replayLease (id : Bytes)
  | replayAck (id : Bytes)
  | replayNack (id : Bytes) (stamp next : Time) (errText blockedOn : Bytes) (refund : Bool)
  | replayRelease (id : Bytes)
  | replayPark (id : Bytes) (stamp : Time) (reason : Bytes)
  | replayDiscard (id : Bytes)
  | endReplay
deriving DecidableEq

/-- One call; `none` when the caller may not make it: a new record needs a Seq
above all others, and a call about an item needs the item. -/
def IndexOp.exec (m : Machine) : IndexOp → Option Machine
  | .insert r =>
    if (m.items.get r.id).isSome ∨ m.seq < r.seq then some (m.insert r) else none
  | .insertOffloaded r body =>
    if (m.items.get r.id).isSome ∨ m.seq < r.seq then some (m.insertOffloaded r body)
    else none
  | .grant picked now ttl => some (m.grant picked now ttl)
  | .remove id => m.withItem id m.remove
  | .applyNack id stamp next errText blockedOn refund =>
    m.withItem id fun it => m.applyNack it stamp next errText blockedOn refund
  | .applyRelease id => m.withItem id m.applyRelease
  | .applyPark id stamp reason => m.withItem id fun it => m.applyPark it stamp reason
  | .applyRequeue id replace cp => m.withItem id fun it => m.applyRequeue it replace cp
  | .setCheckpoint id cp => m.withItem id fun it => m.setCheckpoint it.record.id cp
  | .setCheckpointRef id cp ref =>
    m.withItem id fun it => m.setCheckpointRef it.record.id (lenBytes cp) ref
  | .reserve p => some (m.withPtr p m.reserve)
  | .unreserve p => some (m.withPtr p m.unreserve)
  | .selectLease ord now req =>
    if ord.Perm m.groups.keys then some (m.selectLease ord now req).1 else none
  | .replayLease id => some (m.replayLease id)
  | .replayAck id => some (m.replayAck id)
  | .replayNack id stamp next errText blockedOn refund =>
    some (m.replayNack id stamp next errText blockedOn refund)
  | .replayRelease id => some (m.replayRelease id)
  | .replayPark id stamp reason => some (m.replayPark id stamp reason)
  | .replayDiscard id => some (m.replayDiscard id)
  | .endReplay => some m.endReplay

/-- What a call does to the queue of whole records. -/
def IndexOp.apply (q : Queue) : IndexOp → Queue
  | .insert r => q.push r
  | .insertOffloaded r _ => q.push r
  | .grant picked _ _ => q.apply (.lease (picked.map fun x => x.1.id))
  | .remove id => q.apply (.ack id)
  | .applyNack id stamp next errText blockedOn refund =>
    q.apply (.nack id stamp next errText blockedOn refund)
  | .applyRelease id => q.apply (.release id)
  | .applyPark id stamp reason => q.apply (.park id stamp reason)
  | .applyRequeue id replace cp =>
    q.touch id fun r => some (if replace then r.requeue.setCheckpoint cp else r.requeue)
  | .setCheckpoint id cp => q.apply (.checkpoint id cp)
  | .setCheckpointRef id cp _ => q.apply (.checkpoint id cp)
  | .replayLease id => q.apply (.lease [id])
  | .replayAck id => q.apply (.ack id)
  | .replayNack id stamp next errText blockedOn refund =>
    q.apply (.nack id stamp next errText blockedOn refund)
  | .replayRelease id => q.apply (.release id)
  | .replayPark id stamp reason => q.apply (.park id stamp reason)
  | .replayDiscard id => q.apply (.discard id)
  | .endReplay => q.settled
  | _ => q

/-- The machine and, beside it, the whole records. -/
def IndexOp.step (s : Machine × Queue) (op : IndexOp) : Option (Machine × Queue) :=
  (op.exec s.1).map fun m => (m, op.apply s.2)

/-- The redundant structures of a machine agree. -/
structure Represented (m : Machine) : Prop where
  /-- the list of all records is in Seq order and lists exactly the item table -/
  order_asc : Ascending Ptr.seq m.order
  order_mem : ∀ p, p ∈ m.order ↔ ∃ it, m.items.get p.id = some it ∧ it.ptr = p
  items_id : ∀ id it, m.items.get id = some it → it.record.id = id
  /-- a Pending or Leased item is in the group of its dependency and nowhere else,
  a Parked one in the parked list and nowhere else -/
  group_mem : ∀ d p, (∃ g, m.groups.get d = some g ∧ p ∈ g.items) ↔
    ∃ it, m.items.get p.id = some it ∧ it.ptr = p ∧ it.record.state ≠ .parked ∧
      it.record.blockedOn = d
  parked_mem : ∀ p, p ∈ m.parked ↔
    ∃ it, m.items.get p.id = some it ∧ it.ptr = p ∧ it.record.state = .parked
  item_grp : ∀ id it, m.items.get id = some it →
    it.grp = if it.record.state = .parked then none else some it.record.blockedOn
  group_asc : ∀ d g, m.groups.get d = some g → Ascending Ptr.seq g.items
  parked_asc : Ascending Ptr.seq m.parked
  group_nonempty : ∀ d g, m.groups.get d = some g → g.dep = d ∧ g.items ≠ []
  group_hint : ∀ d g h, m.groups.get d = some g → g.hint = some h → h ∈ g.items
  parked_hint : ∀ h, m.parkedHint = some h → h ∈ m.parked
  /-- the line of an order key holds exactly its records, in Seq order -/
  key_asc : ∀ k l, m.byKey.get k = some l → Ascending Ptr.seq l
  key_mem : ∀ k p, (∃ l, m.byKey.get k = some l ∧ p ∈ l) ↔
    k ≠ [] ∧ ∃ it, m.items.get p.id = some it ∧ it.ptr = p ∧ it.record.orderKey = k
  key_nonempty : ∀ k l, m.byKey.get k = some l → l ≠ []
  /-- the counters are the numbers of items per state -/
  counts : Counted m

end Calls

section Kept

variable {m m' : Machine} {q : Queue} {it it' : Item}

/-- What every call keeps. -/
structure Rep (m : Machine) (q : Queue) : Prop where
  indexed : Indexed m
  shows : Shows Whole m q
  keys : KeysOk m
  counted : Counted m

theorem rep_new (lim : Limits) : Rep (newMachine lim) .empty := by
  refine ⟨indexed_new lim, shows_new sight_whole lim, ?_, rfl⟩
  intro k
  simp [newMachine]

theorem Rep.touch {f : Change} (h : Rep m q) (hit : m.items.get it.record.id = some it)
    (ht : Touched m m' it it') (hindexed : Indexed m') (hkeys : m'.byKey = m.byKey)
    (hcounts : m'.counts = (m.counts.add it.record.state (-1)).add it'.record.state 1)
    (hf : ∀ r, Whole it r → ∃ r', f r = some r' ∧ Whole it' r') :
    Rep m' (q.touch it.record.id f) := by
  refine ⟨hindexed, h.shows.touch h.indexed hit ht hf, ?_, ?_⟩
  · intro k
    rw [hkeys]
    exact h.keys k
  · exact h.counted.replace h.indexed hit (ht.liveItems h.indexed) hcounts

theorem Rep.revise {g : Record → Record} (h : Rep m q) (hit : m.items.get it.record.id = some it)
    (ht : Touched m m' it it' ∧ Revised g it it') (hg : MetaOnly g) (hindexed : Indexed m')
    (hkeys : m'.byKey = m.byKey)
    (hcounts : m'.counts =
      (m.counts.add it.record.state (-1)).add (g it.record).state 1) :
    Rep m' (q.touch it.record.id fun r => some (g r)) := by
  refine h.touch hit ht.1 hindexed hkeys ?_ ?_
  · rw [hcounts, ht.2.record]
  · exact fun r hr => ⟨g r, rfl, sight_whole.revised hg ht.2 hr⟩

theorem counts_swap_self (c : Counts) (s : State) : (c.add s (-1)).add s 1 = c := by
  cases s <;> simp [Counts.add]

section

variable (h : Rep m q)
include h

theorem Rep.remove {f : Change} (hit : m.items.get it.record.id = some it)
    (hf : ∀ r, Whole it r → f r = none) : Rep (m.remove it) (q.touch it.record.id f) := by
  refine ⟨h.indexed.remove hit, h.shows.remove h.indexed hit hf, keysOk_remove h.keys it, ?_⟩
  exact h.counted.replace h.indexed hit (liveItems_remove h.indexed hit) (counts_remove m it)

theorem Rep.insertRecord {offload : Bool} {r : Record} {ref : BlobRef}
    (hseq : (m.items.get r.id).isSome ∨ m.seq < r.seq) :
    Rep (Dlq.insertRecord offload m r ref) (q.push r) := by
  have hindexed : Indexed (Dlq.insertRecord offload m r ref) :=
    Indexed.insertRecord h.indexed hseq
  have hshows := h.shows.insertRecord h.indexed (whole_newItem offload r ref)
  refine ⟨hindexed, hshows, ?_, ?_⟩
  · rw [insertRecord_eq]
    split
    · exact h.keys
    · exact keysOk_insertItem h.keys _ _
  · rw [insertRecord_eq]
    split
    · exact h.counted
    · next hnew =>
      refine h.counted.insertItem h.indexed ?_ _
      rw [newItem_id]
      simpa using hnew

theorem Rep.grantOne (hit : m.items.get it.record.id = some it) (token : Bytes) (expires : Time) :
    Rep (m.grantOne it token expires) (q.touch it.record.id fun r => some r.lease) := by
  obtain ⟨it', ht, hrev, -⟩ := touched_grantOne hit token expires
  refine h.revise hit ⟨ht, hrev⟩ metaOnly_lease (h.indexed.grantOne hit token expires) ?_ ?_
  · simp [Machine.grantOne]
  · simp [Machine.grantOne, Record.lease]

theorem Rep.applyNack (hit : m.items.get it.record.id = some it)
    (stamp next : Time) (errText blockedOn : Bytes) (refund : Bool) :
    Rep (m.applyNack it stamp next errText blockedOn refund)
      (q.apply (.nack it.record.id stamp next errText blockedOn refund)) := by
  obtain ⟨it', ht⟩ := touched_applyNack hit stamp next errText blockedOn refund
  refine h.revise hit ht (metaOnly_nack _ _ _ _ _) (h.indexed.applyNack hit ..) ?_ ?_
  · simp [Machine.applyNack]
  · simp [Machine.applyNack, Record.nack]

theorem Rep.applyRelease (hit : m.items.get it.record.id = some it) :
    Rep (m.applyRelease it) (q.apply (.release it.record.id)) := by
  obtain ⟨it', ht⟩ := touched_applyRelease hit
  refine h.revise hit ht metaOnly_release (h.indexed.applyRelease hit) ?_ ?_
  · simp [Machine.applyRelease]
  · simp [Machine.applyRelease, Record.release]

theorem Rep.applyPark (hit : m.items.get it.record.id = some it) (stamp : Time) (reason : Bytes) :
    Rep (m.applyPark it stamp reason) (q.apply (.park it.record.id stamp reason)) := by
  obtain ⟨it', ht⟩ := touched_applyPark hit stamp reason
  refine h.revise hit ht (metaOnly_park _ _) (h.indexed.applyPark hit ..) ?_ ?_
  · simp [Machine.applyPark]
  · simp [Machine.applyPark, Record.park]

theorem Rep.requeue (hit : m.items.get it.record.id = some it) :
    Rep (m.applyRequeue it false none) (q.touch it.record.id fun r => some r.requeue) := by
  obtain ⟨it', ht⟩ := touched_requeue hit
  refine h.revise hit ht metaOnly_requeue (h.indexed.applyRequeue hit ..) ?_ ?_
  · simp [Machine.applyRequeue]
  · simp [Machine.applyRequeue, Record.requeue]

theorem Rep.setCheckpoint (hit : m.items.get it.record.id = some it) (cp : Option Bytes) :
    Rep (m.setCheckpoint it.record.id cp)
      (q.touch it.record.id fun r => some (r.setCheckpoint cp)) := by
  obtain ⟨it', ht, hrec, -, -, hbodyN, hckptN, hfit⟩ := touched_setCheckpoint hit cp
  refine h.touch hit ht (h.indexed.setCheckpoint _ cp) ?_ ?_ ?_
  · simp [Machine.setCheckpoint]
  · have hstate : it'.record.state = it.record.state := by rw [hrec]; rfl
    rw [hstate, counts_swap_self]
    simp [Machine.setCheckpoint]
  · intro r hr
    exact ⟨_, rfl, hr.withCheckpoint hrec hbodyN (by rw [hckptN, Nat.add_zero]) hfit⟩

end

theorem touch_touch (q : Queue) (id : Bytes) {g k : Record → Record} (hg : ∀ r, (g r).id = r.id) :
    (q.touch id fun r => some (g r)).touch id (fun r => some (k r)) =
      q.touch id fun r => some (k (g r)) := by
  unfold Queue.touch
  simp only [filterMap_filterMap]
  refine congrArg₂ Queue.mk (filterMap_congr fun r _ => ?_) rfl
  by_cases hid : r.id = id <;> simp [hid, hg]

section

variable (h : Rep m q) (hit : m.items.get it.record.id = some it)
include h hit

theorem Rep.applyRequeue (replace : Bool) (cp : Option Bytes) :
    Rep (m.applyRequeue it replace cp)
      (q.touch it.record.id fun r =>
        some (if replace then r.requeue.setCheckpoint cp else r.requeue)) := by
  cases replace with
  | false => exact h.requeue hit
  | true =>
    obtain ⟨it', ht, hrev⟩ := touched_requeue hit
    have hit' : (m.applyRequeue it false none).items.get it'.record.id = some it' := by
      rw [ht.get, if_pos ht.same]
    have hcp := (h.requeue hit).setCheckpoint hit' cp
    rw [ht.same, touch_touch] at hcp
    · exact hcp
    · exact fun r => rfl

theorem Rep.setCheckpointRef (cp : Option Bytes) (ref : BlobRef) :
    Rep (m.setCheckpointRef it.record.id (lenBytes cp) ref)
      (q.touch it.record.id fun r => some (r.setCheckpoint cp)) := by
  obtain ⟨it', ht, hrec, -, -, hbodyN, hckptN, hfit⟩ :=
    touched_setCheckpointRef hit (lenBytes cp) ref
  refine h.touch hit ht (h.indexed.setCheckpointRef _ _ ref) ?_ ?_ ?_
  · simp [Machine.setCheckpointRef]
  · have hstate : it'.record.state = it.record.state := by rw [hrec]; rfl
    rw [hstate, counts_swap_self]
    simp [Machine.setCheckpointRef]
  · intro r hr
    refine ⟨_, rfl, hr.withCheckpoint hrec hbodyN ?_ hfit⟩
    rw [hckptN]
    exact (Nat.zero_add _).symm

theorem Rep.untouched (ht : Touched m m' it it') (hrev : Revised id it it') (hindexed : Indexed m')
    (hkeys : m'.byKey = m.byKey) (hcounts : m'.counts = m.counts) : Rep m' q := by
  have hq : (q.touch it.record.id fun r => some (id r)) = q :=
    Queue.touch_id fun _ _ _ => rfl
  have hid : MetaOnly id := fun _ _ => ⟨rfl, rfl, rfl⟩
  rw [← hq]
  refine h.revise hit ⟨ht, hrev⟩ hid hindexed hkeys ?_
  rw [hcounts]
  exact (counts_swap_self m.counts it.record.state).symm

theorem Rep.reserve : Rep (m.reserve it) q := by
  refine h.untouched hit (touched_store rfl rfl) ?_ (h.indexed.reserve hit) rfl rfl
  exact ⟨rfl, rfl, rfl, rfl, rfl, fun hfit => hfit⟩

end

theorem unreserve_cases (m : Machine) (it : Item) :
    m.unreserve it = m ∨ m.unreserve it = m.store { it with reserved := false } ∨
      ∃ dep, m.unreserve it = (m.store { it with reserved := false }).clearWake dep := by
  unfold Machine.unreserve
  split
  · exact .inl rfl
  · split
    · exact .inr (.inl rfl)
    · next dep _ => exact .inr (.inr ⟨dep, rfl⟩)

section

variable (h : Rep m q)
include h

theorem Rep.unreserve (hit : m.items.get it.record.id = some it) : Rep (m.unreserve it) q := by
  have hindexed := h.indexed.unreserve hit
  have hstored : Touched m (m.store { it with reserved := false }) it
      { it with reserved := false } := touched_store rfl rfl
  have hrev : Revised id it { it with reserved := false } :=
    ⟨rfl, rfl, rfl, rfl, rfl, fun hfit => hfit⟩
  rcases unreserve_cases m it with heq | heq | ⟨dep, heq⟩
  · rw [heq]
    exact h
  · rw [heq] at hindexed ⊢
    exact h.untouched hit hstored hrev hindexed rfl rfl
  · rw [heq] at hindexed ⊢
    refine h.untouched hit (hstored.trans (touched_clearWake ?_ _)) hrev hindexed ?_ ?_
    · rw [hstored.get]
      exact if_pos rfl
    · exact (rest_clearWake _ _).1
    · exact (rest_clearWake _ _).2

theorem Rep.withPtr (p : Ptr) {f : Item → Machine}
    (hf : ∀ it, m.items.get it.record.id = some it → Rep (f it) q) : Rep (m.withPtr p f) q :=
  withPtr_keeps (fun m => Rep m q) h.indexed h hf

theorem Rep.selectLease (ord : List Bytes) (now : Time) (req : LeaseRequest) :
    Rep (m.selectLease ord now req).1 q := by
  obtain ⟨horder, hitems, hseq, hbytes⟩ := selectLease_aside m ord now req
  have hrest : (m.selectLease ord now req).1.byKey = m.byKey ∧
      (m.selectLease ord now req).1.counts = m.counts :=
    selectLease_keeps (P := fun x => x.byKey = m.byKey ∧ x.counts = m.counts) ⟨rfl, rfl⟩
      (fun h _ => h) ord
  refine ⟨h.indexed.selectLease ord now req, h.shows.aside horder hitems hseq hbytes, ?_, ?_⟩
  · intro k
    rw [hrest.1]
    exact h.keys k
  · exact h.counted.aside horder hitems hrest.2

theorem Rep.change {g : Item → Machine} {f : Change} (id : Bytes)
    (hf : ∀ it, m.items.get it.record.id = some it → it.record.id = id →
      Rep (g it) (q.touch it.record.id f)) :
    Rep (match m.items.get id with | none => m | some it => g it) (q.touch id f) := by
  cases hit : m.items.get id with
  | none =>
    rw [h.shows.touch_absent h.indexed hit]
    exact h
  | some it =>
    obtain rfl := (h.indexed.live id it hit).1
    exact hf it hit rfl

theorem Rep.replayLease (id : Bytes) : Rep (m.replayLease id) (q.apply (.lease [id])) := by
  refine h.change id ?_
  rintro it hit rfl
  obtain ⟨it', ht⟩ := touched_replayLease hit
  have hindexed := Indexed.replayLease h.indexed it.record.id
  unfold Machine.replayLease at ht hindexed
  rw [hit] at ht hindexed
  refine h.revise hit ht metaOnly_lease hindexed ?_ ?_
  · exact (rest_move _ _ _ _).1
  · exact (rest_move _ _ _ _).2

theorem Rep.grant (picked : List (Ptr × Bytes)) (now : Time) (ttl : Int) :
    Rep (m.grant picked now ttl) (q.apply (.lease (picked.map fun x => x.1.id))) := by
  change Rep _ (q.touchAll ((picked.map fun x => x.1.id).map fun id => (id, fun r => some r.lease)))
  induction picked generalizing m q with
  | nil => exact h
  | cons x picked ih =>
    refine ih (h.change x.1.id ?_)
    intro it hit _
    exact h.grantOne hit x.2 (now + ttl)

theorem Rep.replayDiscard (id : Bytes) : Rep (m.replayDiscard id) (q.apply (.discard id)) := by
  refine h.change id ?_
  rintro it hit rfl
  split
  · next hparked =>
    refine h.remove hit fun r hr => ?_
    exact if_pos ((sight_whole.same hr).2.2.2.trans hparked)
  · next hstate =>
    rw [h.shows.touch_unchanged h.indexed hit (f := discardChange) fun r hr =>
      if_neg (hr ▸ hstate)]
    exact h

theorem Rep.endReplayOne (p : Ptr) :
    Rep (m.endReplayOne p) (q.touch p.id fun r => some r.settle) := by
  refine h.change p.id ?_
  intro it hit _
  obtain ⟨it', ht⟩ := touched_endReplayOne hit
  have hindexed := Indexed.endReplayOne h.indexed it.ptr
  have hget : m.items.get it.ptr.id = some it := hit
  unfold Machine.endReplayOne at ht hindexed
  rw [hget] at ht hindexed
  simp only at ht hindexed ⊢
  split
  · next hleased =>
    rw [if_pos hleased] at ht hindexed
    refine h.revise hit ht metaOnly_settle hindexed ?_ ?_
    · simp
    · simp [Record.settle, hleased]
  · next hfree =>
    rw [if_neg hfree] at ht hindexed
    refine h.revise hit ht metaOnly_settle hindexed rfl ?_
    simp only [Record.settle, if_neg hfree]
    exact (counts_swap_self _ _).symm

theorem Rep.endReplay : Rep m.endReplay q.settled := by
  -- the folds agree, and every record of the queue is in the list of the items
  have hfold : ∀ ps : List Ptr, Rep (ps.foldl Machine.endReplayOne m)
      (q.touchAll ((ps.map Ptr.id).map fun id => (id, fun r => some r.settle))) := by
    intro ps
    induction ps generalizing m q with
    | nil => exact h
    | cons p ps ih => exact ih (h.endReplayOne p)
  have hrep := hfold m.order
  rw [h.shows.settleAll h.indexed] at hrep
  exact hrep

theorem Rep.withItem {id : Bytes} {g : Item → Machine} {q' : Queue}
    (hexec : m.withItem id g = some m')
    (hg : ∀ it, m.items.get it.record.id = some it → it.record.id = id → Rep (g it) q') :
    Rep m' q' := by
  obtain ⟨it, hit, rfl⟩ := Option.map_eq_some_iff.mp hexec
  obtain rfl := (h.indexed.live id it hit).1
  exact hg it hit rfl

theorem Rep.exec {op : IndexOp} (hexec : op.exec m = some m') : Rep m' (op.apply q) := by
  cases op with
  | insert r =>
    obtain ⟨hseq, rfl⟩ := of_guard hexec
    have hrep : Rep (Dlq.insertRecord false m r .zero) (q.push r) := h.insertRecord hseq
    exact hrep
  | insertOffloaded r body =>
    obtain ⟨hseq, rfl⟩ := of_guard hexec
    have hrep : Rep (Dlq.insertRecord true m r body) (q.push r) := h.insertRecord hseq
    exact hrep
  | grant picked now ttl =>
    cases hexec
    exact h.grant picked now ttl
  | remove id =>
    refine h.withItem hexec ?_
    rintro it hit rfl
    exact h.remove hit fun _ _ => rfl
  | applyNack id stamp next errText blockedOn refund =>
    refine h.withItem hexec ?_
    rintro it hit rfl
    exact h.applyNack hit stamp next errText blockedOn refund
  | applyRelease id =>
    refine h.withItem hexec ?_
    rintro it hit rfl
    exact h.applyRelease hit
  | applyPark id stamp reason =>
    refine h.withItem hexec ?_
    rintro it hit rfl
    exact h.applyPark hit stamp reason
  | applyRequeue id replace cp =>
    refine h.withItem hexec ?_
    rintro it hit rfl
    exact h.applyRequeue hit replace cp
  | setCheckpoint id cp =>
    refine h.withItem hexec ?_
    rintro it hit rfl
    exact h.setCheckpoint hit cp
  | setCheckpointRef id cp ref =>
    refine h.withItem hexec ?_
    rintro it hit rfl
    exact h.setCheckpointRef hit cp ref
  | reserve p =>
    cases hexec
    exact h.withPtr p fun it hit => h.reserve hit
  | unreserve p =>
    cases hexec
    exact h.withPtr p fun it hit => h.unreserve hit
  | selectLease ord now req =>
    obtain ⟨-, rfl⟩ := of_guard hexec
    exact h.selectLease ord now req
  | replayLease id =>
    cases hexec
    exact h.replayLease id
  | replayAck id =>
    cases hexec
    refine h.change id ?_
    intro it hit _
    exact h.remove hit fun _ _ => rfl
  | replayNack id stamp next errText blockedOn refund =>
    cases hexec
    refine h.change id ?_
    intro it hit _
    exact h.applyNack hit stamp next errText blockedOn refund
  | replayRelease id =>
    cases hexec
    refine h.change id ?_
    intro it hit _
    exact h.applyRelease hit
  | replayPark id stamp reason =>
    cases hexec
    refine h.change id ?_
    intro it hit _
    exact h.applyPark hit stamp reason
  | replayDiscard id =>
    cases hexec
    exact h.replayDiscard id
  | endReplay =>
    cases hexec
    exact h.endReplay

end

theorem shelf_of_group {d : Bytes} {g : Group} (hg : m.groups.get d = some g) :
    m.shelf (some d) = g.items ∧ m.shelfHint (some d) = g.hint := by
  simp [shelf, shelfHint, groupFor, hg]

theorem shelf_eq_iff (r : Record) (d : Bytes) :
    r.shelf = some d ↔ r.state ≠ .parked ∧ r.blockedOn = d := by
  unfold Record.shelf
  split
  · next hparked => simp [hparked]
  · next hstate => simp [hstate]

theorem shelf_eq_none_iff (r : Record) : r.shelf = none ↔ r.state = .parked := by
  unfold Record.shelf
  split
  · next hparked => simp [hparked]
  · next hstate => simp [hstate]

/-- The invariant read as what it says about the machine's fields. -/
theorem Rep.represented (h : Rep m q) : Represented m := by
  have hi := h.indexed
  have hline : ∀ {k l}, m.byKey.get k = some l → m.keyLine k = l := by
    intro k l hl
    simp [keyLine, hl]
  constructor
  case order_asc => exact hi.asc
  case order_mem =>
    intro p
    constructor
    · exact hi.ptr p
    · rintro ⟨it, hit, rfl⟩
      exact (hi.live _ it hit).2
  case items_id => exact fun id it hit => (hi.live id it hit).1
  case group_mem =>
    intro d p
    have hmem := hi.shelf_mem (some d) p
    simp only [shelf_eq_iff, ne_eq, reduceCtorEq, not_false_eq_true, true_and] at hmem
    rw [← hmem]
    constructor
    · rintro ⟨g, hg, hp⟩
      rw [(shelf_of_group hg).1]
      exact hp
    · intro hp
      cases hg : m.groups.get d with
      | none => simp [shelf, groupFor, hg] at hp
      | some g =>
        rw [(shelf_of_group hg).1] at hp
        exact ⟨g, rfl, hp⟩
  case parked_mem =>
    intro p
    have hmem := hi.shelf_mem none p
    simp only [shelf_eq_none_iff, ne_eq, reduceCtorEq, not_false_eq_true, true_and] at hmem
    exact hmem
  case item_grp =>
    intro id it hit
    exact hi.grp id it hit (Option.some_ne_none _)
  case group_asc =>
    intro d g hg
    rw [← (shelf_of_group hg).1]
    exact hi.shelf_asc (some d)
  case parked_asc => exact hi.shelf_asc none
  case group_nonempty => exact hi.group
  case group_hint =>
    intro d g x hg hx
    rw [← (shelf_of_group hg).1]
    refine hi.shelf_hint (some d) x ?_
    rw [(shelf_of_group hg).2]
    exact hx
  case parked_hint => exact hi.shelf_hint none
  case key_asc =>
    intro k l hl
    rw [← hline hl]
    exact hi.key_asc k
  case key_mem =>
    intro k p
    rw [← hi.key_mem k p]
    constructor
    · rintro ⟨l, hl, hp⟩
      rw [hline hl]
      exact hp
    · intro hp
      cases hl : m.byKey.get k with
      | none => simp [keyLine, hl] at hp
      | some l =>
        rw [hline hl] at hp
        exact ⟨l, rfl, hp⟩
  case key_nonempty =>
    rintro k l hl rfl
    exact h.keys k hl
  case counts => exact h.counted

/-- Every sequence of calls and replays, inserts in increasing Seq, keeps the
redundant structures in agreement, and the byte count is the sum of the sizes of
the whole records, wherever their payloads and checkpoints live. -/
theorem index_represented (lim : Limits) (ops : List IndexOp) (m : Machine) (q : Queue)
    (hrun : run IndexOp.step (newMachine lim, .empty) ops = some (m, q)) :
    Represented m ∧
      m.bytes = (q.recs.map fun r => (r.size : Int)).sum ∧
        q.recs.map (fun r => (⟨r.id, r.seq⟩ : Ptr)) = m.order := by
  have h : Rep m q := by
    refine run_invariant IndexOp.step (I := fun s => Rep s.1 s.2) ?_ (rep_new lim) hrun
    intro s op t hs hstep
    obtain ⟨m', hexec, rfl⟩ := Option.map_eq_some_iff.mp hstep
    exact hs.exec hexec
  exact ⟨h.represented, h.shows.bytes_eq, h.shows.map_ptr h.indexed⟩

/-- One record in memory and one on disk, with a checkpoint in each place, moved
between dependencies, parked and replayed. -/
def demoCalls : List IndexOp :=
  [.insert (demoRecord "a" 1 "k" "db" 0),
    .insertOffloaded { demoRecord "b" 2 "k" "api" 0 with value := some (str "payload") }
      ⟨1, false, false, 1, 32, 90⟩,
    .setCheckpoint (str "a") (some (str "one")),
    .setCheckpointRef (str "b") (some (str "second")) ⟨3, false, false, 1, 122, 40⟩,
    .grant [(⟨str "a", 1⟩, str "t")] 5 10,
    .applyNack (str "a") 6 7 (str "down") (str "api") false,
    .replayPark (str "b") 8 (str "bad"),
    .replayLease (str "a"),
    .endReplay]

theorem index_represented_demo :
    ∃ m q, run IndexOp.step (newMachine ⟨0, 0, 0⟩, .empty) demoCalls = some (m, q) ∧
      m.counts = ⟨1, 0, 1⟩ ∧ Represented m ∧
        m.bytes = (q.recs.map fun r => (r.size : Int)).sum := by
  obtain ⟨⟨m, q⟩, hrun, hm⟩ : ∃ s, run IndexOp.step (newMachine ⟨0, 0, 0⟩, .empty) demoCalls =
      some s ∧ s.1.counts = ⟨1, 0, 1⟩ := by
    decide +kernel
  obtain ⟨hrep, hbytes, -⟩ := index_represented ⟨0, 0, 0⟩ demoCalls m q hrun
  exact ⟨m, q, hrun, hm, hrep, hbytes⟩

end Kept

end Dlq
end GoGuard
