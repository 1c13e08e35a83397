import GoGuard.Dlq.Refine

/-!
# Calls and replay refine the queue

A store step that logs an entry changes the queue by that entry, and so does the
replay of the entry; a step that logs nothing leaves the queue alone.  Where a
payload goes is left to the reader: `Finds` says which entry a reader sees when
the frame of an entry is at a reference.
-/

namespace GoGuard
namespace Dlq

open Lib Machine List

section Finding

/-- The item `insertRecord` makes. -/
def newItem (offload : Bool) (r : Record) (ref : BlobRef) : Item :=
  if offload then offloadedItem r ref else .new r

/-- The item with a checkpoint at `ref`, as far as a reader is concerned. -/
structure WithCheckpoint
    (offload : Bool) (cp : Option Bytes) (ref : BlobRef) (it it' : Item) : Prop where
  record : it'.record = it.record.setCheckpoint (if offload then none else cp)
  bodyRef : it'.bodyRef = it.bodyRef
  ckptRef : it'.ckptRef = if offload ∧ cp ≠ none then ref else .zero
  bodyN : it'.bodyN = it.bodyN
  ckptN : it'.ckptN = if offload then lenBytes cp else 0
  fit : Fit it'

/-- The new checkpoint of a record is seen as `cp₀`. -/
def FindsCheckpoint (R : Item → Record → Prop) (offload : Bool) (ref : BlobRef) (id : Bytes)
    (cp cp₀ : Option Bytes) : Prop :=
  ∀ it it' r, it.record.id = id → WithCheckpoint offload cp ref it it' →
    R it r → R it' (r.setCheckpoint cp₀)

/-- With its frame at `ref`, the entry `e` is seen as `e₀`. -/
def Finds (R : Item → Record → Prop) (offload : Bool) (ref : BlobRef) : Entry → Entry → Prop
  | .append r, e₀ =>
    ∃ r₀, e₀ = .append r₀ ∧ R (newItem offload r ref) r₀
  | .checkpoint id cp, e₀ =>
    ∃ cp₀, e₀ = .checkpoint id cp₀ ∧ FindsCheckpoint R offload ref id cp cp₀
  | .requeue id true cp, e₀ =>
    ∃ cp₀, e₀ = .requeue id true cp₀ ∧ FindsCheckpoint R offload ref id cp cp₀
  | e, e₀ => e₀ = e

end Finding

section Replay

variable {R : Item → Record → Prop} {offload : Bool} {ref : BlobRef}
variable {m : Machine} {q : Queue} {it : Item} {id : Bytes}

theorem insertRecord_eq (offload : Bool) (m : Machine) (r : Record) (ref : BlobRef) :
    insertRecord offload m r ref =
      if (m.items.get r.id).isSome then m
      else m.insertItem (newItem offload r ref) r.size := by
  cases offload <;> rfl

theorem newItem_id (offload : Bool) (r : Record) (ref : BlobRef) :
    (newItem offload r ref).record.id = r.id := by
  cases offload <;> rfl

theorem newItem_meta (offload : Bool) (r : Record) (ref : BlobRef) :
    (newItem offload r ref).record.seq = r.seq ∧
      (newItem offload r ref).record.orderKey = r.orderKey ∧
        (newItem offload r ref).record.state = r.state := by
  cases offload <;> exact ⟨rfl, rfl, rfl⟩

theorem newItem_size (offload : Bool) (r : Record) (ref : BlobRef) :
    (newItem offload r ref).size = r.size := by
  cases offload <;> rfl

variable {r : Record} {cp cp₀ : Option Bytes} {f : Change} {replace : Bool} {e₀ e : Entry}

theorem Indexed.insertRecord (h : Indexed m) (hseq : (m.items.get r.id).isSome ∨ m.seq < r.seq) :
    Indexed (insertRecord offload m r ref) := by
  unfold Dlq.insertRecord
  split
  · exact h.insertOffloaded hseq ref
  · exact h.insert hseq

theorem Shows.insertRecord {r₀ : Record} (h : Indexed m) (hs : Shows R m q)
    (hread : R (newItem offload r ref) r₀) :
    Shows R (insertRecord offload m r ref) (q.push r₀) := by
  have hid : r₀.id = r.id := (hs.sight.same hread).1.trans (newItem_id offload r ref)
  rw [insertRecord_eq]
  split
  · next hknown =>
    obtain ⟨x, hx⟩ := Option.isSome_iff_exists.mp hknown
    have hmem : ∃ y ∈ q.recs, y.id = r₀.id := by
      obtain ⟨y, hy, hxy⟩ := hs.record h (h.get_ptr hx)
      exact ⟨y, hy, by rw [(hs.sight.same hxy).1, hid, (h.live _ x hx).1]⟩
    unfold Queue.push
    rw [if_pos hmem]
    exact hs
  · next hnew =>
    rw [← newItem_size offload r ref]
    refine hs.push h ?_ hread
    rw [newItem_id]
    simpa using hnew

theorem Indexed.setCheckpointAt (h : Indexed m) (id : Bytes) (cp : Option Bytes) (ref : BlobRef) :
    Indexed (setCheckpointAt offload m id cp ref) := by
  unfold Dlq.setCheckpointAt
  split
  · exact h.setCheckpointRef id _ _
  · exact h.setCheckpoint id cp

theorem touched_setCheckpointAt (hit : m.items.get it.record.id = some it)
    (offload : Bool) (cp : Option Bytes) (ref : BlobRef) :
    ∃ it', Touched m (Dlq.setCheckpointAt offload m it.record.id cp ref) it it' ∧
      WithCheckpoint offload cp ref it it' := by
  cases offload with
  | false =>
    obtain ⟨it', ht, hrec, hbody, hckpt, hbodyN, hckptN, hfit⟩ :=
      touched_setCheckpoint hit cp
    exact ⟨it', ht, ⟨hrec, hbody, by simpa using hckpt, hbodyN, hckptN, hfit⟩⟩
  | true =>
    obtain ⟨it', ht, hrec, hbody, hckpt, hbodyN, hckptN, hfit⟩ :=
      touched_setCheckpointRef hit (lenBytes cp) (if cp = none then .zero else ref)
    refine ⟨it', ht, ⟨hrec, hbody, ?_, hbodyN, hckptN, hfit⟩⟩
    rw [hckpt]
    cases cp <;> rfl

section

variable (h : Indexed m)
include h

theorem Shows.setCheckpointAt (hs : Shows R m q) (hit : m.items.get it.record.id = some it)
    (hfind : FindsCheckpoint R offload ref it.record.id cp cp₀) :
    Shows R (Dlq.setCheckpointAt offload m it.record.id cp ref)
      (q.touch it.record.id fun r => some (r.setCheckpoint cp₀)) := by
  obtain ⟨it', ht, hwith⟩ := touched_setCheckpointAt hit offload cp ref
  refine hs.touch h hit ht ?_
  intro r hr
  exact ⟨_, rfl, hfind it it' r rfl hwith hr⟩

theorem Shows.revise {m' : Machine} {it' : Item} {g : Record → Record}
    (hs : Shows R m q) (hit : m.items.get it.record.id = some it) (ht : Touched m m' it it')
    (hg : MetaOnly g) (hrev : Revised g it it') :
    Shows R m' (q.touch it.record.id fun r => some (g r)) := by
  refine hs.touch h hit ht ?_
  intro r hr
  exact ⟨g r, rfl, hs.sight.revised hg hrev hr⟩

theorem Indexed.replayLease (id : Bytes) : Indexed (m.replayLease id) := by
  unfold Machine.replayLease
  split
  · exact h
  · next it hit =>
    have hsig : it.sig = Item.sig
        { it with record := { it.record with attempts := it.record.attempts + 1 } } := rfl
    refine IndexedBut.move h ?_ hsig _ _
    exact h.get_ptr hit

theorem Shows.replayLease (hs : Shows R m q) (id : Bytes) :
    Shows R (m.replayLease id) (q.touch id fun r => some r.lease) := by
  cases hit : m.items.get id with
  | none =>
    rw [hs.touch_absent h hit]
    unfold Machine.replayLease
    rw [hit]
    exact hs
  | some it =>
    obtain rfl := (h.live id it hit).1
    obtain ⟨it', ht, hrev⟩ := touched_replayLease hit
    exact hs.revise h hit ht metaOnly_lease hrev

theorem Shows.replayLeases (hs : Shows R m q) (ids : List Bytes) :
    Indexed (ids.foldl Machine.replayLease m) ∧
      Shows R (ids.foldl Machine.replayLease m) (q.apply (.lease ids)) := by
  change _ ∧ Shows R _ (q.touchAll (ids.map fun id => (id, fun r => some r.lease)))
  induction ids generalizing m q with
  | nil => exact ⟨h, hs⟩
  | cons id ids ih => exact ih (Indexed.replayLease h id) (hs.replayLease h id)

theorem Shows.change {g : Item → Machine} (hs : Shows R m q) (id : Bytes)
    (hf : ∀ it, m.items.get it.record.id = some it → it.record.id = id →
      Shows R (g it) (q.touch it.record.id f)) :
    Shows R (match m.items.get id with | none => m | some it => g it) (q.touch id f) := by
  cases hit : m.items.get id with
  | none =>
    rw [hs.touch_absent h hit]
    exact hs
  | some it =>
    obtain rfl := (h.live id it hit).1
    exact hf it hit rfl

theorem Shows.touch_unchanged (hs : Shows R m q) (hit : m.items.get it.record.id = some it)
    (hf : ∀ r, r.state = it.record.state → f r = some r) : q.touch it.record.id f = q := by
  refine Queue.touch_id fun r hr hid => ?_
  obtain ⟨x, hx, hread⟩ := hs.item h hr
  rw [hid] at hx
  obtain rfl := Option.some.inj (hx.symm.trans hit)
  exact hf r (hs.sight.same hread).2.2.2

theorem Shows.applyRequeue (hs : Shows R m q)
    (hit : m.items.get it.record.id = some it) (hparked : it.record.state = .parked)
    (hreplace : replace = false) :
    Shows R (m.applyRequeue it false none)
      (q.touch it.record.id (requeueChange replace cp)) := by
  obtain ⟨it', ht, hrev⟩ := touched_requeue hit
  refine hs.touch h hit ht ?_
  intro r hr
  refine ⟨r.requeue, ?_, ?_⟩
  · unfold requeueChange
    rw [if_pos ((hs.sight.same hr).2.2.2.trans hparked), hreplace]
    rfl
  · exact hs.sight.revised metaOnly_requeue hrev hr

theorem Shows.requeueCheckpoint (hs : Shows R m q)
    (hit : m.items.get it.record.id = some it) (hparked : it.record.state = .parked)
    (hfind : FindsCheckpoint R offload ref it.record.id cp cp₀) :
    Shows R (Dlq.setCheckpointAt offload (m.applyRequeue it false none) it.record.id cp ref)
      (q.touch it.record.id (requeueChange true cp₀)) := by
  obtain ⟨it', ht, hrev⟩ := touched_requeue hit
  have hit' : (m.applyRequeue it false none).items.get it'.record.id = some it' := by
    rw [ht.get, if_pos ht.same]
  obtain ⟨it'', ht', hwith⟩ := touched_setCheckpointAt hit' offload cp ref
  rw [ht.same] at ht'
  refine hs.touch h hit (ht.trans ht') ?_
  intro r hr
  refine ⟨r.requeue.setCheckpoint cp₀, ?_, ?_⟩
  · unfold requeueChange
    rw [if_pos ((hs.sight.same hr).2.2.2.trans hparked)]
    rfl
  · exact hfind it' it'' r.requeue ht.same hwith (hs.sight.revised metaOnly_requeue hrev hr)

theorem Shows.replayRequeue (hs : Shows R m q) (id : Bytes)
    (hfind : Finds R offload ref (.requeue id replace cp) e₀) :
    Shows R (replayRequeue offload m id replace cp ref) (q.apply e₀) := by
  obtain ⟨cp₀, rfl, hcp⟩ : ∃ cp₀, e₀ = .requeue id replace cp₀ ∧
      (replace = true → FindsCheckpoint R offload ref id cp cp₀) := by
    cases replace with
    | false => exact ⟨cp, hfind, fun h => nomatch h⟩
    | true =>
      obtain ⟨cp₀, he, hcp⟩ := hfind
      exact ⟨cp₀, he, fun _ => hcp⟩
  unfold Dlq.replayRequeue
  refine hs.change h id ?_
  rintro it hit rfl
  split
  · next hstate =>
    rw [hs.touch_unchanged h hit (f := requeueChange replace cp₀) fun r hr => if_neg (hr ▸ hstate)]
    exact hs
  · next hstate =>
    have hparked := not_not.mp hstate
    cases replace with
    | false => exact hs.applyRequeue h hit hparked rfl
    | true => exact hs.requeueCheckpoint h hit hparked (hcp rfl)

theorem Shows.replayDiscard (hs : Shows R m q) (id : Bytes) :
    Shows R (m.replayDiscard id) (q.apply (.discard id)) := by
  refine hs.change h id ?_
  rintro it hit rfl
  split
  · next hparked =>
    refine hs.remove h hit ?_
    intro r hr
    exact if_pos ((hs.sight.same hr).2.2.2.trans hparked)
  · next hstate =>
    rw [hs.touch_unchanged h hit (f := discardChange) fun r hr => if_neg (hr ▸ hstate)]
    exact hs

/-- The replay of an entry changes the queue by what is seen of the entry. -/
theorem Shows.applyEntry (hs : Shows R m q) (hfind : Finds R offload ref e e₀) :
    Shows R (applyEntry offload m ref e) (q.apply e₀) := by
  cases e with
  | append r =>
    obtain ⟨r₀, rfl, hread⟩ := hfind
    exact hs.insertRecord h hread
  | lease ids =>
    obtain rfl : e₀ = .lease ids := hfind
    exact (hs.replayLeases h ids).2
  | checkpoint id cp =>
    obtain ⟨cp₀, rfl, hcp⟩ := hfind
    refine hs.change h id ?_
    rintro it hit rfl
    exact hs.setCheckpointAt h hit hcp
  | ack id =>
    obtain rfl : e₀ = .ack id := hfind
    refine hs.change h id ?_
    intro it hit _
    exact hs.remove h hit fun _ _ => rfl
  | nack id stamp next errText blockedOn refund =>
    obtain rfl : e₀ = .nack id stamp next errText blockedOn refund := hfind
    refine hs.change h id ?_
    intro it hit _
    obtain ⟨it', ht, hrev⟩ := touched_applyNack hit stamp next errText blockedOn refund
    exact hs.revise h hit ht (metaOnly_nack _ _ _ _ _) hrev
  | release id =>
    obtain rfl : e₀ = .release id := hfind
    refine hs.change h id ?_
    intro it hit _
    obtain ⟨it', ht, hrev⟩ := touched_applyRelease hit
    exact hs.revise h hit ht metaOnly_release hrev
  | park id stamp reason =>
    obtain rfl : e₀ = .park id stamp reason := hfind
    refine hs.change h id ?_
    intro it hit _
    obtain ⟨it', ht, hrev⟩ := touched_applyPark hit stamp reason
    exact hs.revise h hit ht (metaOnly_park _ _) hrev
  | requeue id replace cp => exact hs.replayRequeue h id hfind
  | discard id =>
    obtain rfl : e₀ = .discard id := hfind
    exact hs.replayDiscard h id

theorem Indexed.applyEntry (hnew : ∀ r, e = .append r → (m.items.get r.id).isSome ∨ m.seq < r.seq) :
    Indexed (applyEntry offload m ref e) := by
  have hchange : ∀ (id : Bytes) (g : Item → Machine),
      (∀ it, m.items.get it.record.id = some it → Indexed (g it)) →
        Indexed (match m.items.get id with | none => m | some it => g it) := by
    intro id g hg
    cases hit : m.items.get id with
    | none => exact h
    | some it => exact hg it (h.get_ptr hit)
  cases e with
  | append r => exact Indexed.insertRecord h (hnew r rfl)
  | lease ids =>
    change Indexed (ids.foldl Machine.replayLease m)
    clear hnew hchange
    induction ids generalizing m with
    | nil => exact h
    | cons id ids ih => exact ih (Indexed.replayLease h id)
  | checkpoint id cp => exact hchange id _ fun it hit => Indexed.setCheckpointAt h id cp ref
  | ack id => exact hchange id _ fun it hit => h.remove hit
  | nack id stamp next errText blockedOn refund =>
    exact hchange id _ fun it hit => h.applyNack hit stamp next errText blockedOn refund
  | release id => exact hchange id _ fun it hit => h.applyRelease hit
  | park id stamp reason => exact hchange id _ fun it hit => h.applyPark hit stamp reason
  | requeue id replace cp =>
    refine hchange id _ fun it hit => ?_
    split
    · exact h
    · split
      · exact Indexed.setCheckpointAt (h.applyRequeue hit false none) id cp ref
      · exact h.applyRequeue hit false none
  | discard id =>
    refine hchange id _ fun it hit => ?_
    split
    · exact h.remove hit
    · exact h

end

end Replay

section Aside

variable {R : Item → Record → Prop} {offload : Bool}
variable {m : Machine} {q : Queue} {it : Item}

section

variable (h : Indexed m) (hs : Shows R m q) (hit : m.items.get it.record.id = some it)
include h hs hit

theorem Shows.untouched {m' : Machine} {it' : Item} (ht : Touched m m' it it')
    (hrev : Revised id it it') : Shows R m' q := by
  have hid : MetaOnly id := fun _ _ => ⟨rfl, rfl, rfl⟩
  have hq : (q.touch it.record.id fun r => some (id r)) = q :=
    Queue.touch_id fun _ _ _ => rfl
  rw [← hq]
  exact hs.revise h hit ht hid hrev

theorem Shows.reserve : Shows R (m.reserve it) q := by
  refine hs.untouched h hit (touched_store rfl rfl) ?_
  exact ⟨rfl, rfl, rfl, rfl, rfl, fun hfit => hfit⟩

theorem Shows.unreserve : Shows R (m.unreserve it) q := by
  have hstored : Touched m (m.store { it with reserved := false }) it
      { it with reserved := false } := touched_store rfl rfl
  have hrev : Revised id it { it with reserved := false } :=
    ⟨rfl, rfl, rfl, rfl, rfl, fun hfit => hfit⟩
  unfold Machine.unreserve
  split
  · exact hs
  · split
    · exact hs.untouched h hit hstored hrev
    · refine hs.untouched h hit (hstored.trans (touched_clearWake ?_ _)) hrev
      rw [hstored.get]
      exact if_pos rfl

end

/-- A rule for the calls about one picked item after the other. -/
theorem foldl_withPtr_keeps
    {α : Type} {ptr : α → Ptr} {f : Machine → Item → Machine} {P : Machine → Prop}
    (hP : ∀ {m}, P m → Indexed m)
    (hf : ∀ {m it}, P m → m.items.get it.record.id = some it → P (f m it)) (hm : P m)
    (xs : List α) : P (xs.foldl (fun m x => m.withPtr (ptr x) (f m)) m) := by
  induction xs generalizing m with
  | nil => exact hm
  | cons x xs ih => exact ih (withPtr_keeps P (hP hm) hm fun it hit => hf hm hit)

theorem Indexed.releaseCands (h : Indexed m) (cands : List Cand) : Indexed (releaseCands m cands) :=
  foldl_withPtr_keeps id (fun h hit => h.unreserve hit) h cands

theorem Shows.releaseCands (h : Indexed m) (hs : Shows R m q) (cands : List Cand) :
    Shows R (releaseCands m cands) q :=
  (foldl_withPtr_keeps (P := fun m => Indexed m ∧ Shows R m q) And.left
    (fun h hit => ⟨h.1.unreserve hit, h.2.unreserve h.1 hit⟩) ⟨h, hs⟩ cands).2

theorem selectLease_aside (m : Machine) (ord : List Bytes) (now : Time) (req : LeaseRequest) :
    (m.selectLease ord now req).1.order = m.order ∧
      (m.selectLease ord now req).1.items = m.items ∧
        (m.selectLease ord now req).1.seq = m.seq ∧
          (m.selectLease ord now req).1.bytes = m.bytes :=
  selectLease_keeps (P := fun x => x.order = m.order ∧ x.items = m.items ∧ x.seq = m.seq ∧
    x.bytes = m.bytes) ⟨rfl, rfl, rfl, rfl⟩ (fun h _ => h) ord

theorem Shows.selectLease (hs : Shows R m q) (ord : List Bytes) (now : Time) (req : LeaseRequest) :
    Shows R (m.selectLease ord now req).1 q := by
  obtain ⟨horder, hitems, hseq, hbytes⟩ := selectLease_aside m ord now req
  exact hs.aside horder hitems hseq hbytes

theorem Indexed.pickLease (h : Indexed m) (ord : List Bytes) (now : Time) (req : LeaseRequest) :
    Indexed (pickLease m ord now req).1 :=
  foldl_withPtr_keeps id (fun h hit => h.reserve hit) (h.selectLease ord now req) _

theorem Shows.pickLease (h : Indexed m) (hs : Shows R m q)
    (ord : List Bytes) (now : Time) (req : LeaseRequest) : Shows R (pickLease m ord now req).1 q :=
  (foldl_withPtr_keeps (P := fun m => Indexed m ∧ Shows R m q) And.left
    (fun h hit => ⟨h.1.reserve hit, h.2.reserve h.1 hit⟩)
    ⟨h.selectLease ord now req, hs.selectLease ord now req⟩ _).2

/-- Granting leases changes the queue by the entry that names their records. -/
theorem Shows.grant (h : Indexed m) (hs : Shows R m q)
    (picked : List (Ptr × Bytes)) (now : Time) (ttl : Int) :
    Shows R (m.grant picked now ttl) (q.apply (.lease (picked.map fun x => x.1.id))) := by
  change Shows R _ (q.touchAll ((picked.map fun x => x.1.id).map
    fun id => (id, fun r => some r.lease)))
  induction picked generalizing m q with
  | nil => exact hs
  | cons x picked ih =>
    refine ih (h.grant [x] now ttl) (hs.change h x.1.id ?_)
    intro it hit _
    obtain ⟨it', ht, hrev, -⟩ := touched_grantOne hit x.2 (now + ttl)
    exact hs.revise h hit ht metaOnly_lease hrev

end Aside

section Calls

variable {offload : Bool} {refOf : Entry → BlobRef}
variable {m m' : Machine} {it : Item} {id token : Bytes} {now : Time}

theorem held_token (hheld : m.held id token = .ok it) :
    m.items.get id = some it ∧ it.record.state = .leased ∧ it.token = token := by
  unfold held at hheld
  split at hheld
  · cases hheld
  · next x hx =>
    obtain ⟨hgood, hheld⟩ := of_unless hheld
    cases hheld
    simp only [not_or, not_not] at hgood
    exact ⟨hx, hgood.1, hgood.2.2⟩

theorem held_eq_ok (hheld : m.held id token = .ok it) : m.items.get id = some it :=
  (held_token hheld).1

theorem parkedItem_eq_ok (hparked : parkedItem m id = .ok it) :
    m.items.get id = some it ∧ it.record.state = .parked := by
  unfold parkedItem at hparked
  split at hparked
  · cases hparked
  · next x hx =>
    obtain ⟨hstate, hparked⟩ := of_unless hparked
    cases hparked
    exact ⟨hx, not_not.mp hstate⟩

variable {out : Option Entry × Machine} {r r' : Record}

theorem withLease_eq_ok {e : Entry} {apply : Item → Machine}
    (hexec : withLease m id token e apply = .ok out) :
    ∃ it, m.held id token = .ok it ∧ out = (some e, apply it) := by
  unfold withLease at hexec
  split at hexec
  · cases hexec
  · next it hheld =>
    cases hexec
    exact ⟨it, hheld, rfl⟩

/-- What a call that succeeds has checked, what it logs and what it does. -/
inductive Executed (offload : Bool) (refOf : Entry → BlobRef) (m : Machine) (now : Time) :
    Call → Option Entry × Machine → Prop
  | known {r : Record} (hprep : m.prepare r now = .ok none) :
    Executed offload refOf m now (.append r) (none, m)
  | append {r r' : Record} (hprep : m.prepare r now = .ok (some r')) :
    Executed offload refOf m now (.append r)
      (some (.append r'), insertRecord offload m r' (refOf (.append r')))
  | checkpoint {id token : Bytes} {cp : Option Bytes} {it : Item}
    (hheld : m.held id token = .ok it) :
    Executed offload refOf m now (.checkpoint id token cp) (some (.checkpoint id cp),
      setCheckpointAt offload m id cp (refOf (.checkpoint id cp)))
  | ack {id token : Bytes} {it : Item} (hheld : m.held id token = .ok it) :
    Executed offload refOf m now (.ack id token) (some (.ack id), m.remove it)
  | release {id token : Bytes} {it : Item} (hheld : m.held id token = .ok it) :
    Executed offload refOf m now (.release id token) (some (.release id), m.applyRelease it)
  | nack {id token : Bytes} {o : NackOptions} {it : Item} (hheld : m.held id token = .ok it) :
    Executed offload refOf m now (.nack id token o)
      (some (.nack id now (now + o.delay) o.err o.blockedOn o.refund),
        m.applyNack it now (now + o.delay) o.err o.blockedOn o.refund)
  | park {id token reason : Bytes} {it : Item} (hheld : m.held id token = .ok it) :
    Executed offload refOf m now (.park id token reason)
      (some (.park id now reason), m.applyPark it now reason)
  | requeueWith {id : Bytes} {o : RequeueOptions} {it : Item} {e : Entry}
    (hparked : parkedItem m id = .ok it)
    (he : e = .requeue id o.replaceCheckpoint
      (if o.replaceCheckpoint then o.checkpoint else none)) :
    Executed offload refOf m now (.requeueWith id o) (some e, requeued offload m it o (refOf e))
  | discard {id : Bytes} {it : Item} (hparked : parkedItem m id = .ok it) :
    Executed offload refOf m now (.discard id) (some (.discard id), m.remove it)

/-- Every call that succeeds is one of these. -/
theorem executed_of_exec {c : Call} (hexec : c.exec offload refOf m now = .ok out) :
    Executed offload refOf m now c out := by
  cases c with
  | append r =>
    simp only [Call.exec] at hexec
    split at hexec
    · cases hexec
    · next hprep =>
      cases hexec
      exact .known hprep
    · next r' hprep =>
      cases hexec
      exact .append hprep
  | checkpoint id token cp =>
    simp only [Call.exec] at hexec
    split at hexec
    · cases hexec
    · next it hheld =>
      split at hexec
      · cases hexec
      · cases hexec
        exact .checkpoint hheld
  | ack | release | nack | park =>
    obtain ⟨it, hheld, rfl⟩ := withLease_eq_ok hexec
    constructor
    exact hheld
  | requeueWith id o =>
    simp only [Call.exec] at hexec
    split at hexec
    · cases hexec
    · next it hparked =>
      split at hexec
      · cases hexec
      · cases hexec
        exact .requeueWith hparked rfl
  | discard id =>
    simp only [Call.exec] at hexec
    split at hexec
    · cases hexec
    · next it hparked =>
      cases hexec
      exact .discard hparked

/-- What `prepare` makes of a record that is no duplicate. -/
structure Prepared (m : Machine) (r r' : Record) : Prop where
  new : m.items.get r'.id = none
  id : r'.id = r.id
  orderKey : r'.orderKey = r.orderKey
  seq : r'.seq = m.seq + 1
  attempts : r'.attempts = r.attempts
  counted : 0 ≤ r'.attempts
  free : r'.state ≠ .leased

/-- A record with a Seq and its defaults, as `prepare` stores it. -/
def Record.filled (seq : Nat) (now : Time) (r : Record) : Record :=
  { r with
    seq := seq
    firstFailed := if isZero r.firstFailed then now else r.firstFailed
    lastFailed :=
      if isZero r.lastFailed then
        (if isZero r.firstFailed then now else r.firstFailed)
      else r.lastFailed
    schemaVersion := if r.schemaVersion = 0 then currentSchema else r.schemaVersion }

theorem prepare_cases {out : Option Record} (hprep : m.prepare r now = .ok out) :
    (out = none ∧ (m.items.get r.id).isSome = true) ∨
    ∃ r', out = some r' ∧ Prepared m r r' ∧
      r' = r.filled (m.seq + 1) now := by
  unfold prepare at hprep
  split at hprep
  · cases hprep
  · next hvalid =>
    obtain ⟨-, -, hcounted, hfree⟩ := Record.validate_eq_ok hvalid
    obtain ⟨-, hprep⟩ := of_unless hprep
    split at hprep
    · next hknown =>
      cases hprep
      exact .inl ⟨rfl, hknown⟩
    · next hnew =>
      obtain ⟨-, hprep⟩ := of_unless hprep
      obtain ⟨-, hprep⟩ := of_unless hprep
      cases hprep
      exact .inr ⟨_, rfl, ⟨by simpa using hnew, rfl, rfl, rfl, rfl, hcounted, hfree⟩, rfl⟩

theorem prepared_filled (hprep : m.prepare r now = .ok (some r')) :
    Prepared m r r' ∧ r' = r.filled (m.seq + 1) now := by
  rcases prepare_cases hprep with ⟨hdup, -⟩ | ⟨x, hx, hprepared⟩
  · cases hdup
  · cases hx
    exact hprepared

theorem prepare_eq_some (hprep : m.prepare r now = .ok (some r')) : Prepared m r r' :=
  (prepared_filled hprep).1

/-- An entry a call logs: no lease, and a new record is new. -/
def Logged (m : Machine) : Entry → Prop
  | .append r => m.items.get r.id = none ∧ r.seq = m.seq + 1 ∧ r.state ≠ .leased
  | .lease _ => False
  | _ => True

/-- What a call does to the machine is what the replay of its entry does. -/
theorem exec_eq_replay {c : Call} (h : Indexed m) (hexec : c.exec offload refOf m now = .ok out) :
    out = (none, m) ∨
      ∃ e, out = (some e, applyEntry offload m (refOf e) e) ∧ Logged m e := by
  have hsome : ∀ {e : Entry} {m' : Machine}, m' = applyEntry offload m (refOf e) e →
      Logged m e → (some e, m') = (none, m) ∨
        ∃ x, (some e, m') = (some x, applyEntry offload m (refOf x) x) ∧ Logged m x :=
    fun heq hlogged => .inr ⟨_, by rw [heq], hlogged⟩
  cases executed_of_exec hexec with
  | known => exact .inl rfl
  | append hprep =>
    have hprepared := prepare_eq_some hprep
    exact hsome rfl ⟨hprepared.new, hprepared.seq, hprepared.free⟩
  | checkpoint hheld =>
    refine hsome ?_ trivial
    simp only [applyEntry, replayCheckpoint, held_eq_ok hheld]
  | ack hheld =>
    refine hsome ?_ trivial
    simp only [applyEntry, replayAck, held_eq_ok hheld]
  | release hheld =>
    refine hsome ?_ trivial
    simp only [applyEntry, replayRelease, held_eq_ok hheld]
  | nack hheld =>
    refine hsome ?_ trivial
    simp only [applyEntry, replayNack, held_eq_ok hheld]
  | park hheld =>
    refine hsome ?_ trivial
    simp only [applyEntry, replayPark, held_eq_ok hheld]
  | @requeueWith id o it _ hparked he =>
    obtain ⟨hit, hstate⟩ := parkedItem_eq_ok hparked
    obtain rfl := (h.live id it hit).1
    subst he
    refine hsome ?_ trivial
    simp only [applyEntry, replayRequeue, hit, hstate, ne_eq, not_true_eq_false, if_false, requeued]
    cases o.replaceCheckpoint <;> rfl
  | discard hparked =>
    obtain ⟨hit, hstate⟩ := parkedItem_eq_ok hparked
    refine hsome ?_ trivial
    simp only [applyEntry, replayDiscard, hit, hstate, if_true]

end Calls

section Steps

variable {offload : Bool} {refOf : Entry → BlobRef}
variable {m : Machine} {s s' : Core}

/-- A pointer to an item at the head of its order key. -/
def HeadPtr (m : Machine) (p : Ptr) : Prop :=
  ∃ it, m.items.get p.id = some it ∧ it.ptr = p ∧ m.atHead it = true

/-- The index of the machine is right, and a `commitLease` that holds the lock
is about heads of their keys. -/
structure CoreOk (s : Core) : Prop where
  indexed : Indexed s.m
  commit : ∀ c, s.commit = some c → ∀ p, p ∈ c.bad ∨ p ∈ c.good → HeadPtr s.m p

theorem coreOk_new (lim : Limits) : CoreOk (.new lim) :=
  ⟨indexed_new lim, fun _ hc => nomatch hc⟩

variable {p : Ptr} {it : Item} {now : Time} {e e₀ : Entry} {ref : BlobRef} {ps : List Ptr}
  {tokens : List Bytes}

theorem headPtr_of_eligible (hit : m.items.get p.id = some it) (hptr : it.ptr = p)
    (helig : m.eligible it now = true) : HeadPtr m p := by
  unfold eligible at helig
  simp only [Bool.and_eq_true] at helig
  exact ⟨it, hit, hptr, helig.2⟩

theorem headPtr_of_candsRead {cands : List Cand} {reads : List ReadResult} {r : ReadResult}
    (hp : p ∈ candsRead m now cands reads r) : HeadPtr m p := by
  obtain ⟨x, hx, rfl⟩ := mem_map.mp hp
  have hgood : stillGood m now x.1 = true := by
    have h := (mem_filter.mp hx).2
    simp only [Bool.and_eq_true] at h
    exact h.1
  unfold stillGood at hgood
  split at hgood
  · cases hgood
  · next it hit =>
    simp only [Bool.and_eq_true, decide_eq_true_eq] at hgood
    exact headPtr_of_eligible hit hgood.1.1 hgood.2

theorem HeadPtr.applyPark (h : HeadPtr m p) (hit : m.items.get it.record.id = some it)
    (stamp : Time) (reason : Bytes) : HeadPtr (m.applyPark it stamp reason) p := by
  obtain ⟨x, hx, hptr, hhead⟩ := h
  obtain ⟨it', ht, hrev⟩ := touched_applyPark hit stamp reason
  have hline : ∀ y, (m.applyPark it stamp reason).atHead y = m.atHead y := by
    intro y
    have hkey := ht.keyLine y.record.orderKey
    unfold keyLine at hkey
    unfold atHead
    rw [hkey]
  by_cases hid : p.id = it.record.id
  · obtain rfl : x = it := by
      rw [hid] at hx
      exact Option.some.inj (hx.symm.trans hit)
    have hsame : it'.ptr = x.ptr ∧ it'.record.orderKey = x.record.orderKey := by
      unfold Item.ptr
      rw [hrev.record]
      exact ⟨rfl, rfl⟩
    refine ⟨it', ?_, hsame.1.trans hptr, ?_⟩
    · rw [ht.get, if_pos hid]
    · rw [hline]
      unfold atHead at hhead ⊢
      rw [hsame.1, hsame.2]
      exact hhead
  · refine ⟨x, ?_, hptr, ?_⟩
    · rw [ht.get, if_neg hid, hx]
    · rw [hline, hhead]

/-- What a step of a store does to the queue: nothing, the replay of the entry
it logs, or a lease of heads. -/
def StepEffect (offload : Bool) (refOf : Entry → BlobRef) (m m' : Machine) :
    Option Entry → Prop
  | none => ∀ R q, Shows R m q → Shows R m' q
  | some e =>
    (Logged m e ∧ m' = applyEntry offload m (refOf e) e) ∨
      ∃ ids, e = .lease ids ∧ (∀ id ∈ ids, ∃ p, p.id = id ∧ HeadPtr m p) ∧
        ∀ R q, Shows R m q → Shows R m' (q.apply e)

theorem Indexed.applyLogged (h : Indexed m) (he : Logged m e) :
    Indexed (Dlq.applyEntry offload m ref e) := by
  refine Indexed.applyEntry h ?_
  rintro r rfl
  right
  rw [he.2.1]
  exact Nat.lt_succ_self _

theorem map_fst_id_zip (hlen : tokens.length = ps.length) :
    (ps.zip tokens).map (fun x => x.1.id) = ps.map Ptr.id := by
  have hfst : (ps.zip tokens).map Prod.fst = ps := map_fst_zip hlen.ge
  calc (ps.zip tokens).map (fun x => x.1.id)
      = ((ps.zip tokens).map Prod.fst).map Ptr.id := (map_map ..).symm
    _ = ps.map Ptr.id := by rw [hfst]

theorem coreOk_idle (hm : Indexed m) (picked : List Picked) : CoreOk ⟨m, picked, none⟩ :=
  ⟨hm, fun _ hc => nomatch hc⟩

theorem stepEffect_grant (h : Indexed m) (hheads : ∀ p ∈ ps, HeadPtr m p)
    (hlen : tokens.length = ps.length) (now : Time) (ttl : Int) :
    StepEffect offload refOf m (m.grant (ps.zip tokens) now ttl)
      (some (.lease (ps.map Ptr.id))) := by
  refine .inr ⟨_, rfl, ?_, ?_⟩
  · intro id hid
    obtain ⟨p, hp, rfl⟩ := mem_map.mp hid
    exact ⟨p, rfl, hheads p hp⟩
  · intro R q hs
    rw [← map_fst_id_zip hlen]
    exact hs.grant h _ now ttl

theorem stepEffect_leaseNow {ord : List Bytes} {req : LeaseRequest} (h : Indexed m)
    (hord : ord.Perm m.groups.keys) (hlen : tokens.length = (m.selectLease ord now req).2.length) :
    StepEffect offload refOf m
      ((m.selectLease ord now req).1.grant ((m.selectLease ord now req).2.zip tokens) now req.ttl)
      (some (.lease ((m.selectLease ord now req).2.map Ptr.id))) := by
  refine .inr ⟨_, rfl, ?_, ?_⟩
  · intro id hid
    obtain ⟨p, hp, rfl⟩ := mem_map.mp hid
    obtain ⟨it, hit, hptr, helig⟩ := h.selectLease_sound hord hp
    exact ⟨p, rfl, headPtr_of_eligible hit hptr helig⟩
  · intro R q hs
    rw [← map_fst_id_zip hlen]
    exact (hs.selectLease ord now req).grant (h.selectLease ord now req) _ now req.ttl

/-- Every step of a store keeps `CoreOk` and does one of the things of
`StepEffect`. -/
theorem core_step {a : CoreAct} {e : Option Entry} (h : CoreOk s)
    (hstep : s.step offload refOf a = some (s', e)) :
    CoreOk s' ∧ StepEffect offload refOf s.m s'.m e := by
  have hfree : ∀ {m picked}, s.commit = none → Indexed m → CoreOk ⟨m, picked, s.commit⟩ := by
    intro m picked hidle hm
    rw [hidle]
    exact coreOk_idle hm picked
  cases Core.turn_of_step hstep with
  | failed hidle hexec => exact ⟨h, fun _ _ hs => hs⟩
  | called hidle hexec =>
    rcases exec_eq_replay h.indexed hexec with hout | ⟨e, hout, hlog⟩
    · cases hout
      exact ⟨h, fun _ _ hs => hs⟩
    · cases hout
      exact ⟨hfree hidle (Indexed.applyLogged h.indexed hlog), .inl ⟨hlog, rfl⟩⟩
  | @picked ord now req hidle hord =>
    exact ⟨hfree hidle (Indexed.pickLease h.indexed ord now req),
      fun R q hs => hs.pickLease h.indexed ord now req⟩
  | @committed i now reads x hidle hx hlen =>
    refine ⟨⟨Indexed.releaseCands h.indexed x.cands, ?_⟩, ?_⟩
    · intro c hc p hp
      cases hc
      exact hp.elim headPtr_of_candsRead headPtr_of_candsRead
    · exact fun R q hs => hs.releaseCands h.indexed x.cands
  | @gaveUp i x hidle hx =>
    exact ⟨hfree hidle (Indexed.releaseCands h.indexed x.cands),
      fun R q hs => hs.releaseCands h.indexed x.cands⟩
  | @parkedBad now ttl p bad good hcommit =>
    obtain ⟨it, hit, hptr, -⟩ := h.commit _ hcommit p (.inl mem_cons_self)
    have hpark : s.m.withPtr p (fun it => s.m.applyPark it now unreadableReason) =
        s.m.applyPark it now unreadableReason := by
      unfold withPtr
      rw [hit]
      exact if_pos hptr
    have hit' := h.indexed.get_ptr hit
    refine ⟨⟨?_, ?_⟩, .inl ⟨trivial, ?_⟩⟩
    · rw [hpark]
      exact h.indexed.applyPark hit' now unreadableReason
    · intro c hc x hx
      cases hc
      rw [hpark]
      refine HeadPtr.applyPark (h.commit _ hcommit x ?_) hit' now unreadableReason
      exact hx.imp_left (mem_cons_of_mem _)
    · simp only [hpark, applyEntry, replayPark, hit]
  | @granted tokens now ttl good hcommit hsome hlen =>
    refine ⟨coreOk_idle (h.indexed.grant _ now ttl) s.picked, ?_⟩
    refine stepEffect_grant h.indexed ?_ hlen now ttl
    exact fun p hp => h.commit _ hcommit p (.inr hp)
  | done | aborted => exact ⟨coreOk_idle h.indexed s.picked, fun _ _ hs => hs⟩
  | @leasedNone ord tokens now req hidle hnone =>
    exact ⟨hfree hidle (h.indexed.selectLease ord now req),
      fun R q hs => hs.selectLease ord now req⟩
  | @leasedNow ord tokens now req hidle hord hlen =>
    exact ⟨hfree hidle ((h.indexed.selectLease ord now req).grant _ now req.ttl),
      stepEffect_leaseNow h.indexed hord hlen⟩

variable {R : Item → Record → Prop} {q : Queue}

section

variable (h : Indexed m) (hs : Shows R m q)
include h hs

theorem HeadPtr.head (hhead : HeadPtr m p) : q.Head p.id := by
  obtain ⟨it, hit, -, hfirst⟩ := hhead
  have hit' := h.get_ptr hit
  rw [h.atHead_iff hit'] at hfirst
  intro r hr hid
  obtain ⟨x, hx, hxr⟩ := hs.item h hr
  rw [hid] at hx
  obtain rfl := Option.some.inj (hx.symm.trans hit)
  obtain ⟨-, hseq, hkey, -⟩ := hs.sight.same hxr
  rw [hseq, hkey]
  refine hfirst.imp id fun hmin => ?_
  intro y hy hykey
  obtain ⟨z, hz, hzy⟩ := hs.item h hy
  obtain ⟨-, hseq', hkey', -⟩ := hs.sight.same hzy
  rw [hseq']
  exact hmin z (h.mem_liveItems.mpr (h.get_ptr hz)) (hkey'.symm.trans hykey)

/-- The entry a step logs is one the store may log, and the step changes the
queue by it. -/
theorem Shows.logged {m' : Machine}
    (heff : StepEffect offload refOf m m' (some e)) (hfind : Finds R offload (refOf e) e e₀) :
    q.Fair e₀ ∧ Shows R m' (q.apply e₀) := by
  rcases heff with ⟨hlog, rfl⟩ | ⟨ids, rfl, hheads, hshows⟩
  · refine ⟨?_, hs.applyEntry h hfind⟩
    cases e with
    | append r =>
      obtain ⟨r₀, rfl, hread⟩ := hfind
      obtain ⟨-, hseq, -, hstate⟩ := hs.sight.same hread
      obtain ⟨hseq', -, hstate'⟩ := newItem_meta offload r (refOf (.append r))
      refine ⟨?_, .inr ?_⟩
      · rw [hstate, hstate']
        exact hlog.2.2
      · rw [hseq, hseq', ← hs.seq, hlog.2.1]
        exact Nat.lt_succ_self _
    | lease ids => exact hlog.elim
    | requeue id replace cp =>
      cases replace with
      | false =>
        obtain rfl : e₀ = .requeue id false cp := hfind
        trivial
      | true =>
        obtain ⟨cp₀, rfl, -⟩ := hfind
        trivial
    | checkpoint id cp =>
      obtain ⟨cp₀, rfl, -⟩ := hfind
      trivial
    | ack id =>
      obtain rfl : e₀ = .ack id := hfind
      trivial
    | nack id stamp next errText blockedOn refund =>
      obtain rfl : e₀ = .nack id stamp next errText blockedOn refund := hfind
      trivial
    | release id =>
      obtain rfl : e₀ = .release id := hfind
      trivial
    | park id stamp reason =>
      obtain rfl : e₀ = .park id stamp reason := hfind
      trivial
    | discard id =>
      obtain rfl : e₀ = .discard id := hfind
      trivial
  · obtain rfl : e₀ = .lease ids := hfind
    refine ⟨?_, hshows R q hs⟩
    intro id hid
    obtain ⟨p, rfl, hp⟩ := hheads id hid
    exact hp.head h hs

theorem Indexed.applyFair (hfind : Finds R offload ref e e₀)
    (hfair : q.Fair e₀) : Indexed (Dlq.applyEntry offload m ref e) := by
  refine Indexed.applyEntry h ?_
  rintro r rfl
  obtain ⟨r₀, rfl, hread⟩ := hfind
  obtain ⟨hid, hseq, -, -⟩ := hs.sight.same hread
  rw [newItem_id] at hid
  rw [(newItem_meta offload r ref).1] at hseq
  refine hfair.2.imp ?_ ?_
  · rintro ⟨x, hx, hxid⟩
    obtain ⟨it, hit, -⟩ := hs.item h hx
    rw [hxid, hid] at hit
    rw [hit]
    rfl
  · intro hlt
    rw [hs.seq, ← hseq]
    exact hlt

theorem Shows.found (id : Bytes) :
    List.Forall₂ R (m.items.get id).toList (q.recs.filter fun r => r.id = id) := by
  have hlive : (m.liveItems.filter fun it => it.record.id = id) = (m.items.get id).toList := by
    have hnodup : (m.liveItems.filter fun it => it.record.id = id).Nodup :=
      h.liveItems_nodup.of_map.filter _
    cases hit : m.items.get id with
    | none =>
      refine filter_eq_nil_iff.mpr fun x hx hid => ?_
      simp only [decide_eq_true_eq] at hid
      have hx' := h.mem_liveItems.mp hx
      rw [hid, hit] at hx'
      cases hx'
    | some it =>
      obtain rfl := (h.live id it hit).1
      refine perm_singleton.mp ((perm_ext_iff_of_nodup hnodup
        (nodup_singleton it)).mpr fun x => ?_)
      rw [mem_filter, mem_singleton, h.mem_liveItems, decide_eq_true_eq]
      constructor
      · rintro ⟨hx, hid⟩
        rw [hid] at hx
        exact Option.some.inj (hx.symm.trans hit)
      · rintro rfl
        exact ⟨hit, rfl⟩
  rw [← hlive]
  refine rel_filter (fun it r hr => ?_) hs.recs
  simp only [decide_eq_true_eq, (hs.sight.same hr).1]

end

end Steps

end Dlq
end GoGuard
