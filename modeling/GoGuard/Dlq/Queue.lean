import GoGuard.Dlq.Machine

/-!
# The queue as its log tells it

What a store is for, without index, leases in time or files: a list of records
in arrival order, changed by log entries.  An entry appends a record, or changes
or removes the records it names.  The state machine refines this queue
(`GoGuard.Dlq.Refine`); here are the facts about the queue itself: which entries
remove records, what a restart changes (`Record.reborn`) and that replaying a
log commutes with it, and that a record with an order key is leased only at the
head of its key.
-/

namespace GoGuard
namespace Dlq

open Lib List

section Entries

/-- What one log entry says. -/
inductive Entry where
  | append (r : Record)
  | lease (ids : List Bytes)
  | checkpoint (id : Bytes) (cp : Option Bytes)
  | ack (id : Bytes)
  | nack (id : Bytes) (stamp next : Time) (errText blockedOn : Bytes) (refund : Bool)
  | release (id : Bytes)
  | park (id : Bytes) (stamp : Time) (reason : Bytes)
  | requeue (id : Bytes) (replace : Bool) (cp : Option Bytes)
  | discard (id : Bytes)
deriving DecidableEq

/-- One more attempt, held by a worker. -/
def Record.lease (r : Record) : Record :=
  { r with state := .leased, attempts := r.attempts + 1 }

/-- Back in the queue after a failed attempt. -/
def Record.nack (stamp next : Time) (errText blockedOn : Bytes) (refund : Bool) (r : Record) :
    Record :=
  { r with
    state := .pending
    blockedOn := if blockedOn = [] then r.blockedOn else blockedOn
    attempts := if refund then Machine.refundAttempt r.attempts else r.attempts
    lastFailed := stamp
    nextAttempt := next
    lastError := errText }

/-- Back in the queue as if the lease had not been. -/
def Record.release (r : Record) : Record :=
  { r with state := .pending, attempts := Machine.refundAttempt r.attempts }

/-- Set aside for a human. -/
def Record.park (stamp : Time) (reason : Bytes) (r : Record) : Record :=
  { r with state := .parked, lastFailed := stamp, lastError := reason }

/-- Back in the queue by a human. -/
def Record.requeue (r : Record) : Record :=
  { r with state := .pending, attempts := 0, nextAttempt := zeroTime }

def Record.setCheckpoint (cp : Option Bytes) (r : Record) : Record :=
  { r with checkpoint := cp }

/-- A change of one record: the record after it, or `none` if it is removed. -/
abbrev Change := Record → Option Record

/-- The requeue of a record, with a new checkpoint if the entry has one. -/
def requeueChange (replace : Bool) (cp : Option Bytes) : Change := fun r =>
  if r.state = .parked then
    some (if replace then r.requeue.setCheckpoint cp else r.requeue)
  else some r

/-- The discard of a record. -/
def discardChange : Change := fun r =>
  if r.state = .parked then none else some r

/-- The records an entry names and what it does to them, in order. -/
def Entry.changes : Entry → List (Bytes × Change)
  | .append _ => []
  | .lease ids => ids.map fun id => (id, fun r => some r.lease)
  | .checkpoint id cp => [(id, fun r => some (r.setCheckpoint cp))]
  | .ack id => [(id, fun _ => none)]
  | .nack id stamp next errText blockedOn refund =>
    [(id, fun r => some (r.nack stamp next errText blockedOn refund))]
  | .release id => [(id, fun r => some r.release)]
  | .park id stamp reason => [(id, fun r => some (r.park stamp reason))]
  | .requeue id replace cp => [(id, requeueChange replace cp)]
  | .discard id => [(id, discardChange)]

end Entries

section Storing

/-- `time.Time.UnixNano`, which wraps outside the years it can represent. -/
def unixNano (t : Time) : Int :=
  Int.bmod t (2 ^ 64)

/-- A time after it was written to a log and read back: the zero time stays, and
the instant of the epoch becomes the nanosecond after it. -/
def storedTime (t : Time) : Time :=
  if isZero t then zeroTime
  else if unixNano t = 0 then 1
  else unixNano t

theorem storedTime_zero : storedTime zeroTime = zeroTime := by
  decide

theorem storedTime_storedTime (t : Time) : storedTime (storedTime t) = storedTime t := by
  have hlo : -2 ^ 63 ≤ Int.bmod t (2 ^ 64) := by
    have h := Int.le_bmod (x := t) (m := 2 ^ 64) (by decide)
    omega
  have hfix : Int.bmod (Int.bmod t (2 ^ 64)) (2 ^ 64) = Int.bmod t (2 ^ 64) :=
    Int.bmod_bmod
  have hnz : Int.bmod t (2 ^ 64) ≠ zeroTime := by
    intro heq
    rw [heq] at hlo
    revert hlo
    decide
  unfold storedTime unixNano isZero
  by_cases hz : t = zeroTime
  · simp [hz]
  · by_cases hn : Int.bmod t (2 ^ 64) = 0
    · simp only [hz, hn]
      decide
    · simp only [decide_eq_true_eq, if_neg hz, if_neg hn, if_neg hnz, hfix]

/-- A record after it was written to a log and read back. -/
def Record.stored (r : Record) : Record :=
  { r with
    firstFailed := storedTime r.firstFailed
    lastFailed := storedTime r.lastFailed
    nextAttempt := storedTime r.nextAttempt }

/-- A lease ends with the process that gave it. -/
def Record.settle (r : Record) : Record :=
  { r with state := if r.state = .leased then .pending else r.state }

/-- What a restart makes of a record. -/
def Record.reborn (r : Record) : Record :=
  r.stored.settle

/-- An entry after it was written to a log and read back. -/
def Entry.stored : Entry → Entry
  | .append r => .append r.stored
  | .nack id stamp next errText blockedOn refund =>
    .nack id (storedTime stamp) (storedTime next) errText blockedOn refund
  | .park id stamp reason => .park id (storedTime stamp) reason
  | e => e

theorem Record.stored_stored (r : Record) : r.stored.stored = r.stored := by
  simp [Record.stored, storedTime_storedTime]

theorem Record.reborn_stored (r : Record) : r.stored.reborn = r.reborn := by
  simp [Record.reborn, Record.stored_stored]

theorem Record.reborn_reborn (r : Record) : r.reborn.reborn = r.reborn := by
  cases hstate : r.state <;>
    simp [Record.reborn, Record.stored, Record.settle, storedTime_storedTime, hstate]

theorem Entry.stored_stored (e : Entry) : e.stored.stored = e.stored := by
  cases e <;> simp [Entry.stored, storedTime_storedTime, Record.stored_stored]

end Storing

/-- The queue: the records in arrival order, and the last Seq given out. -/
structure Queue where
  recs : List Record
  seq : Nat
deriving DecidableEq

namespace Queue

/-- Nothing yet. -/
def empty : Queue := ⟨[], 0⟩

/-- Change the record with an identifier. -/
def touch (q : Queue) (id : Bytes) (f : Change) : Queue :=
  { q with recs := q.recs.filterMap fun r => if r.id = id then f r else some r }

/-- A new record at the end; a known identifier is ignored. -/
def push (q : Queue) (r : Record) : Queue :=
  if ∃ x ∈ q.recs, x.id = r.id then q
  else ⟨q.recs ++ [r], if r.seq > q.seq then r.seq else q.seq⟩

/-- Change several records in turn. -/
def touchAll (q : Queue) (cs : List (Bytes × Change)) : Queue :=
  cs.foldl (fun q c => q.touch c.1 c.2) q

/-- The queue after an entry. -/
def apply (q : Queue) : Entry → Queue
  | .append r => q.push r
  | e => q.touchAll e.changes

/-- The queue after a log. -/
def replay (q : Queue) (es : List Entry) : Queue :=
  es.foldl apply q

@[simp] theorem replay_nil (q : Queue) : q.replay [] = q := by
  rfl

@[simp] theorem replay_cons (q : Queue) (e : Entry) (es : List Entry) :
    q.replay (e :: es) = (q.apply e).replay es := by
  rfl

theorem replay_append (q : Queue) (es fs : List Entry) :
    q.replay (es ++ fs) = (q.replay es).replay fs := by
  unfold replay
  rw [foldl_append]

theorem apply_of_not_append (q : Queue) {e : Entry} (he : ∀ r, e ≠ .append r) :
    q.apply e = q.touchAll e.changes := by
  cases e with
  | append r => exact absurd rfl (he r)
  | _ => rfl

/-- A rule for what every entry keeps: a new record keeps it, and every change
of a record does. -/
theorem apply_induction {P : Queue → Prop} {q : Queue} {e : Entry} (h : P q)
    (hpush : ∀ r, e = .append r → P (q.push r))
    (htouch : ∀ c ∈ e.changes, ∀ q, P q → P (q.touch c.1 c.2)) : P (q.apply e) := by
  by_cases he : ∃ r, e = .append r
  · obtain ⟨r, rfl⟩ := he
    exact hpush r rfl
  · rw [apply_of_not_append q (by simpa using he)]
    generalize e.changes = cs at htouch
    induction cs generalizing q with
    | nil => exact h
    | cons c cs ih =>
      refine ih (htouch c mem_cons_self q h) ?_ ?_
      · intro r hr
        exact absurd ⟨r, hr⟩ he
      · exact fun d hd => htouch d (mem_cons_of_mem _ hd)

theorem mem_touch {q : Queue} {id : Bytes} {f : Change} {r : Record} :
    r ∈ (q.touch id f).recs ↔
      ∃ x ∈ q.recs, (x.id = id ∧ f x = some r) ∨ (x.id ≠ id ∧ x = r) := by
  unfold touch
  simp only [mem_filterMap]
  refine exists_congr fun x => and_congr_right fun _ => ?_
  by_cases hid : x.id = id <;> simp [hid]

section Reborn

/-- What a restart makes of a queue. -/
def reborn (q : Queue) : Queue :=
  ⟨q.recs.map Record.reborn, q.seq⟩

/-- Two changes whose outcome after a restart is the same. -/
def Agree (f f' : Change) : Prop :=
  ∀ r r', r'.reborn = r.reborn → (f' r').map Record.reborn = (f r).map Record.reborn

variable {f f' : Change} {q q' : Queue}

theorem agree_of (F : Change) (hf : ∀ r, (f r).map Record.reborn = F r.reborn)
    (hf' : ∀ r, (f' r).map Record.reborn = F r.reborn) : Agree f f' := by
  intro r r' hr
  rw [hf, hf', hr]

theorem reborn_touch (id : Bytes) (hq : q'.reborn = q.reborn) (hf : Agree f f') :
    (q'.touch id f').reborn = (q.touch id f).reborn := by
  simp only [reborn, touch, Queue.mk.injEq] at hq ⊢
  refine ⟨?_, hq.2⟩
  obtain ⟨hrecs, -⟩ := hq
  generalize q.recs = rs, q'.recs = rs' at hrecs
  induction rs generalizing rs' with
  | nil =>
    obtain rfl : rs' = [] := by simpa using hrecs
    rfl
  | cons r rs ih =>
    obtain ⟨r', rs', rfl⟩ : ∃ r' t, rs' = r' :: t := by
      cases rs' with
      | nil => simp at hrecs
      | cons r' t => exact ⟨r', t, rfl⟩
    simp only [map_cons, List.cons.injEq] at hrecs
    obtain ⟨hr, hrs⟩ := hrecs
    have hid : r'.reborn.id = r.reborn.id := congrArg Record.id hr
    change r'.id = r.id at hid
    have hstep := hf r r' hr
    by_cases hr' : r.id = id
    · simp only [filterMap_cons, hid, if_pos hr']
      cases hf₁ : f r <;> cases hf₂ : f' r' <;> simp_all
    · simp only [filterMap_cons, hid, if_neg hr', map_cons, hr, ih rs' hrs]

theorem reborn_touchAll {cs cs' : List (Bytes × Change)}
    (hcs : List.Forall₂ (fun c c' => c'.1 = c.1 ∧ Agree c.2 c'.2) cs cs')
    (hq : q'.reborn = q.reborn) : (q'.touchAll cs').reborn = (q.touchAll cs).reborn := by
  induction hcs generalizing q q' with
  | nil => exact hq
  | @cons c c' cs cs' hc _ ih =>
    refine ih ?_
    simp only [hc.1]
    exact reborn_touch c.1 hq hc.2

theorem agree_lease : Agree (fun r => some r.lease) (fun r => some r.lease) :=
  agree_of (fun r => some { r with state := .pending, attempts := r.attempts + 1 })
    (fun _ => rfl) (fun _ => rfl)

theorem Record.reborn_state_parked (r : Record) : r.reborn.state = .parked ↔ r.state = .parked := by
  cases hstate : r.state <;> simp [Record.reborn, Record.settle, Record.stored, hstate]

theorem agree_changes (e : Entry) :
    List.Forall₂ (fun c c' => c'.1 = c.1 ∧ Agree c.2 c'.2) e.changes e.stored.changes := by
  cases e with
  | append r => exact .nil
  | lease ids =>
    induction ids with
    | nil => exact .nil
    | cons id ids ih => exact .cons ⟨rfl, agree_lease⟩ ih
  | checkpoint id cp =>
    refine .cons ⟨rfl, ?_⟩ .nil
    exact agree_of (fun r => some { r with checkpoint := cp }) (fun _ => rfl) (fun _ => rfl)
  | ack id =>
    refine .cons ⟨rfl, ?_⟩ .nil
    exact agree_of (fun _ => none) (fun _ => rfl) (fun _ => rfl)
  | nack id stamp next errText blockedOn refund =>
    refine .cons ⟨rfl, ?_⟩ .nil
    refine agree_of (fun r => some (r.nack (storedTime stamp) (storedTime next) errText
      blockedOn refund)) (fun _ => rfl) (fun r => ?_)
    simp [Record.nack, Record.reborn, Record.stored, Record.settle, storedTime_storedTime]
  | release id =>
    refine .cons ⟨rfl, ?_⟩ .nil
    exact agree_of (fun r => some r.release) (fun _ => rfl) (fun _ => rfl)
  | park id stamp reason =>
    refine .cons ⟨rfl, ?_⟩ .nil
    refine agree_of (fun r => some (r.park (storedTime stamp) reason)) (fun _ => rfl)
      (fun r => ?_)
    simp [Record.park, Record.reborn, Record.stored, Record.settle, storedTime_storedTime]
  | requeue id replace cp =>
    have hchange : ∀ r, (requeueChange replace cp r).map Record.reborn =
        requeueChange replace cp r.reborn := by
      intro r
      unfold requeueChange
      by_cases hparked : r.state = .parked
      · rw [if_pos hparked, if_pos ((Record.reborn_state_parked r).mpr hparked)]
        cases replace <;> rfl
      · rw [if_neg hparked, if_neg (mt (Record.reborn_state_parked r).mp hparked)]
        rfl
    exact .cons ⟨rfl, agree_of _ hchange hchange⟩ .nil
  | discard id =>
    have hchange : ∀ r, (discardChange r).map Record.reborn = discardChange r.reborn := by
      intro r
      unfold discardChange
      by_cases hparked : r.state = .parked
      · rw [if_pos hparked, if_pos ((Record.reborn_state_parked r).mpr hparked)]
        rfl
      · rw [if_neg hparked, if_neg (mt (Record.reborn_state_parked r).mp hparked)]
        rfl
    exact .cons ⟨rfl, agree_of _ hchange hchange⟩ .nil

theorem known_reborn (q : Queue) (id : Bytes) :
    (∃ x ∈ q.reborn.recs, x.id = id) ↔ ∃ x ∈ q.recs, x.id = id := by
  constructor
  · rintro ⟨x, hx, rfl⟩
    obtain ⟨y, hy, rfl⟩ := mem_map.mp hx
    exact ⟨y, hy, rfl⟩
  · rintro ⟨x, hx, rfl⟩
    exact ⟨x.reborn, mem_map_of_mem hx, rfl⟩

/-- Restarting before an entry does not change the queue a restart after it gives. -/
theorem reborn_apply (hq : q'.reborn = q.reborn) (e : Entry) :
    (q'.apply e.stored).reborn = (q.apply e).reborn := by
  by_cases he : ∃ r, e = .append r
  · obtain ⟨r, rfl⟩ := he
    have hrecs : q'.recs.map Record.reborn = q.recs.map Record.reborn :=
      congrArg Queue.recs hq
    have hseq : q'.reborn.seq = q.reborn.seq := congrArg Queue.seq hq
    change q'.seq = q.seq at hseq
    have hids : (∃ x ∈ q'.recs, x.id = r.id) ↔ ∃ x ∈ q.recs, x.id = r.id := by
      rw [← known_reborn q', hq, known_reborn]
    change (q'.push r.stored).reborn = (q.push r).reborn
    have hids' : (∃ x ∈ q'.recs, x.id = r.stored.id) ↔ ∃ x ∈ q.recs, x.id = r.id := hids
    unfold push
    by_cases hknown : ∃ x ∈ q.recs, x.id = r.id
    · rw [if_pos hknown, if_pos (hids'.mpr hknown)]
      exact hq
    · rw [if_neg hknown, if_neg (mt hids'.mp hknown)]
      simp only [reborn, map_append, hrecs, map_cons, map_nil,
        Record.reborn_stored, hseq]
      rfl
  · have he' : ∀ r, e.stored ≠ .append r := by
      cases e with
      | append x => exact absurd ⟨x, rfl⟩ he
      | _ => simp [Entry.stored]
    rw [apply_of_not_append q (by simpa using he), apply_of_not_append q' he']
    exact reborn_touchAll (agree_changes e) hq

/-- A log read back after a restart gives the queue as the restart leaves it. -/
theorem reborn_replay (hq : q'.reborn = q.reborn) (es : List Entry) :
    (q'.replay (es.map Entry.stored)).reborn = (q.replay es).reborn := by
  induction es generalizing q q' with
  | nil => exact hq
  | cons e es ih => exact ih (reborn_apply hq e)

theorem reborn_reborn (q : Queue) : q.reborn.reborn = q.reborn := by
  simp only [reborn, map_map]
  refine congrArg (fun l => Queue.mk l q.seq) (map_congr_left fun r _ => ?_)
  exact Record.reborn_reborn r

/-- The queue with all leases ended. -/
def settled (q : Queue) : Queue :=
  ⟨q.recs.map Record.settle, q.seq⟩

theorem reborn_settled (q : Queue) : q.settled.reborn = q.reborn := by
  simp only [settled, reborn, map_map]
  refine congrArg (fun l => Queue.mk l q.seq) (map_congr_left fun r _ => ?_)
  cases hstate : r.state <;>
    simp [Record.reborn, Record.stored, Record.settle, hstate]

theorem touchAll_map {g : Record → Record} (hid : ∀ r, (g r).id = r.id) {ids : List Bytes}
    (honce : ids.Nodup ∨ ∀ r, g (g r) = g r) (q : Queue) :
    q.touchAll (ids.map fun id => (id, fun r => some (g r))) =
      ⟨q.recs.map fun r => if r.id ∈ ids then g r else r, q.seq⟩ := by
  unfold touchAll
  induction ids generalizing q with
  | nil => simp
  | cons id ids ih =>
    have hrest : ids.Nodup ∨ ∀ r, g (g r) = g r :=
      honce.imp_left fun hnodup => (nodup_cons.mp hnodup).2
    rw [map_cons, foldl_cons, ih hrest]
    have htouch : (q.touch id fun r => some (g r)).recs =
        q.recs.map fun r => if r.id = id then g r else r := by
      rw [← filterMap_eq_map]
      refine filterMap_congr fun r _ => ?_
      by_cases hr : r.id = id <;> simp [hr]
    rw [htouch, map_map]
    refine congrArg₂ Queue.mk (map_congr_left fun r _ => ?_) rfl
    by_cases h₁ : r.id = id
    · by_cases h₂ : r.id ∈ ids
      · -- the record is named twice
        rcases honce with hnodup | hagain
        · exact absurd (h₁ ▸ h₂) (nodup_cons.mp hnodup).1
        · simp [h₁ ▸ h₂, h₁, hid, hagain]
      · simp [h₁ ▸ h₂, h₁, hid]
    · by_cases h₂ : r.id ∈ ids <;> simp [h₁, h₂]

theorem touchAll_settle (q : Queue) (ids : List Bytes) :
    q.touchAll (ids.map fun id => (id, fun r => some r.settle)) =
      ⟨q.recs.map fun r => if r.id ∈ ids then r.settle else r, q.seq⟩ := by
  refine touchAll_map (g := Record.settle) (fun _ => rfl) (.inr ?_) q
  intro r
  cases hstate : r.state <;> simp [Record.settle, hstate]

end Reborn

section Shape

/-- What no entry changes about a record. -/
def SameRecord (r r' : Record) : Prop :=
  r'.id = r.id ∧ r'.seq = r.seq ∧ r'.orderKey = r.orderKey

/-- A change leaves a record that it keeps recognisable. -/
def Keeps (f : Change) : Prop :=
  ∀ r r', f r = some r' → SameRecord r r'

variable {e : Entry} {c : Bytes × Change} {q : Queue} {id : Bytes} {f : Change} {r : Record}

theorem keeps_changes (hc : c ∈ e.changes) : Keeps c.2 := by
  have hsome : ∀ g : Record → Record, (∀ r, SameRecord r (g r)) → Keeps fun r => some (g r) := by
    intro g hg r r' hr
    cases hr
    exact hg r
  cases e with
  | append r => cases hc
  | lease ids =>
    obtain ⟨id, -, rfl⟩ := mem_map.mp hc
    exact hsome _ fun _ => ⟨rfl, rfl, rfl⟩
  | checkpoint | nack | release | park =>
    obtain rfl := mem_singleton.mp hc
    exact hsome _ fun _ => ⟨rfl, rfl, rfl⟩
  | ack id =>
    obtain rfl := mem_singleton.mp hc
    exact fun _ _ hr => nomatch hr
  | requeue id replace cp =>
    obtain rfl := mem_singleton.mp hc
    intro r r' hr
    simp only [requeueChange] at hr
    split at hr
    · cases hr
      cases replace <;> exact ⟨rfl, rfl, rfl⟩
    · cases hr
      exact ⟨rfl, rfl, rfl⟩
  | discard id =>
    obtain rfl := mem_singleton.mp hc
    intro r r' hr
    obtain ⟨-, rfl⟩ := of_guard_not hr
    exact ⟨rfl, rfl, rfl⟩

theorem origin_touch (hf : Keeps f) (hr : r ∈ (q.touch id f).recs) :
    ∃ x ∈ q.recs, SameRecord x r := by
  obtain ⟨x, hx, ⟨-, hfx⟩ | ⟨-, rfl⟩⟩ := mem_touch.mp hr
  · exact ⟨x, hx, hf x r hfx⟩
  · exact ⟨x, hx, rfl, rfl, rfl⟩

/-- The records with an identifier are heads of their order key. -/
def Head (q : Queue) (id : Bytes) : Prop :=
  ∀ r ∈ q.recs, r.id = id → r.orderKey = [] ∨
    ∀ x ∈ q.recs, x.orderKey = r.orderKey → r.seq ≤ x.seq

theorem Head.touch {j : Bytes} (h : Head q j) (hf : Keeps f) (id : Bytes) :
    Head (q.touch id f) j := by
  intro r hr hrj
  obtain ⟨x, hx, hid, hseq, hkey⟩ := origin_touch hf hr
  refine (h x hx (hid.symm.trans hrj)).imp (fun hnil => hkey.trans hnil) fun hmin => ?_
  intro y hy hykey
  obtain ⟨z, hz, -, hzseq, hzkey⟩ := origin_touch hf hy
  rw [hseq, hzseq]
  exact hmin z hz (hzkey.symm.trans (hykey.trans hkey))

/-- A leased record with an order key is the first of its key. -/
def LeasedHeads (q : Queue) : Prop :=
  ∀ r ∈ q.recs, r.state = .leased → r.orderKey = [] ∨
    ∀ x ∈ q.recs, x.orderKey = r.orderKey → r.seq ≤ x.seq

/-- The Seqs increase along the queue, from 1 to at most the last one given out,
and no identifier occurs twice. -/
structure Ordered (q : Queue) : Prop where
  asc : Ascending Record.seq q.recs
  pos : ∀ r ∈ q.recs, 0 < r.seq
  le : ∀ r ∈ q.recs, r.seq ≤ q.seq
  nodup : (q.recs.map Record.id).Nodup

/-- An entry a store may log: only heads are leased, and a new record is not
leased and gets a Seq of its own. -/
def Fair (q : Queue) : Entry → Prop
  | .append r => r.state ≠ .leased ∧ ((∃ x ∈ q.recs, x.id = r.id) ∨ q.seq < r.seq)
  | .lease ids => ∀ id ∈ ids, q.Head id
  | _ => True

/-- Every entry of a log is one the store may log where it stands. -/
def FairLog (q : Queue) : List Entry → Prop
  | [] => True
  | e :: es => q.Fair e ∧ FairLog (q.apply e) es

theorem Ordered.touch (h : Ordered q) (hf : Keeps f) (id : Bytes) : Ordered (q.touch id f) := by
  have hsame : ∀ {x y : Record}, (if x.id = id then f x else some x) = some y →
      SameRecord x y := by
    intro x y hxy
    split at hxy
    · exact hf x y hxy
    · cases hxy
      exact ⟨rfl, rfl, rfl⟩
  refine ⟨?_, ?_, ?_, ?_⟩
  · refine List.Pairwise.filterMap _ ?_ h.asc
    intro a b hab a' ha' b' hb'
    rw [(hsame ha').2.1, (hsame hb').2.1]
    exact hab
  · intro r hr
    obtain ⟨x, hx, -, hseq, -⟩ := origin_touch hf hr
    rw [hseq]
    exact h.pos x hx
  · intro r hr
    obtain ⟨x, hx, -, hseq, -⟩ := origin_touch hf hr
    rw [hseq]
    exact h.le x hx
  · refine pairwise_map.mpr (List.Pairwise.filterMap _ ?_ (pairwise_map.mp h.nodup))
    intro a b hab a' ha' b' hb'
    rw [(hsame ha').1, (hsame hb').1]
    exact hab

theorem Ordered.push (h : Ordered q) (hr : (∃ x ∈ q.recs, x.id = r.id) ∨ q.seq < r.seq) :
    Ordered (q.push r) := by
  unfold Queue.push
  split
  · exact h
  · next hnew =>
    have hlt := hr.resolve_left hnew
    refine ⟨h.asc.concat fun x hx => lt_of_le_of_lt (h.le x hx) hlt, ?_, ?_, ?_⟩
    · intro x hx
      rcases mem_append.mp hx with hx | hx
      · exact h.pos x hx
      · rw [mem_singleton.mp hx]
        exact lt_of_le_of_lt (Nat.zero_le _) hlt
    · intro x hx
      simp only [if_pos hlt]
      rcases mem_append.mp hx with hx | hx
      · exact le_trans (h.le x hx) hlt.le
      · rw [mem_singleton.mp hx]
    · rw [map_append, nodup_append]
      refine ⟨h.nodup, nodup_singleton _, ?_⟩
      intro i hi j hj hij
      obtain ⟨x, hx, rfl⟩ := mem_map.mp hi
      obtain rfl := mem_singleton.mp hj
      exact hnew ⟨x, hx, hij⟩

theorem Ordered.apply (h : Ordered q) (hfair : q.Fair e) : Ordered (q.apply e) := by
  refine apply_induction h ?_ fun c hc q hq => hq.touch (keeps_changes hc) c.1
  rintro r rfl
  exact h.push hfair.2

theorem LeasedHeads.touch (h : LeasedHeads q) (hf : Keeps f)
    (hlease : ∀ r r', f r = some r' → r'.state = .leased → r.state = .leased ∨ q.Head id) :
    LeasedHeads (q.touch id f) := by
  -- the first record of a key before is the first after
  have hfirst : ∀ x r : Record, SameRecord x r →
      (x.orderKey = [] ∨ ∀ y ∈ q.recs, y.orderKey = x.orderKey → x.seq ≤ y.seq) →
      r.orderKey = [] ∨ ∀ y ∈ (q.touch id f).recs, y.orderKey = r.orderKey → r.seq ≤ y.seq := by
    rintro x r ⟨-, hseq, hkey⟩ hx
    refine hx.imp (fun hnil => hkey.trans hnil) fun hmin => ?_
    intro y hy hykey
    obtain ⟨z, hz, -, hzseq, hzkey⟩ := origin_touch hf hy
    rw [hseq, hzseq]
    exact hmin z hz (hzkey.symm.trans (hykey.trans hkey))
  intro r hr hleased
  obtain ⟨x, hx, ⟨hid, hfx⟩ | ⟨-, rfl⟩⟩ := mem_touch.mp hr
  · rcases hlease x r hfx hleased with hx' | hhead
    · exact hfirst x r (hf x r hfx) (h x hx hx')
    · exact hfirst x r (hf x r hfx) (hhead x hx hid)
  · exact hfirst x x ⟨rfl, rfl, rfl⟩ (h x hx hleased)

theorem LeasedHeads.push (h : LeasedHeads q) (ho : Ordered q)
    (hr : r.state ≠ .leased ∧ ((∃ x ∈ q.recs, x.id = r.id) ∨ q.seq < r.seq)) :
    LeasedHeads (q.push r) := by
  unfold Queue.push
  split
  · exact h
  · next hnew =>
    have hlt := hr.2.resolve_left hnew
    intro y hy hleased
    rcases mem_append.mp hy with hy | hy
    · refine (h y hy hleased).imp_right fun hmin => ?_
      intro x hx hxkey
      rcases mem_append.mp hx with hx | hx
      · exact hmin x hx hxkey
      · rw [mem_singleton.mp hx]
        exact (lt_of_le_of_lt (ho.le y hy) hlt).le
    · rw [mem_singleton.mp hy] at hleased
      exact absurd hleased hr.1

theorem leased_of_change (hc : c ∈ e.changes) {r' : Record} (hr : c.2 r = some r')
    (hleased : r'.state = .leased) : r.state = .leased ∨ ∃ ids, e = .lease ids ∧ c.1 ∈ ids := by
  cases e with
  | append x => cases hc
  | lease ids =>
    obtain ⟨id, hid, rfl⟩ := mem_map.mp hc
    exact .inr ⟨ids, rfl, hid⟩
  | checkpoint id cp =>
    obtain rfl := mem_singleton.mp hc
    cases hr
    exact .inl hleased
  | ack id =>
    obtain rfl := mem_singleton.mp hc
    cases hr
  | nack | release | park =>
    obtain rfl := mem_singleton.mp hc
    cases hr
    cases hleased
  | requeue id replace cp =>
    obtain rfl := mem_singleton.mp hc
    simp only [requeueChange] at hr
    split at hr
    · cases hr
      cases replace <;> cases hleased
    · cases hr
      exact .inl hleased
  | discard id =>
    obtain rfl := mem_singleton.mp hc
    obtain ⟨-, rfl⟩ := of_guard_not hr
    exact .inl hleased

/-- Entries that lease heads only keep leased records at the head of their key. -/
theorem LeasedHeads.apply (h : LeasedHeads q) (ho : Ordered q) (hfair : q.Fair e) :
    LeasedHeads (q.apply e) := by
  -- the heads an entry leases are still heads when their turn comes
  have hall : LeasedHeads (q.apply e) ∧
      ∀ ids, e = .lease ids → ∀ id ∈ ids, (q.apply e).Head id := by
    refine apply_induction
      (P := fun q' => LeasedHeads q' ∧ ∀ ids, e = .lease ids → ∀ id ∈ ids, q'.Head id)
      ⟨h, ?_⟩ ?_ ?_
    · rintro ids rfl
      exact hfair
    · rintro r rfl
      exact ⟨h.push ho hfair, fun ids heq => nomatch heq⟩
    · intro c hc q' hq'
      have hkeeps := keeps_changes hc
      refine ⟨hq'.1.touch hkeeps ?_, fun ids hids id hid => (hq'.2 ids hids id hid).touch hkeeps c.1⟩
      intro r r' hr hleased
      exact (leased_of_change hc hr hleased).imp_right fun ⟨ids, hids, hid⟩ => hq'.2 ids hids _ hid
  exact hall.1

end Shape

section History

variable {q q' : Queue} {es : List Entry} {e : Entry} {r : Record} {p : Ptr} {k : Bytes}

theorem fairLog_append {fs : List Entry} :
    FairLog q (es ++ fs) ↔ FairLog q es ∧ FairLog (q.replay es) fs := by
  induction es generalizing q with
  | nil => simp [FairLog]
  | cons e es ih => simp only [cons_append, FairLog, ih, replay_cons, and_assoc]

theorem Ordered.replay (h : Ordered q) (hfair : FairLog q es) : Ordered (q.replay es) := by
  induction es generalizing q with
  | nil => exact h
  | cons e es ih => exact ih (h.apply hfair.1) hfair.2

theorem seq_le_push (q : Queue) (r : Record) : q.seq ≤ (q.push r).seq := by
  unfold push
  split
  · exact le_refl _
  · split
    · next h => exact h.le
    · exact le_refl _

theorem seq_le_apply (q : Queue) (e : Entry) : q.seq ≤ (q.apply e).seq :=
  apply_induction (P := fun q' => q.seq ≤ q'.seq) (le_refl _) (fun r _ => seq_le_push q r)
    fun _ _ _ h => h

theorem origin_apply (hfair : q.Fair e) (hr : r ∈ (q.apply e).recs) (hold : r.seq ≤ q.seq) :
    ∃ x ∈ q.recs, SameRecord x r := by
  have hall : ∀ r ∈ (q.apply e).recs, r.seq ≤ q.seq → ∃ x ∈ q.recs, SameRecord x r := by
    refine apply_induction
      (P := fun q' => ∀ r ∈ q'.recs, r.seq ≤ q.seq → ∃ x ∈ q.recs, SameRecord x r)
      (fun r hr _ => ⟨r, hr, rfl, rfl, rfl⟩) ?_ ?_
    · rintro x rfl r hr hle
      unfold push at hr
      split at hr
      · exact ⟨r, hr, rfl, rfl, rfl⟩
      · next hnew =>
        rcases mem_append.mp hr with hr | hr
        · exact ⟨r, hr, rfl, rfl, rfl⟩
        · rw [mem_singleton.mp hr] at hle
          exact absurd (hfair.2.resolve_left hnew) (not_lt.mpr hle)
    · intro c hc q' hq' r hr hle
      obtain ⟨y, hy, hid, hseq, hkey⟩ := origin_touch (keeps_changes hc) hr
      obtain ⟨x, hx, hid', hseq', hkey'⟩ := hq' y hy (hseq ▸ hle)
      exact ⟨x, hx, hid.trans hid', hseq.trans hseq', hkey.trans hkey'⟩
  exact hall r hr hold

theorem survives_apply (hr : r ∈ q.recs) :
    (∃ r' ∈ (q.apply e).recs, SameRecord r r') ∨ e = .ack r.id ∨ e = .discard r.id := by
  by_cases hgone : e = .ack r.id ∨ e = .discard r.id
  · exact .inr hgone
  left
  refine apply_induction (P := fun q' => ∃ r' ∈ q'.recs, SameRecord r r')
    ⟨r, hr, rfl, rfl, rfl⟩ ?_ ?_
  · intro x _
    refine ⟨r, ?_, rfl, rfl, rfl⟩
    unfold push
    split
    · exact hr
    · exact mem_append_left _ hr
  · rintro c hc q' ⟨x, hx, hid, hseq, hkey⟩
    by_cases hcx : x.id = c.1
    · -- the change names the record and does not remove it
      cases hfx : c.2 x with
      | some x' =>
        obtain ⟨hid', hseq', hkey'⟩ := keeps_changes hc x x' hfx
        exact ⟨x', mem_touch.mpr ⟨x, hx, .inl ⟨hcx, hfx⟩⟩, hid'.trans hid,
          hseq'.trans hseq, hkey'.trans hkey⟩
      | none =>
        refine absurd ?_ hgone
        have hname : c.1 = r.id := hcx.symm.trans hid
        cases e with
        | append y => cases hc
        | lease ids =>
          obtain ⟨id, -, rfl⟩ := mem_map.mp hc
          cases hfx
        | ack id =>
          obtain rfl := mem_singleton.mp hc
          exact .inl (congrArg Entry.ack hname)
        | discard id =>
          obtain rfl := mem_singleton.mp hc
          exact .inr (congrArg Entry.discard hname)
        | requeue id replace cp =>
          obtain rfl := mem_singleton.mp hc
          simp only [requeueChange] at hfx
          split at hfx <;> cases hfx
        | _ =>
          obtain rfl := mem_singleton.mp hc
          cases hfx
    · exact ⟨x, mem_touch.mpr ⟨x, hx, .inr ⟨hcx, rfl⟩⟩, hid, hseq, hkey⟩

theorem ordered_empty : Ordered empty :=
  ⟨List.Pairwise.nil, forall_mem_nil _, forall_mem_nil _, nodup_nil⟩

theorem ordered_reborn : Ordered q.reborn ↔ Ordered q := by
  have hasc : Ascending Record.seq q.reborn.recs ↔ Ascending Record.seq q.recs :=
    pairwise_map
  have hnodup : q.reborn.recs.map Record.id = q.recs.map Record.id := by
    unfold reborn
    rw [map_map]
    rfl
  have hall : ∀ P : Nat → Prop, (∀ r ∈ q.reborn.recs, P r.seq) ↔ ∀ r ∈ q.recs, P r.seq :=
    fun P => forall_mem_map
  constructor
  · intro h
    exact ⟨hasc.mp h.asc, (hall (0 < ·)).mp h.pos, (hall (· ≤ q.seq)).mp h.le, hnodup ▸ h.nodup⟩
  · intro h
    exact ⟨hasc.mpr h.asc, (hall (0 < ·)).mpr h.pos, (hall (· ≤ q.seq)).mpr h.le,
      hnodup ▸ h.nodup⟩

theorem head_reborn {id : Bytes} : q.reborn.Head id ↔ q.Head id := by
  unfold Head reborn
  simp only [mem_map, forall_exists_index, and_imp, forall_apply_eq_imp_iff₂]
  exact Iff.rfl

/-- Whether a store may log an entry does not change with a restart. -/
theorem fair_reborn : q.reborn.Fair e.stored ↔ q.Fair e := by
  cases e with
  | append r => exact and_congr_right fun _ => or_congr_left (known_reborn q r.id)
  | lease ids => exact forall₂_congr fun id _ => head_reborn
  | _ => exact Iff.rfl

theorem Fair.restart (hfair : q.Fair e) (hq : q'.reborn = q.reborn) : q'.Fair e.stored := by
  rw [← fair_reborn, Entry.stored_stored, hq, fair_reborn]
  exact hfair

/-- What happens to the records with an order key. -/
inductive Event where
  | inserted (p : Ptr) (key : Bytes)
  | granted (p : Ptr) (key : Bytes)
  | removed (p : Ptr) (key : Bytes)
deriving DecidableEq

/-- What an entry does to records, told in the queue before it. -/
def events (q : Queue) : Entry → List Event
  | .append r =>
    if ∃ x ∈ q.recs, x.id = r.id then [] else [.inserted ⟨r.id, r.seq⟩ r.orderKey]
  | .lease ids =>
    ids.flatMap fun id =>
      (q.recs.filter (·.id = id)).map fun r => .granted ⟨r.id, r.seq⟩ r.orderKey
  | .ack id =>
    (q.recs.filter (·.id = id)).map fun r => .removed ⟨r.id, r.seq⟩ r.orderKey
  | .discard id =>
    (q.recs.filter fun r => r.id = id ∧ r.state = .parked).map fun r =>
      .removed ⟨r.id, r.seq⟩ r.orderKey
  | _ => []

theorem events_reborn (q : Queue) (e : Entry) : q.reborn.events e.stored = q.events e := by
  have hfilter : ∀ (P : Record → Prop) [DecidablePred P] (f : Record → Event),
      (∀ r, P r.reborn ↔ P r) → (∀ r, f r.reborn = f r) →
        ((q.recs.map Record.reborn).filter fun r => P r).map f =
          (q.recs.filter fun r => P r).map f := by
    intro P _ f hP hf
    rw [filter_map, map_map]
    have hcomp : f ∘ Record.reborn = f := funext hf
    have hpred : (fun r => decide (P r)) ∘ Record.reborn = fun r => decide (P r) :=
      funext fun r => by simp [hP r]
    rw [hcomp, hpred]
  cases e with
  | append r =>
    exact if_congr (known_reborn q r.id) rfl rfl
  | lease ids =>
    refine flatMap_congr fun id _ => ?_
    exact hfilter (·.id = id) _ (fun _ => Iff.rfl) fun _ => rfl
  | ack id => exact hfilter (·.id = id) _ (fun _ => Iff.rfl) fun _ => rfl
  | discard id =>
    refine hfilter (fun r => r.id = id ∧ r.state = .parked) _ (fun r => ?_) fun _ => rfl
    exact and_congr_right fun _ => Record.reborn_state_parked r
  | _ => rfl

theorem events_restart (hq : q'.reborn = q.reborn) (e : Entry) :
    q'.events e.stored = q.events e := by
  rw [← events_reborn q', Entry.stored_stored, hq, events_reborn]

/-- Records of one key are granted in Seq order, each after every earlier one was
removed. -/
def InOrder (h : List Event) : Prop :=
  ∀ a b p k, h = a ++ .granted p k :: b → k ≠ [] →
    (∀ p', .granted p' k ∈ a → p'.seq ≤ p.seq) ∧
      ∀ p', .inserted p' k ∈ a → p'.seq < p.seq → .removed p' k ∈ a

/-- The queue is what the history before it says. -/
structure HistOk (q : Queue) (h : List Event) : Prop where
  accounted : ∀ p k, .inserted p k ∈ h →
    (∃ r ∈ q.recs, (⟨r.id, r.seq⟩ : Ptr) = p ∧ r.orderKey = k) ∨ .removed p k ∈ h
  old : ∀ p k, .granted p k ∈ h → p.seq ≤ q.seq
  ahead : ∀ p k, .granted p k ∈ h → k ≠ [] → ∀ r ∈ q.recs, r.orderKey = k → p.seq ≤ r.seq
  inOrder : InOrder h

theorem histOk_empty : HistOk empty [] := by
  refine ⟨?_, ?_, ?_, ?_⟩
  · intro p k h
    cases h
  · intro p k h
    cases h
  · intro p k h
    cases h
  · intro a b p k h
    simp at h

theorem granted_mem_events (h : .granted p k ∈ q.events e) :
    ∃ ids, e = .lease ids ∧ ∃ r ∈ q.recs, r.id ∈ ids ∧ (⟨r.id, r.seq⟩ : Ptr) = p ∧
      r.orderKey = k := by
  cases e with
  | lease ids =>
    obtain ⟨id, hid, hgrant⟩ := mem_flatMap.mp h
    obtain ⟨r, hfound, heq⟩ := mem_map.mp hgrant
    obtain ⟨hr, hrid⟩ := mem_filter.mp hfound
    simp only [decide_eq_true_eq] at hrid
    cases heq
    exact ⟨ids, rfl, r, hr, hrid ▸ hid, rfl, rfl⟩
  | append r =>
    simp only [events] at h
    split at h <;> simp at h
  | ack id => simp [events] at h
  | discard id => simp [events] at h
  | _ => cases h

theorem inserted_mem_events (h : .inserted p k ∈ q.events e) :
    ∃ r, e = .append r ∧ (⟨r.id, r.seq⟩ : Ptr) = p ∧ r.orderKey = k ∧
      ¬ ∃ x ∈ q.recs, x.id = r.id := by
  cases e with
  | append r =>
    simp only [events] at h
    split at h
    · cases h
    · next hnew =>
      cases mem_singleton.mp h
      exact ⟨r, rfl, rfl, rfl, hnew⟩
  | lease ids => simp [events] at h
  | ack id => simp [events] at h
  | discard id => simp [events] at h
  | _ => cases h

theorem survives_or_removed (hr : r ∈ q.recs) (e : Entry) :
    (∃ r' ∈ (q.apply e).recs, SameRecord r r') ∨
      .removed ⟨r.id, r.seq⟩ r.orderKey ∈ q.events e := by
  rcases survives_apply (e := e) hr with hstays | rfl | rfl
  · exact .inl hstays
  · refine .inr (mem_map.mpr ⟨r, ?_, rfl⟩)
    exact mem_filter.mpr ⟨hr, by simp⟩
  · by_cases hparked : r.state = .parked
    · refine .inr (mem_map.mpr ⟨r, ?_, rfl⟩)
      exact mem_filter.mpr ⟨hr, by simp [hparked]⟩
    · -- a discard leaves a record alone that is not parked
      refine .inl ⟨r, mem_touch.mpr ⟨r, hr, .inl ⟨rfl, ?_⟩⟩, rfl, rfl, rfl⟩
      exact if_neg hparked

/-- The events of an entry are in order behind a history the queue agrees with. -/
theorem HistOk.inOrder_append {h : List Event} (hh : HistOk q h) (hfair : q.Fair e) :
    InOrder (h ++ q.events e) := by
  intro a b p k hsplit hk
  have hcases : (∃ c, a = h ++ c ∧ q.events e = c ++ .granted p k :: b) ∨
      ∃ c, h = a ++ .granted p k :: c := by
    rcases append_eq_append_iff.mp hsplit with ⟨c, ha, hc⟩ | ⟨c, ha, hc⟩
    · exact .inl ⟨c, ha, hc⟩
    · cases c with
      | nil => exact .inl ⟨[], by simpa using ha.symm, by simpa using hc.symm⟩
      | cons x c =>
        simp only [cons_append, List.cons.injEq] at hc
        exact .inr ⟨c, by rw [ha, hc.1]⟩
  rcases hcases with ⟨c, rfl, hevents⟩ | ⟨c, rfl⟩
  · -- the grant is one of the new events
    have hmem : .granted p k ∈ q.events e := by
      rw [hevents]
      exact mem_append_right _ mem_cons_self
    obtain ⟨ids, rfl, r, hr, hid, rfl, rfl⟩ := granted_mem_events hmem
    have hhead := (hfair r.id hid r hr rfl).resolve_left hk
    have hsub : ∀ x ∈ c, x ∈ q.events (.lease ids) := by
      intro x hx
      rw [hevents]
      exact mem_append_left _ hx
    refine ⟨?_, ?_⟩
    · intro p' hp'
      rcases mem_append.mp hp' with hp' | hp'
      · exact hh.ahead p' _ hp' hk r hr rfl
      · obtain ⟨ids', heq, r', hr', hid', rfl, hkey⟩ := granted_mem_events (hsub _ hp')
        cases heq
        have hhead' := hfair r'.id hid' r' hr' rfl
        rw [hkey] at hhead'
        exact hhead'.resolve_left hk r hr rfl
    · intro p' hp' hlt
      rcases mem_append.mp hp' with hp' | hp'
      · rcases hh.accounted p' _ hp' with ⟨r', hr', rfl, hkey⟩ | hgone
        · exact absurd (hhead r' hr' hkey) (not_le.mpr hlt)
        · exact mem_append_left _ hgone
      · obtain ⟨r', heq, -⟩ := inserted_mem_events (hsub _ hp')
        cases heq
  · exact hh.inOrder a c p k rfl hk

/-- An entry the store may log keeps queue and history in agreement. -/
theorem HistOk.apply {h : List Event} (hh : HistOk q h) (ho : Ordered q) (hfair : q.Fair e) :
    HistOk (q.apply e) (h ++ q.events e) := by
  refine ⟨?_, ?_, ?_, hh.inOrder_append hfair⟩
  · intro p k hp
    rcases mem_append.mp hp with hp | hp
    · rcases hh.accounted p k hp with ⟨r, hr, rfl, rfl⟩ | hgone
      · rcases survives_or_removed hr e with ⟨r', hr', hid, hseq, hkey⟩ | hgone
        · exact .inl ⟨r', hr', by rw [hid, hseq], hkey⟩
        · exact .inr (mem_append_right _ hgone)
      · exact .inr (mem_append_left _ hgone)
    · obtain ⟨r, rfl, rfl, rfl, hnew⟩ := inserted_mem_events hp
      refine .inl ⟨r, ?_, rfl, rfl⟩
      change r ∈ (q.push r).recs
      unfold push
      rw [if_neg hnew]
      exact mem_append_right _ (mem_singleton.mpr rfl)
  · intro p k hp
    refine le_trans ?_ (seq_le_apply q e)
    rcases mem_append.mp hp with hp | hp
    · exact hh.old p k hp
    · obtain ⟨ids, -, r, hr, -, rfl, -⟩ := granted_mem_events hp
      exact ho.le r hr
  · intro p k hp hk r hr hkey
    -- a record of the queue was there before or is newer than every grant
    rcases Nat.lt_or_ge q.seq r.seq with hnew | hold
    · refine le_trans ?_ hnew.le
      rcases mem_append.mp hp with hp | hp
      · exact hh.old p k hp
      · obtain ⟨ids, -, x, hx, -, rfl, -⟩ := granted_mem_events hp
        exact ho.le x hx
    · obtain ⟨x, hx, -, hseq, hkey'⟩ := origin_apply hfair hr hold
      rw [hseq]
      rw [hkey'] at hkey
      rcases mem_append.mp hp with hp | hp
      · exact hh.ahead p k hp hk x hx hkey
      · obtain ⟨ids, rfl, y, hy, hid, rfl, rfl⟩ := granted_mem_events hp
        exact (hfair y.id hid y hy rfl).resolve_left hk x hx hkey

/-- What a log tells. -/
def history (q : Queue) : List Entry → List Event
  | [] => []
  | e :: es => q.events e ++ history (q.apply e) es

theorem history_append (q : Queue) (es fs : List Entry) :
    q.history (es ++ fs) = q.history es ++ (q.replay es).history fs := by
  induction es generalizing q with
  | nil => rfl
  | cons e es ih => rw [cons_append, history, history, ih, append_assoc, replay_cons]

/-- The history of a fair log is in order. -/
theorem HistOk.replay {h : List Event} (hh : HistOk q h) (ho : Ordered q) (hfair : FairLog q es) :
    HistOk (q.replay es) (h ++ q.history es) := by
  induction es generalizing q h with
  | nil =>
    rw [history, append_nil]
    exact hh
  | cons e es ih =>
    rw [history, ← append_assoc]
    exact ih (hh.apply ho hfair.1) (ho.apply hfair.1) hfair.2

end History

end Queue

end Dlq
end GoGuard
