import GoGuard.Dlq.Record
import GoGuard.Lib.GoMap
import GoGuard.Lib.OrderedList

/-!
# The queue's state machine

`machine` holds the records of a store and the index a lease uses: all records
in Seq order, the records of each order key, the Pending and Leased records of
each dependency (a group), and the Parked records.  Each definition follows the
method of the same name.

A `*memItem` that sits in a list is its identifier and its Seq, which never
change; what it points at is found in `items`.  A list element is the pointer it
holds.  A method that changes an item takes the item it was given and stores the
changed one.
-/

namespace GoGuard
namespace Dlq

open Lib

/-- `limits`: what a machine will accept; zero or less is no limit. -/
structure Limits where
  maxRecords : Int
  maxBytes : Int
  maxRecordBytes : Int
deriving DecidableEq

/-- `blobRef`: the frame of a log file that holds part of a record. -/
structure BlobRef where
  kind : UInt8
  signed : Bool
  snap : Bool
  file : Nat
  off : Nat
  n : Nat
deriving DecidableEq

/-- The zero value: nothing stored. -/
def BlobRef.zero : BlobRef := ⟨0, false, false, 0, 0, 0⟩

def BlobRef.valid (r : BlobRef) : Bool := r.kind != 0

/-- `memItem`.  `grp` is the dependency of the group the item sits in. -/
structure Item where
  record : Record
  token : Bytes
  leaseUntil : Time
  size : Nat
  bodyRef : BlobRef
  ckptRef : BlobRef
  bodyN : Nat
  ckptN : Nat
  grp : Option Bytes
  reserved : Bool
  ver : Nat
deriving DecidableEq

/-- A pointer to an item. -/
structure Ptr where
  id : Bytes
  seq : Nat
deriving DecidableEq

def Item.ptr (it : Item) : Ptr := ⟨it.record.id, it.record.seq⟩

/-- A new item for a record. -/
def Item.new (r : Record) : Item where
  record := r
  token := []
  leaseUntil := zeroTime
  size := r.size
  bodyRef := .zero
  ckptRef := .zero
  bodyN := 0
  ckptN := 0
  grp := none
  reserved := false
  ver := 0

/-- `unlease`. -/
def Item.unlease (it : Item) : Item :=
  { it with token := [], leaseUntil := zeroTime }

/-- `group`. -/
structure Group where
  dep : Bytes
  items : List Ptr
  hint : Option Ptr
  wake : Time
deriving DecidableEq

/-- `counts`: items per state. -/
structure Counts where
  pending : Int
  leased : Int
  parked : Int
deriving DecidableEq

def Counts.add (c : Counts) (s : State) (n : Int) : Counts :=
  match s with
  | .pending => { c with pending := c.pending + n }
  | .leased => { c with leased := c.leased + n }
  | .parked => { c with parked := c.parked + n }

/-- `machine`. -/
structure Machine where
  lim : Limits
  items : GoMap Bytes Item
  order : List Ptr
  byKey : GoMap Bytes (List Ptr)
  seq : Nat
  bytes : Int
  groups : GoMap Bytes Group
  parked : List Ptr
  parkedHint : Option Ptr
  counts : Counts
deriving DecidableEq

/-- `newMachine`. -/
def newMachine (lim : Limits) : Machine where
  lim := lim
  items := .empty
  order := []
  byKey := .empty
  seq := 0
  bytes := 0
  groups := .empty
  parked := []
  parkedHint := none
  counts := ⟨0, 0, 0⟩

/-- `maxWakeSkew`: one second. -/
def maxWakeSkew : Int := 1000000000

/-- `insertOrdered` without a usable hint: the front if `p` belongs there, else
the place a walk from the back finds. -/
def insertFromBack (l : List Ptr) (p : Ptr) : List Ptr :=
  match l.head? with
  | none => [p]
  | some f =>
    if f.seq > p.seq then p :: l
    else
      match l.reverse.find? (fun e => !decide (e.seq > p.seq)) with
      | none => p :: l
      | some e => insertAfter e p l

/-- The place next to the hint is right for `p`. -/
def fitsHint (l : List Ptr) (p h : Ptr) : Bool :=
  decide (h.seq < p.seq) &&
    match nextAfter h l with
    | none => true
    | some n => decide (n.seq > p.seq)

/-- `insertOrdered`: `p` becomes the new hint. -/
def insertOrdered (l : List Ptr) (p : Ptr) (hint : Option Ptr) : List Ptr :=
  match hint with
  | none => insertFromBack l p
  | some h => if fitsHint l p h then insertAfter h p l else insertFromBack l p

namespace Machine

section Index

/-- `m.items[id] = it`. -/
def store (m : Machine) (it : Item) : Machine :=
  { m with items := m.items.set it.record.id it }

/-- A change of the item a caller holds. -/
def update (m : Machine) (id : Bytes) (f : Item → Item) : Machine :=
  match m.items.get id with
  | none => m
  | some it => { m with items := m.items.set id (f it) }

/-- `g.wake = time.Time{}` for the group of a dependency. -/
def clearWake (m : Machine) (dep : Bytes) : Machine :=
  match m.groups.get dep with
  | none => m
  | some g => { m with groups := m.groups.set dep { g with wake := zeroTime } }

/-- The group `link` adds an item to. -/
def groupFor (m : Machine) (dep : Bytes) : Group :=
  (m.groups.get dep).getD ⟨dep, [], none, zeroTime⟩

/-- `link`: add the item to the index according to its state. -/
def link (m : Machine) (it : Item) : Machine :=
  if it.record.state = .parked then
    { m with
      counts := m.counts.add it.record.state 1
      items := m.items.set it.record.id { it with grp := none }
      parked := insertOrdered m.parked it.ptr m.parkedHint
      parkedHint := some it.ptr }
  else
    { m with
      counts := m.counts.add it.record.state 1
      items := m.items.set it.record.id { it with grp := some it.record.blockedOn }
      groups := m.groups.set it.record.blockedOn
        { m.groupFor it.record.blockedOn with
          items := insertOrdered (m.groupFor it.record.blockedOn).items it.ptr
            (m.groupFor it.record.blockedOn).hint
          hint := some it.ptr
          wake := zeroTime } }

/-- The hint after the element of `p` was removed. -/
def hintWithout (hint : Option Ptr) (p : Ptr) : Option Ptr :=
  if hint = some p then none else hint

/-- `unlink`: remove the item from the index. -/
def unlink (m : Machine) (it : Item) : Machine :=
  match it.grp with
  | none =>
    { m with
      counts := m.counts.add it.record.state (-1)
      parked := m.parked.erase it.ptr
      parkedHint := hintWithout m.parkedHint it.ptr }
  | some dep =>
    { m with
      counts := m.counts.add it.record.state (-1)
      groups :=
        if (m.groupFor dep).items.erase it.ptr = [] then m.groups.del dep
        else m.groups.set dep
          { m.groupFor dep with
            items := (m.groupFor dep).items.erase it.ptr
            hint := hintWithout (m.groupFor dep).hint it.ptr
            wake := zeroTime } }

/-- The item with a new state and dependency. -/
def moved (it : Item) (state : State) (dep : Bytes) : Item :=
  { it with
    ver := it.ver + 1
    record := { it.record with state := state, blockedOn := dep } }

/-- `move`: change an item's state and the dependency it waits on. -/
def move (m : Machine) (it : Item) (state : State) (dep : Bytes) : Machine :=
  if it.grp.isSome ∧ state ≠ .parked ∧ it.record.blockedOn = dep then
    ({ m with counts := (m.counts.add it.record.state (-1)).add state 1 }.clearWake
      (it.grp.getD [])).store (moved it state dep)
  else
    (m.unlink it).link (moved it state dep)

/-- `resize`: bring the size of an item and the byte count up to date. -/
def resize (m : Machine) (id : Bytes) : Machine :=
  match m.items.get id with
  | none => m
  | some it =>
    { m with
      bytes := m.bytes + ((it.record.size + it.bodyN + it.ckptN : Nat) - (it.size : Int))
      items := m.items.set id { it with size := it.record.size + it.bodyN + it.ckptN } }

end Index

section Records

/-- `prepare`: the record exactly as it will be stored, or `none` for a
duplicate.  A state that is neither Pending nor Parked is Leased, which
`Validate` has refused. -/
def prepare (m : Machine) (r : Record) (now : Time) : Except Error (Option Record) :=
  match r.validate with
  | .error e => .error e
  | .ok () =>
    if m.lim.maxRecordBytes > 0 ∧ (r.size : Int) > m.lim.maxRecordBytes then
      .error ⟨[.errInvalidRecord],
        s!"dlq: invalid record: record is {r.size} bytes, limit is {m.lim.maxRecordBytes}"⟩
    else if (m.items.get r.id).isSome then .ok none
    else if m.lim.maxRecords > 0 ∧ (m.items.keys.length : Int) ≥ m.lim.maxRecords then
      .error ⟨[.errFull], "dlq: store is full"⟩
    else if m.lim.maxBytes > 0 ∧ m.bytes + r.size > m.lim.maxBytes then
      .error ⟨[.errFull], "dlq: store is full"⟩
    else
      .ok (some { r with
        seq := m.seq + 1
        firstFailed := if isZero r.firstFailed then now else r.firstFailed
        lastFailed :=
          if isZero r.lastFailed then
            (if isZero r.firstFailed then now else r.firstFailed)
          else r.lastFailed
        schemaVersion := if r.schemaVersion = 0 then currentSchema else r.schemaVersion })

/-- The lines of `insert` and `insertOffloaded` behind the new item. -/
def insertItem (m : Machine) (it : Item) (size : Nat) : Machine :=
  { (link { m with order := m.order ++ [it.ptr] } it) with
    byKey :=
      if it.record.orderKey = [] then m.byKey
      else m.byKey.set it.record.orderKey
        ((m.byKey.get it.record.orderKey).getD [] ++ [it.ptr])
    bytes := m.bytes + size
    seq := if it.record.seq > m.seq then it.record.seq else m.seq }

/-- `insert`: store a prepared record. -/
def insert (m : Machine) (r : Record) : Machine :=
  if (m.items.get r.id).isSome then m
  else m.insertItem (.new r) r.size

/-- `bodySize`. -/
def bodySize (r : Record) : Nat :=
  lenBytes r.key + lenBytes r.value
    + (r.headers.map fun h => h.key.length + lenBytes h.value).sum

/-- The record without what an offloading store keeps on disk. -/
def strip (r : Record) : Record :=
  { r with key := none, value := none, headers := [], checkpoint := none }

/-- The item `insertOffloaded` makes. -/
def offloadedItem (r : Record) (body : BlobRef) : Item :=
  { Item.new (strip r) with
    size := r.size
    bodyRef := body
    bodyN := bodySize r
    ckptN := lenBytes r.checkpoint
    ckptRef := if r.checkpoint.isSome then body else .zero }

/-- `insertOffloaded`: store a record whose payload lives on disk at `body`. -/
def insertOffloaded (m : Machine) (r : Record) (body : BlobRef) : Machine :=
  if (m.items.get r.id).isSome then m
  else m.insertItem (offloadedItem r body) r.size

/-- The record that becomes the head of its key clears the wake time of its group. -/
def wakeNext (m : Machine) (l : List Ptr) (p : Ptr) : Machine :=
  match l with
  | x :: y :: _ =>
    if x = p then
      match (m.items.get y.id).bind Item.grp with
      | none => m
      | some dep => m.clearWake dep
    else m
  | _ => m

/-- The part of `remove` about the order key. -/
def removeKey (m : Machine) (it : Item) : Machine :=
  if it.record.orderKey = [] then m
  else
    { m.wakeNext ((m.byKey.get it.record.orderKey).getD []) it.ptr with
      byKey :=
        if ((m.byKey.get it.record.orderKey).getD []).erase it.ptr = [] then
          m.byKey.del it.record.orderKey
        else
          m.byKey.set it.record.orderKey
            (((m.byKey.get it.record.orderKey).getD []).erase it.ptr) }

/-- `remove`. -/
def remove (m : Machine) (it : Item) : Machine :=
  removeKey
    { m.unlink it with
      order := m.order.erase it.ptr
      items := m.items.del it.record.id
      bytes := m.bytes - it.size }
    it

end Records

section Leasing

/-- `LeaseRequest`. -/
structure LeaseRequest where
  blockedOn : Bytes
  skip : List Bytes
  max : Int
  ttl : Int
deriving DecidableEq

/-- The item is Pending and due, or its lease has expired. -/
def due (it : Item) (now : Time) : Bool :=
  match it.record.state with
  | .parked => false
  | .pending => !decide (it.record.nextAttempt > now)
  | .leased => !decide (it.leaseUntil > now)

/-- No earlier record with the item's order key is in the store. -/
def atHead (m : Machine) (it : Item) : Bool :=
  it.record.orderKey = [] ||
    ((m.byKey.get it.record.orderKey).getD []).head? = some it.ptr

/-- `eligible`. -/
def eligible (m : Machine) (it : Item) (now : Time) : Bool :=
  !it.reserved && due it now && m.atHead it

/-- The item a list element points at may be leased. -/
def eligibleAt (m : Machine) (now : Time) (p : Ptr) : Bool :=
  match m.items.get p.id with
  | none => false
  | some it => m.eligible it now

/-- The time an item that is not eligible waits for. -/
def waitsUntil (m : Machine) (p : Ptr) : Time :=
  match m.items.get p.id with
  | none => zeroTime
  | some it =>
    match it.record.state with
    | .pending => it.record.nextAttempt
    | .leased => it.leaseUntil
    | .parked => zeroTime

/-- `next` after an item that is not eligible; a zero `next` is unset. -/
def nextWake (now t next : Time) : Time :=
  if t > now ∧ (isZero next = true ∨ t < next) then t else next

/-- The loop of `scanGroup`: the eligible items, and `next` unless `max` items
were found. -/
def scanItems (m : Machine) (now : Time) (max : Int) :
    List Ptr → List Ptr → Time → List Ptr × Option Time
  | [], out, next => (out, some next)
  | p :: l, out, next =>
    if m.eligibleAt now p then
      if ((out ++ [p]).length : Int) = max then (out ++ [p], none)
      else scanItems m now max l (out ++ [p]) next
    else scanItems m now max l out (nextWake now (m.waitsUntil p) next)

/-- The wake time a fruitless scan leaves. -/
def wakeAfter (now next : Time) : Time :=
  if isZero next = true ∨ next > now + maxWakeSkew then now + maxWakeSkew else next

/-- `scanGroup`: up to `max` eligible items, and the group after the scan. -/
def scanGroup (m : Machine) (g : Group) (now : Time) (max : Int) : List Ptr × Group :=
  match m.scanItems now max g.items [] zeroTime with
  | ([], some next) => ([], { g with wake := wakeAfter now next })
  | (out, _) => (out, g)

/-- `consider`: the candidates of the group of a dependency, and the machine
after the scan. -/
def consider (now : Time) (req : LeaseRequest) (x : Machine × List (List Ptr)) (dep : Bytes) :
    Machine × List (List Ptr) :=
  match x.1.groups.get dep with
  | none => x
  | some g =>
    if g.dep ∈ req.skip then x
    else if isZero g.wake = false ∧ now < g.wake then x
    else
      ({ x.1 with groups := x.1.groups.set dep (x.1.scanGroup g now req.max).2 },
        if (x.1.scanGroup g now req.max).1 = [] then x.2
        else x.2 ++ [(x.1.scanGroup g now req.max).1])

/-- `selectLease`.  `ord` is the order in which the `range` loop visits the
groups. -/
def selectLease (m : Machine) (ord : List Bytes) (now : Time) (req : LeaseRequest) :
    Machine × List Ptr :=
  (((if req.blockedOn = [] then ord else [req.blockedOn]).foldl (consider now req)
      (m, [])).1,
    mergeHeads Ptr.seq req.max.toNat
      ((if req.blockedOn = [] then ord else [req.blockedOn]).foldl (consider now req)
        (m, [])).2)

/-- `reserve`. -/
def reserve (m : Machine) (it : Item) : Machine :=
  m.store { it with reserved := true }

/-- `unreserve`. -/
def unreserve (m : Machine) (it : Item) : Machine :=
  if it.reserved = false then m
  else
    match it.grp with
    | none => m.store { it with reserved := false }
    | some dep => (m.store { it with reserved := false }).clearWake dep

/-- A call about an item the caller holds; an item that has left the store is
changed where the machine does not see it. -/
def withPtr (m : Machine) (p : Ptr) (f : Item → Machine) : Machine :=
  match m.items.get p.id with
  | none => m
  | some it => if it.ptr = p then f it else m

/-- One round of `grant`. -/
def grantOne (m : Machine) (it : Item) (token : Bytes) (expires : Time) : Machine :=
  (m.move { it with token := token, leaseUntil := expires } .leased
    it.record.blockedOn).update it.record.id fun it =>
      { it with record := { it.record with attempts := it.record.attempts + 1 } }

/-- `grant`: lease the selected items under fresh tokens. -/
def grant (m : Machine) (picked : List (Ptr × Bytes)) (now : Time) (ttl : Int) : Machine :=
  picked.foldl (fun m x =>
    match m.items.get x.1.id with
    | none => m
    | some it => m.grantOne it x.2 (now + ttl)) m

/-- `held`: the item if the token is its current lease. -/
def held (m : Machine) (id token : Bytes) : Except Error Item :=
  match m.items.get id with
  | none => .error ⟨[.errNotFound], "dlq: record not found"⟩
  | some it =>
    if it.record.state ≠ .leased ∨ it.token = [] ∨ it.token ≠ token then
      .error ⟨[.errLeaseLost], "dlq: lease lost"⟩
    else .ok it

/-- `hasOrderKey`. -/
def hasOrderKey (m : Machine) (k : Bytes) : Bool :=
  k ≠ [] && (m.byKey.get k).getD [] ≠ []

end Leasing

section Changes

/-- `checkCheckpoint`. -/
def checkCheckpoint (m : Machine) (it : Item) (cp : Option Bytes) : Except Error Unit :=
  if m.lim.maxBytes > 0 ∧ (lenBytes cp : Int) - lenBytes it.record.checkpoint - it.ckptN > 0 ∧
      m.bytes + ((lenBytes cp : Int) - lenBytes it.record.checkpoint - it.ckptN)
        > m.lim.maxBytes then
    .error ⟨[.errFull], "dlq: store is full"⟩
  else if m.lim.maxRecordBytes > 0 ∧
      it.size + ((lenBytes cp : Int) - lenBytes it.record.checkpoint - it.ckptN)
        > m.lim.maxRecordBytes then
    .error ⟨[.errInvalidRecord],
      "dlq: invalid record: checkpoint would exceed the record size limit"⟩
  else .ok ()

/-- `setCheckpoint`. -/
def setCheckpoint (m : Machine) (id : Bytes) (cp : Option Bytes) : Machine :=
  (m.update id fun it =>
    { it with
      ver := it.ver + 1
      record := { it.record with checkpoint := cp }
      ckptRef := .zero
      ckptN := 0 }).resize id

/-- `setCheckpointRef`: the checkpoint now lives on disk. -/
def setCheckpointRef (m : Machine) (id : Bytes) (n : Nat) (ref : BlobRef) : Machine :=
  (m.update id fun it =>
    { it with
      ver := it.ver + 1
      record := { it.record with checkpoint := none }
      ckptRef := ref
      ckptN := n }).resize id

/-- One attempt less, but never below zero. -/
def refundAttempt (attempts : Int64) : Int64 :=
  if attempts > 0 then attempts - 1 else attempts

/-- `applyNack`. -/
def applyNack (m : Machine) (it : Item) (stamp next : Time) (errText blockedOn : Bytes)
    (refund : Bool) : Machine :=
  ((m.move it .pending
      (if blockedOn = [] then it.record.blockedOn else blockedOn)).update it.record.id
    fun it => Item.unlease
      { it with
        record := { it.record with
          attempts :=
            if refund then refundAttempt it.record.attempts else it.record.attempts
          lastFailed := stamp
          nextAttempt := next
          lastError := errText } }).resize it.record.id

/-- `applyRelease`. -/
def applyRelease (m : Machine) (it : Item) : Machine :=
  (m.move it .pending it.record.blockedOn).update it.record.id fun it =>
    Item.unlease
      { it with
        record := { it.record with attempts := refundAttempt it.record.attempts } }

/-- `applyPark`. -/
def applyPark (m : Machine) (it : Item) (stamp : Time) (reason : Bytes) : Machine :=
  ((m.move it .parked it.record.blockedOn).update it.record.id fun it =>
    Item.unlease
      { it with
        record := { it.record with
          lastFailed := stamp
          lastError := reason } }).resize it.record.id

/-- `applyRequeue`. -/
def applyRequeue (m : Machine) (it : Item) (replace : Bool) (cp : Option Bytes) : Machine :=
  if replace then
    ((m.move it .pending it.record.blockedOn).update it.record.id fun it =>
      { it with record := { it.record with attempts := 0, nextAttempt := zeroTime } }).setCheckpoint
        it.record.id cp
  else
    (m.move it .pending it.record.blockedOn).update it.record.id fun it =>
      { it with record := { it.record with attempts := 0, nextAttempt := zeroTime } }

end Changes

section Replay

/-- `replayLease`. -/
def replayLease (m : Machine) (id : Bytes) : Machine :=
  match m.items.get id with
  | none => m
  | some it =>
    m.move { it with record := { it.record with attempts := it.record.attempts + 1 } }
      .leased it.record.blockedOn

/-- `replayAck`. -/
def replayAck (m : Machine) (id : Bytes) : Machine :=
  match m.items.get id with
  | none => m
  | some it => m.remove it

/-- `replayNack`. -/
def replayNack (m : Machine) (id : Bytes) (stamp next : Time) (errText blockedOn : Bytes)
    (refund : Bool) : Machine :=
  match m.items.get id with
  | none => m
  | some it => m.applyNack it stamp next errText blockedOn refund

/-- `replayRelease`. -/
def replayRelease (m : Machine) (id : Bytes) : Machine :=
  match m.items.get id with
  | none => m
  | some it => m.applyRelease it

/-- `replayPark`. -/
def replayPark (m : Machine) (id : Bytes) (stamp : Time) (reason : Bytes) : Machine :=
  match m.items.get id with
  | none => m
  | some it => m.applyPark it stamp reason

/-- `replayDiscard`. -/
def replayDiscard (m : Machine) (id : Bytes) : Machine :=
  match m.items.get id with
  | none => m
  | some it => if it.record.state = .parked then m.remove it else m

/-- The round of `endReplay` for one item. -/
def endReplayOne (m : Machine) (p : Ptr) : Machine :=
  match m.items.get p.id with
  | none => m
  | some it =>
    if it.record.state = .leased then
      (m.move it .pending it.record.blockedOn).update it.record.id Item.unlease
    else m

/-- `endReplay`: leases held by a process that no longer exists end. -/
def endReplay (m : Machine) : Machine :=
  m.order.foldl endReplayOne m

end Replay

end Machine

end Dlq
end GoGuard
