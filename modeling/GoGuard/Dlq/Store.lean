import GoGuard.Dlq.Queue

/-!
# The calls of a store

`WALStore` (and `MemoryStore`, which is the same without a log) runs each call
under its lock: check, log one entry, apply the change to the state machine.
`Lease` works in steps: pick and reserve records, read their payloads (a store
that keeps them on disk releases the lock meanwhile), then judge the picked
records again, park those whose payload is unreadable and grant the rest.
Replay applies the entries by `applyEntry`, which has its own path for each of
them.

A step of this module logs at most one entry.  Where the frame of an entry lands
(`refOf`) is given by the log; what can fail outside the machine (the context,
the disk, the log) ends a call without an effect.
-/

namespace GoGuard
namespace Dlq

open Lib Machine

section Applying

/-- `insertRecord`: a record whose frame is at `ref`. -/
def insertRecord (offload : Bool) (m : Machine) (r : Record) (ref : BlobRef) : Machine :=
  if offload then m.insertOffloaded r ref else m.insert r

/-- `setCheckpointAt`: a checkpoint whose frame is at `ref`. -/
def setCheckpointAt
    (offload : Bool) (m : Machine) (id : Bytes) (cp : Option Bytes) (ref : BlobRef) : Machine :=
  if offload then
    m.setCheckpointRef id (lenBytes cp) (if cp = none then .zero else ref)
  else m.setCheckpoint id cp

/-- `replayCheckpoint`. -/
def replayCheckpoint
    (offload : Bool) (m : Machine) (id : Bytes) (cp : Option Bytes) (ref : BlobRef) : Machine :=
  match m.items.get id with
  | none => m
  | some _ => setCheckpointAt offload m id cp ref

/-- `replayRequeue`. -/
def replayRequeue (offload : Bool) (m : Machine) (id : Bytes) (replace : Bool) (cp : Option Bytes)
    (ref : BlobRef) : Machine :=
  match m.items.get id with
  | none => m
  | some it =>
    if it.record.state ≠ .parked then m
    else if replace then setCheckpointAt offload (m.applyRequeue it false none) id cp ref
    else m.applyRequeue it false none

/-- `applyEntry` behind the decoding: the replay of an entry whose frame is at
`ref`. -/
def applyEntry (offload : Bool) (m : Machine) (ref : BlobRef) : Entry → Machine
  | .append r => insertRecord offload m r ref
  | .lease ids => ids.foldl replayLease m
  | .checkpoint id cp => replayCheckpoint offload m id cp ref
  | .requeue id replace cp => replayRequeue offload m id replace cp ref
  | .ack id => m.replayAck id
  | .release id => m.replayRelease id
  | .discard id => m.replayDiscard id
  | .nack id stamp next errText blockedOn refund =>
    m.replayNack id stamp next errText blockedOn refund
  | .park id stamp reason => m.replayPark id stamp reason

/-- The records of a snapshot, each with the frame it was read from. -/
def loadRecords (offload : Bool) (m : Machine) (recs : List (Record × BlobRef)) : Machine :=
  recs.foldl (fun m x => insertRecord offload m x.1 x.2) m

/-- The Seq of the footer of a snapshot. -/
def raiseSeq (m : Machine) (seq : Nat) : Machine :=
  { m with seq := if seq > m.seq then seq else m.seq }

end Applying

section Calls

/-- `NackOptions`. -/
structure NackOptions where
  delay : Int
  err : Bytes
  blockedOn : Bytes
  refund : Bool
deriving DecidableEq

/-- `RequeueOptions`. -/
structure RequeueOptions where
  replaceCheckpoint : Bool
  checkpoint : Option Bytes
deriving DecidableEq

/-- The calls that log one entry. -/
inductive Call where
  | append (r : Record)
  | checkpoint (id token : Bytes) (cp : Option Bytes)
  | ack (id token : Bytes)
  | release (id token : Bytes)
  | nack (id token : Bytes) (o : NackOptions)
  | park (id token reason : Bytes)
  | requeueWith (id : Bytes) (o : RequeueOptions)
  | discard (id : Bytes)
deriving DecidableEq

/-- `withLease`: a change by the holder of the lease. -/
def withLease (m : Machine) (id token : Bytes) (e : Entry) (apply : Item → Machine) :
    Except Error (Option Entry × Machine) :=
  match m.held id token with
  | .error err => .error err
  | .ok it => .ok (some e, apply it)

/-- The item of `withParked` and `RequeueWith`. -/
def parkedItem (m : Machine) (id : Bytes) : Except Error Item :=
  match m.items.get id with
  | none => .error ⟨[.errNotFound], "dlq: record not found"⟩
  | some it =>
    if it.record.state ≠ .parked then
      .error ⟨[.errNotParked], "dlq: record is not parked"⟩
    else .ok it

/-- The check of a checkpoint that comes with a requeue. -/
def checkReplacement (m : Machine) (it : Item) (o : RequeueOptions) : Except Error Unit :=
  if o.replaceCheckpoint then m.checkCheckpoint it o.checkpoint else .ok ()

/-- The machine after `RequeueWith`. -/
def requeued (offload : Bool) (m : Machine) (it : Item) (o : RequeueOptions) (ref : BlobRef) :
    Machine :=
  if o.replaceCheckpoint then
    setCheckpointAt offload (m.applyRequeue it false none) it.record.id o.checkpoint ref
  else m.applyRequeue it false none

/-- A call at clock reading `now`: an error, or the entry it logs (none for the
append of a known record) and the machine after it. -/
def Call.exec (offload : Bool) (refOf : Entry → BlobRef) (m : Machine) (now : Time) :
    Call → Except Error (Option Entry × Machine)
  | .append r =>
    match m.prepare r now with
    | .error err => .error err
    | .ok none => .ok (none, m)
    | .ok (some rec') =>
      .ok (some (.append rec'),
        insertRecord offload m rec' (refOf (.append rec')))
  | .checkpoint id token cp =>
    match m.held id token with
    | .error err => .error err
    | .ok it =>
      match m.checkCheckpoint it cp with
      | .error err => .error err
      | .ok () =>
        .ok (some (.checkpoint id cp),
          setCheckpointAt offload m id cp (refOf (.checkpoint id cp)))
  | .ack id token => withLease m id token (.ack id) m.remove
  | .release id token => withLease m id token (.release id) m.applyRelease
  | .nack id token o =>
    withLease m id token (.nack id now (now + o.delay) o.err o.blockedOn o.refund)
      fun it => m.applyNack it now (now + o.delay) o.err o.blockedOn o.refund
  | .park id token reason =>
    withLease m id token (.park id now reason) fun it => m.applyPark it now reason
  | .requeueWith id o =>
    match parkedItem m id with
    | .error err => .error err
    | .ok it =>
      match checkReplacement m it o with
      | .error err => .error err
      | .ok () =>
        .ok (some (.requeue id o.replaceCheckpoint
            (if o.replaceCheckpoint then o.checkpoint else none)),
          requeued offload m it o (refOf (.requeue id o.replaceCheckpoint
            (if o.replaceCheckpoint then o.checkpoint else none))))
  | .discard id =>
    match parkedItem m id with
    | .error err => .error err
    | .ok it => .ok (some (.discard id), m.remove it)

end Calls

section Leasing

/-- `leaseCand`: a record a `Lease` has picked and reserved. -/
structure Cand where
  ptr : Ptr
  ver : Nat
deriving DecidableEq

/-- A `Lease` between its first and its last step. -/
structure Picked where
  req : LeaseRequest
  cands : List Cand
deriving DecidableEq

/-- How reading the payload of a picked record ended. -/
inductive ReadResult where
  | ok
  | transient
  | unreadable
deriving DecidableEq

/-- `commitLease` behind its first loop: the records it parks and those it
leases. -/
structure Commit where
  now : Time
  ttl : Int
  bad : List Ptr
  good : List Ptr
deriving DecidableEq

/-- The lease candidate of a selected item. -/
def Cand.of (m : Machine) (p : Ptr) : Cand :=
  ⟨p, ((m.items.get p.id).map Item.ver).getD 0⟩

/-- The first step of `Lease`: pick and reserve. -/
def pickLease (m : Machine) (ord : List Bytes) (now : Time) (req : LeaseRequest) :
    Machine × List Cand :=
  ((m.selectLease ord now req).2.foldl (fun m p => m.withPtr p m.reserve)
      (m.selectLease ord now req).1,
    (m.selectLease ord now req).2.map (Cand.of m))

/-- The `release` of `commitLease`. -/
def releaseCands (m : Machine) (cands : List Cand) : Machine :=
  cands.foldl (fun m c => m.withPtr c.ptr m.unreserve) m

/-- The candidate has not changed since it was picked and may be leased. -/
def stillGood (m : Machine) (now : Time) (c : Cand) : Bool :=
  match m.items.get c.ptr.id with
  | none => false
  | some it => it.ptr = c.ptr && it.ver = c.ver && m.eligible it now

/-- The candidates that are still good and whose payload was read as `r`. -/
def candsRead (m : Machine) (now : Time) (cands : List Cand) (reads : List ReadResult)
    (r : ReadResult) : List Ptr :=
  ((cands.zip reads).filter fun x => stillGood m now x.1 && x.2 = r).map fun x => x.1.ptr

/-- The text a record is parked with when its payload cannot be read back. -/
def unreadableReason : Bytes :=
  str "payload unreadable on disk (corrupt or missing): restore the log files from a backup"

end Leasing

/-- A store: its machine, the leases between their steps, and the `commitLease`
that holds the lock. -/
structure Core where
  m : Machine
  picked : List Picked
  commit : Option Commit
deriving DecidableEq

def Core.new (lim : Limits) : Core where
  m := newMachine lim
  picked := []
  commit := none

/-- The steps of a store. -/
inductive CoreAct where
  | call (c : Call) (now : Time)
  | pick (ord : List Bytes) (now : Time) (req : LeaseRequest)
  | commit (i : Nat) (now : Time) (reads : List ReadResult)
  | giveUp (i : Nat)
  | parkBad
  | grant (tokens : List Bytes)
  | done
  | abort
  | leaseNow (ord : List Bytes) (now : Time) (req : LeaseRequest) (tokens : List Bytes)
deriving DecidableEq

/-- `validateLease`. -/
def validLease (req : LeaseRequest) : Bool :=
  !(req.max < 1 || req.ttl ≤ 0)

/-- One step of a store and the entry it logs. -/
def Core.step (offload : Bool) (refOf : Entry → BlobRef) (s : Core) :
    CoreAct → Option (Core × Option Entry)
  | .call c now =>
    if s.commit.isSome then none
    else
      match c.exec offload refOf s.m now with
      | .error _ => some (s, none)
      | .ok (e, m) => some ({ s with m := m }, e)
  | .pick ord now req =>
    if s.commit = none ∧ validLease req ∧ ord.Perm s.m.groups.keys then
      some ({ s with
        m := (pickLease s.m ord now req).1
        picked := s.picked ++ [⟨req, (pickLease s.m ord now req).2⟩] }, none)
    else none
  | .commit i now reads =>
    -- `begin` passes: release the reservations and judge the candidates
    match s.commit, s.picked[i]? with
    | none, some x =>
      if reads.length = x.cands.length then
        some ({ s with
          m := releaseCands s.m x.cands
          picked := s.picked.eraseIdx i
          commit := some ⟨now, x.req.ttl,
            candsRead (releaseCands s.m x.cands) now x.cands reads .unreadable,
            candsRead (releaseCands s.m x.cands) now x.cands reads .ok⟩ }, none)
      else none
    | _, _ => none
  | .giveUp i =>
    -- `begin` fails: release the reservations
    match s.commit, s.picked[i]? with
    | none, some x =>
      some ({ s with
        m := releaseCands s.m x.cands
        picked := s.picked.eraseIdx i }, none)
    | _, _ => none
  | .parkBad =>
    match s.commit with
    | some ⟨now, ttl, p :: bad, good⟩ =>
      some ({ s with
        m := s.m.withPtr p fun it => s.m.applyPark it now unreadableReason
        commit := some ⟨now, ttl, bad, good⟩ },
        some (.park p.id now unreadableReason))
    | _ => none
  | .grant tokens =>
    match s.commit with
    | some ⟨now, ttl, [], good⟩ =>
      if good ≠ [] ∧ tokens.length = good.length then
        some ({ s with
          m := s.m.grant (good.zip tokens) now ttl
          commit := none },
          some (.lease (good.map Ptr.id)))
      else none
    | _ => none
  | .done =>
    match s.commit with
    | some ⟨_, _, [], []⟩ => some ({ s with commit := none }, none)
    | _ => none
  | .abort =>
    -- the log refused the next entry
    if s.commit.isSome then some ({ s with commit := none }, none) else none
  | .leaseNow ord now req tokens =>
    -- `MemoryStore.Lease`
    if s.commit = none ∧ validLease req ∧ ord.Perm s.m.groups.keys ∧
        tokens.length = (s.m.selectLease ord now req).2.length then
      some ({ s with
        m := (s.m.selectLease ord now req).1.grant
          ((s.m.selectLease ord now req).2.zip tokens) now req.ttl },
        if (s.m.selectLease ord now req).2 = [] then none
        else some (.lease ((s.m.selectLease ord now req).2.map Ptr.id)))
    else none

section Turns

/-- What a step can be, and the entry it logs. -/
inductive Core.Turn (offload : Bool) (refOf : Entry → BlobRef) (s : Core) :
    CoreAct → Core → Option Entry → Prop
  | failed
      {c : Call} {now : Time} {err : Error}
      (hidle : s.commit = none)
      (hexec : c.exec offload refOf s.m now = .error err) :
      Turn offload refOf s (.call c now) s none
  | called
      {c : Call} {now : Time} {e : Option Entry} {m : Machine}
      (hidle : s.commit = none)
      (hexec : c.exec offload refOf s.m now = .ok (e, m)) :
      Turn offload refOf s (.call c now) { s with m := m } e
  | picked
      {ord : List Bytes} {now : Time} {req : LeaseRequest}
      (hidle : s.commit = none)
      (hord : ord.Perm s.m.groups.keys) :
      Turn offload refOf s (.pick ord now req)
        { s with
          m := (pickLease s.m ord now req).1
          picked := s.picked ++ [⟨req, (pickLease s.m ord now req).2⟩] } none
  | committed
      {i : Nat} {now : Time} {reads : List ReadResult} {x : Picked}
      (hidle : s.commit = none)
      (hx : s.picked[i]? = some x)
      (hlen : reads.length = x.cands.length) :
      Turn offload refOf s (.commit i now reads)
        { m := releaseCands s.m x.cands
          picked := s.picked.eraseIdx i
          commit := some ⟨now, x.req.ttl,
            candsRead (releaseCands s.m x.cands) now x.cands reads .unreadable,
            candsRead (releaseCands s.m x.cands) now x.cands reads .ok⟩ } none
  | gaveUp
      {i : Nat} {x : Picked}
      (hidle : s.commit = none)
      (hx : s.picked[i]? = some x) :
      Turn offload refOf s (.giveUp i)
        { s with m := releaseCands s.m x.cands, picked := s.picked.eraseIdx i } none
  | parkedBad
      {now : Time} {ttl : Int} {p : Ptr} {bad good : List Ptr}
      (hcommit : s.commit = some ⟨now, ttl, p :: bad, good⟩) :
      Turn offload refOf s .parkBad
        { s with
          m := s.m.withPtr p fun it => s.m.applyPark it now unreadableReason
          commit := some ⟨now, ttl, bad, good⟩ }
        (some (.park p.id now unreadableReason))
  | granted
      {tokens : List Bytes} {now : Time} {ttl : Int} {good : List Ptr}
      (hcommit : s.commit = some ⟨now, ttl, [], good⟩)
      (hsome : good ≠ [])
      (hlen : tokens.length = good.length) :
      Turn offload refOf s (.grant tokens)
        { s with m := s.m.grant (good.zip tokens) now ttl, commit := none }
        (some (.lease (good.map Ptr.id)))
  | done
      {now : Time} {ttl : Int}
      (hcommit : s.commit = some ⟨now, ttl, [], []⟩) :
      Turn offload refOf s .done { s with commit := none } none
  | aborted
      (hcommit : s.commit.isSome = true) :
      Turn offload refOf s .abort { s with commit := none } none
  | leasedNone
      {ord tokens : List Bytes} {now : Time} {req : LeaseRequest}
      (hidle : s.commit = none)
      (hnone : (s.m.selectLease ord now req).2 = []) :
      Turn offload refOf s (.leaseNow ord now req tokens)
        { s with m := (s.m.selectLease ord now req).1 } none
  | leasedNow
      {ord tokens : List Bytes} {now : Time} {req : LeaseRequest}
      (hidle : s.commit = none)
      (hord : ord.Perm s.m.groups.keys)
      (hlen : tokens.length = (s.m.selectLease ord now req).2.length) :
      Turn offload refOf s (.leaseNow ord now req tokens)
        { s with
          m := (s.m.selectLease ord now req).1.grant
            ((s.m.selectLease ord now req).2.zip tokens) now req.ttl }
        (some (.lease ((s.m.selectLease ord now req).2.map Ptr.id)))

theorem Core.turn_of_step
    {offload : Bool} {refOf : Entry → BlobRef} {s s' : Core} {a : CoreAct} {e : Option Entry}
    (hstep : s.step offload refOf a = some (s', e)) : s.Turn offload refOf a s' e := by
  cases a with
  | call c now =>
    obtain ⟨hfree, hstep⟩ := of_unless hstep
    have hidle : s.commit = none := by simpa using hfree
    split at hstep
    · next err hexec =>
      cases hstep
      exact .failed hidle hexec
    · next e m hexec =>
      cases hstep
      exact .called hidle hexec
  | pick ord now req =>
    obtain ⟨hguard, hstep⟩ := of_when hstep
    cases hstep
    exact .picked hguard.1 hguard.2.2
  | commit i now reads =>
    simp only [Core.step] at hstep
    split at hstep
    · next x hidle hx =>
      obtain ⟨hlen, hstep⟩ := of_when hstep
      cases hstep
      exact .committed hidle hx hlen
    · cases hstep
  | giveUp i =>
    simp only [Core.step] at hstep
    split at hstep
    · next x hidle hx =>
      cases hstep
      exact .gaveUp hidle hx
    · cases hstep
  | parkBad =>
    simp only [Core.step] at hstep
    split at hstep
    · next now ttl p bad good hcommit =>
      cases hstep
      exact .parkedBad hcommit
    · cases hstep
  | grant tokens =>
    simp only [Core.step] at hstep
    split at hstep
    · next now ttl good hcommit =>
      obtain ⟨hguard, hstep⟩ := of_when hstep
      cases hstep
      exact .granted hcommit hguard.1 hguard.2
    · cases hstep
  | done =>
    simp only [Core.step] at hstep
    split at hstep
    · next now ttl hcommit =>
      cases hstep
      exact .done hcommit
    · cases hstep
  | abort =>
    obtain ⟨hcommit, hstep⟩ := of_when hstep
    cases hstep
    exact .aborted hcommit
  | leaseNow ord now req tokens =>
    obtain ⟨hguard, hstep⟩ := of_when hstep
    cases hstep
    split
    · next hnone =>
      rw [hnone]
      exact .leasedNone hguard.1 hnone
    · exact .leasedNow hguard.1 hguard.2.2.1 hguard.2.2.2

end Turns

end Dlq
end GoGuard
