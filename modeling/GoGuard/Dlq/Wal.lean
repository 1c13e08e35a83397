import GoGuard.Dlq.Reopen

/-!
# The store with its log

`WALStore` as a whole: the calls of `Core` log their entries into segments of
bytes, a compaction captures the records, copies them into a snapshot and swaps
it for the segments it covers, fsyncs make entries durable, and a crash leaves
some of the files from which the store is opened again.

The log as a list of entries, and the entries whose calls have returned, are kept
beside the files; no step reads them.  What can fail outside the model (the disk,
the context) ends a step without an effect, or is a compaction that is given up.
-/

namespace GoGuard
namespace Dlq

open Lib Machine

section Compactions

/-- `snapEntry`: what a compaction captures about one record. -/
structure SnapEntry where
  record : Record
  bodyRef : BlobRef
  ckptRef : BlobRef
deriving DecidableEq

/-- A lease belongs to a worker that will not survive a restart. -/
def SnapEntry.of (it : Item) : SnapEntry :=
  ⟨it.record.settle, it.bodyRef, it.ckptRef⟩

/-- The item the copy hydrates. -/
def SnapEntry.item (e : SnapEntry) : Item :=
  { Item.new e.record with bodyRef := e.bodyRef, ckptRef := e.ckptRef }

/-- A compaction behind its capture.  `old` is the number of segments it covers;
`copied` is the snapshot it wrote and renamed, and where the copies landed. -/
structure Compaction where
  last : Nat
  seq : Nat
  old : Nat
  entries : List SnapEntry
  copied : Option (File × List BlobRef)
deriving DecidableEq

/-- The copy of one record: whatever still refers to what was captured. -/
def repointOne (m : Machine) (e : SnapEntry) (newRef : BlobRef) : Machine :=
  match m.items.get e.record.id with
  | none => m
  | some it =>
    m.store { it with
      bodyRef := if it.bodyRef = e.bodyRef then newRef else it.bodyRef
      ckptRef := if e.ckptRef.valid ∧ it.ckptRef = e.ckptRef then newRef else it.ckptRef }

/-- The first loop of the swap. -/
def repoint (m : Machine) (xs : List (SnapEntry × BlobRef)) : Machine :=
  xs.foldl (fun m x => repointOne m x.1 x.2) m

end Compactions

section Model

/-- A store and its files.  The last of `segs` is the active segment; `durable`
entries and `synced` bytes of the active segment are on stable storage, and
`flight` are those an fsync that runs will add.  `log` are the entries by LSN and
`acked` the LSNs whose calls have returned nil. -/
structure Wal where
  core : Core
  segs : List File
  snap : Option File
  aside : List Bytes
  nextLSN : Nat
  comp : Option Compaction
  durable : Nat
  synced : Nat
  flight : Option (Nat × Nat)
  log : List Entry
  acked : List Nat
deriving DecidableEq

/-- The LSN of the current snapshot. -/
def Wal.snapLSN (w : Wal) : Nat :=
  (w.snap.map File.id).getD 0

/-- The files that are part of the log. -/
def Wal.dir (w : Wal) : Dir :=
  ⟨w.segs, w.snap.toList, w.aside⟩

/-- A store that was just opened.  What a crash has left is on stable storage. -/
def Wal.opened (x : Opened) (log : List Entry) (acked : List Nat) : Wal where
  core := ⟨x.m, [], none⟩
  segs := x.dir.segs
  snap := x.dir.snaps.head?
  aside := x.dir.aside
  nextLSN := x.nextLSN
  comp := none
  durable := log.length
  synced := (x.dir.segs.getLast?.map fun f => f.data.length).getD 0
  flight := none
  log := log
  acked := acked

/-- A store in a new directory. -/
def Wal.new (o : WalOptions) : Wal :=
  .opened ⟨newMachine o.lim, 1, 0, ⟨[newSegment o 1], [], []⟩⟩ [] []

def Wal.activeSize (w : Wal) : Nat :=
  (w.segs.getLast?.map fun f => f.data.length).getD 0

def Wal.activeStart (w : Wal) : Nat :=
  (w.segs.getLast?.map File.id).getD 0

/-- `rotateLocked`: the active segment is synced and a new one started. -/
def Wal.rotate (o : WalOptions) (w : Wal) : Wal :=
  { w with
    segs := w.segs ++ [newSegment o w.nextLSN]
    durable := w.log.length
    synced := headerSize }

/-- `logLocked` rotates before it writes the entry. -/
def Wal.rotates (o : WalOptions) (w : Wal) (e : Entry) : Bool :=
  w.activeSize > headerSize &&
    w.activeSize + (entryFrame o.signer w.nextLSN e).length > o.segmentBytes

/-- The log when the entry is written. -/
def Wal.room (o : WalOptions) (w : Wal) (e : Entry) : Wal :=
  if w.rotates o e then w.rotate o else w

/-- Where the frame of an entry lands. -/
def Wal.refOf (o : WalOptions) (w : Wal) (e : Entry) : BlobRef :=
  segRef o.signer.isSome e.typ (w.room o e).activeStart (w.room o e).activeSize
    (entryFrame o.signer w.nextLSN e).length

/-- Bytes at the end of the last file. -/
def appendLast (bs : Bytes) : List File → List File
  | [] => []
  | [f] => [⟨f.id, f.data ++ bs⟩]
  | f :: fs => f :: appendLast bs fs

/-- `logLocked` behind its check. -/
def Wal.write (o : WalOptions) (w : Wal) (e : Entry) : Wal :=
  { w.room o e with
    segs := appendLast (entryFrame o.signer w.nextLSN e) (w.room o e).segs
    nextLSN := w.nextLSN + 1
    log := w.log ++ [e] }

/-- What a crash keeps: how many bytes of the active segment, how many of the
header of a new one, and, if the rename of a snapshot is kept, which of the files
it covers. -/
structure Crash where
  cut : Nat
  half : Option Nat
  renamed : Bool
  oldSegs : List Bool
  oldSnap : Bool
deriving DecidableEq

/-- The files behind the choice of a crash. -/
def keepSome : List Bool → List File → List File
  | b :: bs, f :: fs => if b then f :: keepSome bs fs else keepSome bs fs
  | _, _ => []

/-- The last file up to some byte. -/
def cutLast (k : Nat) : List File → List File
  | [] => []
  | [f] => [⟨f.id, f.data.take k⟩]
  | f :: fs => f :: cutLast k fs

/-- The header of a new segment up to some byte. -/
def halfSegment (o : WalOptions) (start : Nat) : Option Nat → List File
  | none => []
  | some k => [⟨start, (newSegment o start).data.take k⟩]

/-- The snapshot a compaction has renamed, if the crash keeps it, and the number
of segments it covers. -/
def Wal.renamed (w : Wal) (c : Crash) : Option (Compaction × File) :=
  match w.comp with
  | some ⟨last, seq, old, entries, some (f, refs)⟩ =>
    if c.renamed then some (⟨last, seq, old, entries, some (f, refs)⟩, f) else none
  | _ => none

/-- The directory a crash leaves. -/
def Wal.left (o : WalOptions) (w : Wal) (c : Crash) : Dir :=
  match w.renamed c with
  | none =>
    ⟨cutLast c.cut w.segs ++ halfSegment o w.nextLSN c.half, w.snap.toList, w.aside⟩
  | some (k, f) =>
    ⟨keepSome c.oldSegs (w.segs.take k.old)
        ++ (cutLast c.cut (w.segs.drop k.old) ++ halfSegment o w.nextLSN c.half),
      (if c.oldSnap then w.snap.toList else []) ++ [f], w.aside⟩

/-- A crash keeps what was synced; a new segment is only created when the active
one holds entries and is synced. -/
def Crash.possible (w : Wal) (c : Crash) : Bool :=
  w.synced ≤ c.cut &&
    (match c.half with
    | none => true
    | some k => k < headerSize && w.activeSize > headerSize && w.activeSize ≤ c.cut)

inductive WalAct where
  /-- a step of the calls -/
  | core (a : CoreAct)
  /-- the first phase of a compaction -/
  | capture
  /-- the copy of the records, and the rename -/
  | copy
  /-- the compaction is given up before the rename -/
  | abandon
  /-- the last phase of a compaction -/
  | swap
  /-- the sync loop starts an fsync -/
  | syncStart
  | syncDone
  /-- a call that waits for the entry with this LSN returns nil -/
  | finish (lsn : Nat)
  /-- a crash, and the store is opened again -/
  | reopen (c : Crash)
deriving DecidableEq

/-- The steps of `MemoryStore` alone. -/
def CoreAct.inMemory : CoreAct → Bool
  | .leaseNow .. => true
  | _ => false

/-- A step of the calls.  With payloads in memory a compaction holds the lock. -/
def Wal.coreStep (o : WalOptions) (w : Wal) (a : CoreAct) : Option Wal :=
  if a.inMemory ∨ o.offload = false ∧ w.comp.isSome then none
  else
    match w.core.step o.offload (w.refOf o) a with
    | none => none
    | some (c, none) => some { w with core := c }
    | some (c, some e) =>
      -- the log refuses the entry, and the call fails
      if e.body.length > maxEntryBytes then
        some { w with core := { w.core with commit := none } }
      -- rotation waits for the fsync that runs
      else if w.rotates o e ∧ w.flight.isSome then none
      else some { w.write o e with core := c }

/-- The active segment is sealed, so that what is logged next is behind the
snapshot. -/
def Wal.sealed (o : WalOptions) (w : Wal) : Wal :=
  if w.activeSize > headerSize then w.rotate o else w

/-- The capture of a compaction, under the lock. -/
def Wal.capture (o : WalOptions) (w : Wal) : Option Wal :=
  if w.comp.isSome ∨ w.core.commit.isSome then none
  else if w.nextLSN - 1 ≤ w.snapLSN then some w
  else if w.activeSize > headerSize ∧ w.flight.isSome then none
  else
    some { w.sealed o with
      comp := some ⟨w.nextLSN - 1, w.core.m.seq, (w.sealed o).segs.length - 1,
        w.core.m.liveItems.map SnapEntry.of, none⟩ }

/-- `writeSnapshotOffload` or `writeSnapshot`, and the rename. -/
def Wal.copy (o : WalOptions) (w : Wal) (c : Compaction) : Wal :=
  match c.entries.mapM fun e => hydrate o.signer w.dir e.item with
  | none => { w with comp := none }
  | some recs =>
    { w with
      comp := some { c with
        copied := some (⟨c.last, snapData o.signer c.last recs c.seq⟩,
          (placedRecs o.signer c.last headerSize recs).map Prod.snd) } }

/-- The swap of a compaction, under the lock. -/
def Wal.swap (o : WalOptions) (w : Wal) (c : Compaction) (f : File) (refs : List BlobRef) : Wal :=
  { w with
    core := { w.core with
      m := if o.offload then repoint w.core.m (c.entries.zip refs) else w.core.m }
    segs := w.segs.drop c.old
    snap := some f
    comp := none }

def Wal.step (o : WalOptions) (w : Wal) : WalAct → Option Wal
  | .core a => w.coreStep o a
  | .capture => w.capture o
  | .copy =>
    match w.comp with
    | some c => if c.copied = none then some (w.copy o c) else none
    | none => none
  | .abandon =>
    match w.comp with
    | some c => if c.copied = none then some { w with comp := none } else none
    | none => none
  | .swap =>
    match w.comp with
    | some c =>
      match c.copied with
      | some (f, refs) => if w.core.commit.isSome then none else some (w.swap o c f refs)
      | none => none
    | none => none
  | .syncStart =>
    if w.flight.isSome ∨ w.durable = w.log.length then none
    else some { w with flight := some (w.log.length, w.activeSize) }
  | .syncDone =>
    match w.flight with
    | some (n, k) =>
      some { w with
        durable := max w.durable n
        synced := max w.synced k
        flight := none }
    | none => none
  | .finish lsn =>
    if lsn ≤ w.durable then some { w with acked := lsn :: w.acked } else none
  | .reopen c =>
    if c.possible w then
      match recover o (w.left o c) with
      | .error _ => none
      | .ok x => some (.opened x (w.log.take (x.nextLSN - 1)) w.acked)
    else none

end Model

section Turns

/-- What holds with and without a rotation. -/
theorem Wal.rotated {o : WalOptions} {w : Wal} {P : Wal → Prop} (hrotate : P (w.rotate o))
    (hkeep : P w) : P (w.sealed o) ∧ ∀ e, P (w.room o e) := by
  unfold Wal.sealed Wal.room
  refine ⟨?_, fun e => ?_⟩ <;> split <;> assumption

theorem Wal.copy_eq (o : WalOptions) (w : Wal) (c : Compaction) :
    ∃ comp, w.copy o c = { w with comp := comp } := by
  unfold Wal.copy
  split <;> exact ⟨_, rfl⟩

/-- A step of the calls may run. -/
def Wal.admits (o : WalOptions) (w : Wal) (a : CoreAct) : Prop :=
  ¬ (a.inMemory ∨ o.offload = false ∧ w.comp.isSome)

/-- What a step can do. -/
inductive Wal.Turn (o : WalOptions) (w : Wal) : WalAct → Wal → Prop
  | silent
      {a : CoreAct} {c : Core}
      (hadmits : w.admits o a)
      (hcore : w.core.step o.offload (w.refOf o) a = some (c, none)) :
      Turn o w (.core a) { w with core := c }
  | refused
      {a : CoreAct} {c : Core} {e : Entry}
      (hadmits : w.admits o a)
      (hcore : w.core.step o.offload (w.refOf o) a = some (c, some e))
      (hsize : maxEntryBytes < e.body.length) :
      Turn o w (.core a) { w with core := { w.core with commit := none } }
  | logged
      {a : CoreAct} {c : Core} {e : Entry}
      (hadmits : w.admits o a)
      (hcore : w.core.step o.offload (w.refOf o) a = some (c, some e))
      (hsize : e.body.length ≤ maxEntryBytes)
      (hwait : ¬ (w.rotates o e ∧ w.flight.isSome)) :
      Turn o w (.core a) { w.write o e with core := c }
  | covered :
      Turn o w .capture w
  | captured
      (hidle : w.comp = none)
      (hcommit : w.core.commit = none)
      (hnew : w.snapLSN < w.nextLSN - 1)
      (hwait : ¬ (w.activeSize > headerSize ∧ w.flight.isSome)) :
      Turn o w .capture { w.sealed o with
        comp := some ⟨w.nextLSN - 1, w.core.m.seq, (w.sealed o).segs.length - 1,
          w.core.m.liveItems.map SnapEntry.of, none⟩ }
  | copied
      {c : Compaction}
      (hcomp : w.comp = some c)
      (hnew : c.copied = none) :
      Turn o w .copy (w.copy o c)
  | abandoned
      {c : Compaction}
      (hcomp : w.comp = some c)
      (hnew : c.copied = none) :
      Turn o w .abandon { w with comp := none }
  | swapped
      {c : Compaction} {f : File} {refs : List BlobRef}
      (hcomp : w.comp = some c)
      (hcopied : c.copied = some (f, refs))
      (hidle : w.core.commit = none) :
      Turn o w .swap (w.swap o c f refs)
  | syncing
      (hidle : w.flight = none)
      (hnew : w.durable ≠ w.log.length) :
      Turn o w .syncStart { w with flight := some (w.log.length, w.activeSize) }
  | synced
      {n k : Nat}
      (hflight : w.flight = some (n, k)) :
      Turn o w .syncDone { w with
        durable := max w.durable n
        synced := max w.synced k
        flight := none }
  | finished
      {lsn : Nat}
      (hle : lsn ≤ w.durable) :
      Turn o w (.finish lsn) { w with acked := lsn :: w.acked }
  | reopened
      {c : Crash} {x : Opened}
      (hposs : c.possible w = true)
      (hrecover : recover o (w.left o c) = .ok x) :
      Turn o w (.reopen c) (.opened x (w.log.take (x.nextLSN - 1)) w.acked)

theorem Wal.turn_of_step {o : WalOptions} {w w' : Wal} {a : WalAct} (hstep : w.step o a = some w') :
    w.Turn o a w' := by
  cases a with
  | core a =>
    obtain ⟨hadmits, hstep⟩ := of_unless hstep
    split at hstep
    · cases hstep
    · next c hcore =>
      cases hstep
      exact .silent hadmits hcore
    · next c e hcore =>
      split at hstep
      · next hsize =>
        cases hstep
        exact .refused hadmits hcore hsize
      · next hsize =>
        obtain ⟨hwait, rfl⟩ := of_guard_not hstep
        exact .logged hadmits hcore (not_lt.mp hsize) hwait
  | capture =>
    obtain ⟨hidle, hstep⟩ := of_unless hstep
    simp only [not_or, Bool.not_eq_true, Option.isSome_eq_false_iff,
      Option.isNone_iff_eq_none] at hidle
    split at hstep
    · cases hstep
      exact .covered
    · next hnew =>
      obtain ⟨hwait, rfl⟩ := of_guard_not hstep
      exact .captured hidle.1 hidle.2 (not_le.mp hnew) hwait
  | copy =>
    simp only [Wal.step] at hstep
    split at hstep
    · next c hcomp =>
      obtain ⟨hnew, rfl⟩ := of_guard hstep
      exact .copied hcomp hnew
    · cases hstep
  | abandon =>
    simp only [Wal.step] at hstep
    split at hstep
    · next c hcomp =>
      obtain ⟨hnew, rfl⟩ := of_guard hstep
      exact .abandoned hcomp hnew
    · cases hstep
  | swap =>
    simp only [Wal.step] at hstep
    split at hstep
    · next c hcomp =>
      split at hstep
      · next f refs hcopied =>
        obtain ⟨hidle, rfl⟩ := of_guard_not hstep
        exact .swapped hcomp hcopied (by simpa using hidle)
      · cases hstep
    · cases hstep
  | syncStart =>
    obtain ⟨hidle, rfl⟩ := of_guard_not hstep
    simp only [not_or, Bool.not_eq_true, Option.isSome_eq_false_iff,
      Option.isNone_iff_eq_none] at hidle
    exact .syncing hidle.1 hidle.2
  | syncDone =>
    simp only [Wal.step] at hstep
    split at hstep
    · next n k hflight =>
      cases hstep
      exact .synced hflight
    · cases hstep
  | finish lsn =>
    obtain ⟨hle, rfl⟩ := of_guard hstep
    exact .finished hle
  | reopen c =>
    obtain ⟨hposs, hstep⟩ := of_when hstep
    split at hstep
    · cases hstep
    · next x hrecover =>
      cases hstep
      exact .reopened hposs hrecover

end Turns

end Dlq
end GoGuard
