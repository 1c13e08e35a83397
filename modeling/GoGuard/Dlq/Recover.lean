import GoGuard.Dlq.Frame
import GoGuard.Dlq.Refine

/-!
# Opening a log

`recover` on whatever a directory holds: load the newest snapshot, drop the
segments it covers, replay the rest in order, repair the tail of the last one or
set it aside, and end the leases of the process that wrote the log.  A frame of a
file is found again by its reference (`hydrate`).

A directory is its segments and snapshots, by the numbers in their names, and
what recovery has set aside.  The frames of a file are read before they are
applied, which the source does in turns; an entry that does not apply comes
before any damage behind it either way.
-/

namespace GoGuard
namespace Dlq

open Lib Machine

section Options

/-- The part of `WALOptions` that the log itself depends on. -/
structure WalOptions where
  lim : Limits
  payloadsInMemory : Bool
  segmentBytes : Nat
  failOnTruncation : Bool
  forceRepair : Bool
  signer : Option Signer
  acceptUnsignedLegacy : Bool

/-- Payloads live on disk. -/
def WalOptions.offload (o : WalOptions) : Bool := !o.payloadsInMemory

/-- A segment, by its first LSN, or a snapshot, by the LSN of its last entry. -/
structure File where
  id : Nat
  data : Bytes
deriving DecidableEq

/-- A directory; `aside` are the contents of the quarantine files. -/
structure Dir where
  segs : List File
  snaps : List File
  aside : List Bytes
deriving DecidableEq

/-- Files in the order of the numbers in their names. -/
def sorted (fs : List File) : List File :=
  fs.insertionSort fun a b => a.id ≤ b.id

/-- Why recovery refuses a file. -/
inductive Cause where
  | header (e : HeaderError)
  | headerLSN (got : Nat)
  | flags (e : SealError)
  | missing (first last : Nat)
  | frame (e : FrameError)
  | seal (e : SealError)
  | entry (lsn : Nat)
  | unexpected (want got : Nat)
  | truncation (n : Nat)
  | validFollows
  | record
  | duplicate
  | footer (want got : Nat)
  | trailing
  | frameType (typ : UInt8)
deriving DecidableEq

/-- `ErrCorrupt` with the file and the offset, or a segment that cannot be
created because its name is taken. -/
inductive OpenError where
  | corrupt (snap : Bool) (file off : Nat) (cause : Cause)
  | nameTaken (start : Nat)
deriving DecidableEq

end Options

section Snapshots

/-- What `loadSnapshot` has read so far. -/
structure Loading where
  m : Machine
  off : Nat
  count : Nat

/-- The footer of a snapshot: the number of records and the last Seq. -/
def Dec.footer : Decoder (Nat × Nat) := do
  let want ← readUvarint
  let nextSeq ← readUvarint
  return (want, nextSeq)

/-- The reference to a frame of a snapshot. -/
def snapRef (signed : Bool) (lsn off n : Nat) : BlobRef :=
  ⟨snapRecord, signed, true, lsn, off, n⟩

/-- The loop of `loadSnapshot`; `fin` is how reading the frames ends. -/
def loadFrames (o : WalOptions) (signed : Bool) (lsn size : Nat) (fin : FrameError) :
    Loading → List Frame → Except OpenError Machine
  | s, [] => .error (.corrupt true lsn s.off (.frame fin))
  | s, fr :: frs =>
    match openBody o.signer signed true lsn fr.typ fr.body with
    | .error e => .error (.corrupt true lsn s.off (.seal e))
    | .ok body =>
      if fr.typ = snapRecord then
        match whole decodeRecord body with
        | none => .error (.corrupt true lsn (s.off + fr.size) .record)
        | some r =>
          if (s.m.items.get r.id).isSome then
            .error (.corrupt true lsn (s.off + fr.size) .duplicate)
          else
            loadFrames o signed lsn size fin
              ⟨insertRecord o.offload s.m r (snapRef signed lsn s.off fr.size),
                s.off + fr.size, s.count + 1⟩ frs
      else if fr.typ = snapEnd then
        match whole Dec.footer body with
        | none => .error (.corrupt true lsn (s.off + fr.size) (.footer 0 s.count))
        | some (want, nextSeq) =>
          if want ≠ s.count then
            .error (.corrupt true lsn (s.off + fr.size) (.footer want s.count))
          else if s.off + fr.size ≠ size then
            .error (.corrupt true lsn (s.off + fr.size) .trailing)
          else .ok (raiseSeq s.m nextSeq)
      else .error (.corrupt true lsn (s.off + fr.size) (.frameType fr.typ))

/-- `loadSnapshot`. -/
def loadSnapshot (o : WalOptions) (f : File) : Except OpenError Machine :=
  match decodeHeaderFlags (f.data.take headerSize) snapMagic with
  | .error e => .error (.corrupt true f.id 0 (.header e))
  | .ok (got, flags) =>
    if got ≠ f.id then .error (.corrupt true f.id 0 (.headerLSN got))
    else
      match checkFileFlags o.signer o.acceptUnsignedLegacy flags with
      | .error e => .error (.corrupt true f.id 0 (.flags e))
      | .ok signed =>
        loadFrames o signed f.id f.data.length (frames (f.data.drop headerSize)).2
          ⟨newMachine o.lim, headerSize, 0⟩ (frames (f.data.drop headerSize)).1

end Snapshots

section Segments

/-- The state of a replay: the machine, the LSN that should come next and the
offset in the segment. -/
structure Replay where
  m : Machine
  next : Nat
  off : Nat

/-- The reference to a frame of a segment. -/
def segRef (signed : Bool) (typ : UInt8) (start off n : Nat) : BlobRef :=
  ⟨typ, signed, false, start, off, n⟩

/-- One frame of `replaySegment`. -/
def replayFrame (o : WalOptions) (signed : Bool) (snapLSN start : Nat) (s : Replay) (fr : Frame) :
    Except OpenError Replay :=
  if fr.lsn ≤ snapLSN then .ok { s with off := s.off + fr.size }
  else if fr.lsn = s.next then
    match openBody o.signer signed false fr.lsn fr.typ fr.body with
    | .error e => .error (.corrupt false start s.off (.seal e))
    | .ok body =>
      match decodeEntry fr.typ body with
      | none => .error (.corrupt false start s.off (.entry fr.lsn))
      | some e =>
        .ok ⟨applyEntry o.offload s.m (segRef signed fr.typ start s.off fr.size) e,
          s.next + 1, s.off + fr.size⟩
  else .error (.corrupt false start s.off (.unexpected s.next fr.lsn))

/-- What became of a segment: it was set aside, or replayed and kept up to `off`. -/
inductive Replayed where
  | setAside
  | kept (s : Replay) (signed : Bool)

/-- `repairTail`: whether a damaged tail may be cut. -/
def repairTail (o : WalOptions) (sg : File) (s : Replay) : Except OpenError Unit :=
  if o.failOnTruncation then
    .error (.corrupt false sg.id s.off (.truncation (sg.data.length - s.off)))
  else if o.forceRepair = false ∧ validFrameAfter s.next (sg.data.drop s.off) = true then
    .error (.corrupt false sg.id s.off .validFollows)
  else .ok ()

/-- `replaySegment`. -/
def replaySegment (o : WalOptions) (snapLSN : Nat) (sg : File) (m : Machine) (expected : Nat)
    (isLast : Bool) : Except OpenError Replayed :=
  match decodeHeaderFlags (sg.data.take headerSize) walMagic with
  | .error e =>
    -- the crash is taken to have hit while the file was being created
    if isLast ∧ expected ≤ sg.id then .ok .setAside
    else .error (.corrupt false sg.id 0 (.header e))
  | .ok (start, flags) =>
    if start ≠ sg.id then .error (.corrupt false sg.id 0 (.headerLSN start))
    else if sg.id > expected then
      .error (.corrupt false sg.id 0 (.missing expected (sg.id - 1)))
    else
      match checkFileFlags o.signer o.acceptUnsignedLegacy flags with
      | .error e => .error (.corrupt false sg.id 0 (.flags e))
      | .ok signed =>
        match (frames (sg.data.drop headerSize)).1.foldlM
            (replayFrame o signed snapLSN sg.id) ⟨m, expected, headerSize⟩ with
        | .error e => .error e
        | .ok s =>
          match (frames (sg.data.drop headerSize)).2 with
          | .eof => .ok (.kept s signed)
          | e =>
            if isLast = false then .error (.corrupt false sg.id s.off (.frame e))
            else
              match repairTail o sg s with
              | .error err => .error err
              | .ok () => .ok (.kept s signed)

/-- The segments behind those the snapshot covers wholly. -/
def dropCovered (expected : Nat) : List File → List File
  | a :: b :: rest =>
    if b.id ≤ expected then dropCovered expected (b :: rest) else a :: b :: rest
  | l => l

/-- The segments after their replay. -/
structure Segments where
  m : Machine
  next : Nat
  files : List File
  signed : Bool
  aside : List Bytes

/-- The content of a quarantine file; nothing is written for an empty range. -/
def quarantine (bs : Bytes) : List Bytes :=
  if bs = [] then [] else [bs]

/-- The loop of `recover` over the segments. -/
def replaySegments (o : WalOptions) (snapLSN : Nat) :
    Segments → List File → Except OpenError Segments
  | s, [] => .ok s
  | s, sg :: rest =>
    match replaySegment o snapLSN sg s.m s.next (rest = []) with
    | .error e => .error e
    | .ok .setAside => .ok { s with aside := s.aside ++ quarantine sg.data }
    | .ok (.kept r signed) =>
      replaySegments o snapLSN
        ⟨r.m, r.next, s.files ++ [⟨sg.id, sg.data.take r.off⟩], signed,
          s.aside ++ quarantine (sg.data.drop r.off)⟩ rest

/-- A new segment with its header. -/
def newSegment (o : WalOptions) (start : Nat) : File :=
  ⟨start, encodeHeaderFlags walMagic start (fileFlags o.signer)⟩

/-- An open log: the machine, the next LSN, the LSN of the snapshot, and the
directory. -/
structure Opened where
  m : Machine
  nextLSN : Nat
  snapLSN : Nat
  dir : Dir

/-- The end of `recover`: the segment that is appended to. -/
def openActive (o : WalOptions) (snapLSN : Nat) (snaps : List File) (aside : List Bytes)
    (s : Segments) : Except OpenError Opened :=
  if s.files = [] ∨ o.signer.isSome ∧ s.signed = false then
    if s.files.any (·.id = s.next) then .error (.nameTaken s.next)
    else
      .ok ⟨s.m.endReplay, s.next, snapLSN,
        ⟨s.files ++ [newSegment o s.next], snaps, aside ++ s.aside⟩⟩
  else .ok ⟨s.m.endReplay, s.next, snapLSN, ⟨s.files, snaps, aside ++ s.aside⟩⟩

/-- `recover` behind the snapshot. -/
def recoverFrom (o : WalOptions) (m : Machine) (snapLSN : Nat) (d : Dir) (snaps : List File) :
    Except OpenError Opened :=
  match replaySegments o snapLSN ⟨m, snapLSN + 1, [], false, []⟩
      (dropCovered (snapLSN + 1) (sorted d.segs)) with
  | .error e => .error e
  | .ok s => openActive o snapLSN snaps d.aside s

/-- `recover`. -/
def recover (o : WalOptions) (d : Dir) : Except OpenError Opened :=
  match (sorted d.snaps).getLast? with
  | none => recoverFrom o (newMachine o.lim) 0 d []
  | some f =>
    match loadSnapshot o f with
    | .error e => .error e
    | .ok m => recoverFrom o m f.id d [f]

/-- `OpenWALCopy` and `VerifyWAL` behind the copying of the files. -/
def openWALCopy (o : WalOptions) (d : Dir) : Except OpenError Opened :=
  recover { o with failOnTruncation := true } d

end Segments

section Payloads

/-- The content of a file. -/
def Dir.file (d : Dir) (snap : Bool) (id : Nat) : Option Bytes :=
  ((if snap then d.snaps else d.segs).find? (·.id = id)).map File.data

/-- `readAt`: exactly `n` bytes at `off`. -/
def readAt (d : Dir) (snap : Bool) (id off n : Nat) : Option Bytes :=
  match d.file snap id with
  | none => none
  | some data =>
    if ((data.drop off).take n).length = n then some ((data.drop off).take n) else none

/-- `loadFrame`: the type and the body of the frame a reference points at. -/
def loadFrame (sg : Option Signer) (d : Dir) (ref : BlobRef) : Option Bytes :=
  match readAt d ref.snap ref.file ref.off ref.n with
  | none => none
  | some bs =>
    match readFrame bs with
    | .error _ => none
    | .ok (fr, _) =>
      if fr.typ ≠ ref.kind then none
      else
        match openBody sg ref.signed ref.snap (if ref.snap then ref.file else fr.lsn)
            fr.typ fr.body with
        | .error _ => none
        | .ok body => some body

/-- `loadRecord`. -/
def loadRecord (sg : Option Signer) (d : Dir) (ref : BlobRef) (id : Bytes) : Option Record :=
  match loadFrame sg d ref with
  | none => none
  | some body =>
    match whole decodeRecord body with
    | none => none
    | some r => if r.id ≠ id then none else some r

/-- `loadCheckpoint`. -/
def loadCheckpoint (sg : Option Signer) (d : Dir) (ref : BlobRef) (id : Bytes) :
    Option (Option Bytes) :=
  if ref.kind = entAppend ∨ ref.kind = snapRecord then
    (loadRecord sg d ref id).map Record.checkpoint
  else if ref.kind = entCheckpoint ∨ ref.kind = entRequeue then
    match loadFrame sg d ref with
    | none => none
    | some body =>
      match decodeEntry ref.kind body with
      | some (.checkpoint got cp) => if got ≠ id then none else some cp
      | some (.requeue got _ cp) => if got ≠ id then none else some cp
      | _ => none
  else none

/-- The body of `hydrate`: the payload of an item, read back where it is on
disk. -/
def payloadAt (sg : Option Signer) (d : Dir) : Reader := fun loc =>
  if loc.bodyRef.valid then
    match loadRecord sg d loc.bodyRef loc.id with
    | none => none
    | some full =>
      if loc.ckptRef = loc.bodyRef then some full.payload
      else if loc.ckptRef.valid then
        (loadCheckpoint sg d loc.ckptRef loc.id).map fun cp =>
          { full.payload with checkpoint := cp }
      else some { full.payload with checkpoint := loc.held.checkpoint }
  else if loc.ckptRef.valid then
    (loadCheckpoint sg d loc.ckptRef loc.id).map fun cp => { loc.held with checkpoint := cp }
  else some loc.held

/-- `hydrate`: the full record of an item. -/
def hydrate (sg : Option Signer) (d : Dir) (it : Item) : Option Record :=
  reading (payloadAt sg d) it

end Payloads

end Dlq
end GoGuard
