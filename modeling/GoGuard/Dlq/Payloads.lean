import GoGuard.Dlq.IndexInvariant
import GoGuard.Dlq.Written

/-!
# Payloads on disk

An item of a store that keeps payloads on disk has up to two references, to the
frame with its record and to the frame with its checkpoint.  `Sees` relates an
item to the record that `hydrate` reads back through them.  Whatever is logged or
loaded is seen if its frame is at the reference it is given (`EntryAt.finds`,
`sees_newItem`), the frames of written files are at their references, and what is
seen in a directory is seen in every directory that keeps its frames
(`Sees.mono`).
-/

namespace GoGuard
namespace Dlq

open Lib Machine List

section Growing

variable {sg : Option Signer} {d d' : Dir}

/-- Every frame of one directory is in the other. -/
def Dir.Kept (d d' : Dir) : Prop :=
  ∀ snap id off n bs, readAt d snap id off n = some bs → readAt d' snap id off n = some bs

variable {ref : BlobRef} {sg' : Option Signer} {id : Bytes} {r : Record} {loc : Loc} {p : Payload}
  {it : Item}

theorem Dir.Kept.loadFrame (h : Dir.Kept d d') {body : Bytes}
    (hload : loadFrame sg d ref = some body) : loadFrame sg d' ref = some body := by
  simp only [Dlq.loadFrame] at hload ⊢
  cases hread : readAt d ref.snap ref.file ref.off ref.n with
  | none =>
    rw [hread] at hload
    cases hload
  | some bs =>
    rw [hread] at hload
    rw [h _ _ _ _ _ hread]
    exact hload

/-- Every frame that is read from one directory is read from the other, perhaps with
another signer. -/
def FramesKept (sg : Option Signer) (d : Dir) (sg' : Option Signer) (d' : Dir) : Prop :=
  ∀ ref body, loadFrame sg d ref = some body → loadFrame sg' d' ref = some body

theorem Dir.Kept.frames (h : Dir.Kept d d') : FramesKept sg d sg d' :=
  fun _ _ hload => h.loadFrame hload

theorem FramesKept.loadRecord (h : FramesKept sg d sg' d')
    (hload : loadRecord sg d ref id = some r) : loadRecord sg' d' ref id = some r := by
  simp only [Dlq.loadRecord] at hload ⊢
  cases hframe : Dlq.loadFrame sg d ref with
  | none =>
    rw [hframe] at hload
    cases hload
  | some body =>
    rw [hframe] at hload
    rw [h _ _ hframe]
    exact hload

theorem FramesKept.loadCheckpoint (h : FramesKept sg d sg' d') {cp : Option Bytes}
    (hload : loadCheckpoint sg d ref id = some cp) : loadCheckpoint sg' d' ref id = some cp := by
  simp only [Dlq.loadCheckpoint] at hload ⊢
  split at hload
  · next hkind =>
    rw [if_pos hkind]
    obtain ⟨r, hr, hcp⟩ := Option.map_eq_some_iff.mp hload
    rw [h.loadRecord hr]
    exact congrArg some hcp
  · next hkind =>
    rw [if_neg hkind]
    obtain ⟨hkind', hload⟩ := of_when hload
    rw [if_pos hkind']
    cases hframe : Dlq.loadFrame sg d ref with
    | none =>
      rw [hframe] at hload
      cases hload
    | some body =>
      rw [hframe] at hload
      rw [h _ _ hframe]
      exact hload

/-- The key, the value and the headers of an item. -/
def bodyAt (sg : Option Signer) (d : Dir) (loc : Loc) : Option Payload :=
  if loc.bodyRef.valid then (loadRecord sg d loc.bodyRef loc.id).map Record.payload
  else some loc.held

/-- The checkpoint of an item with that body. -/
def checkpointAt (sg : Option Signer) (d : Dir) (loc : Loc) (p : Payload) : Option (Option Bytes) :=
  if loc.bodyRef.valid ∧ loc.ckptRef = loc.bodyRef then some p.checkpoint
  else if loc.ckptRef.valid then loadCheckpoint sg d loc.ckptRef loc.id
  else some loc.held.checkpoint

theorem bodyAt_disk (h : loc.bodyRef.valid = true) :
    bodyAt sg d loc = (loadRecord sg d loc.bodyRef loc.id).map Record.payload :=
  if_pos h

theorem bodyAt_held (h : loc.bodyRef.valid = false) : bodyAt sg d loc = some loc.held :=
  if_neg (by rw [h]; decide)

theorem payloadAt_eq_some :
    payloadAt sg d loc = some p ↔
      ∃ b cp, bodyAt sg d loc = some b ∧ checkpointAt sg d loc b = some cp ∧
        p = { b with checkpoint := cp } := by
  unfold payloadAt bodyAt checkpointAt
  cases hbody : loc.bodyRef.valid with
  | false =>
    cases hckpt : loc.ckptRef.valid with
    | false => simp [eq_comm]
    | true => simp [eq_comm]
  | true =>
    cases hload : loadRecord sg d loc.bodyRef loc.id with
    | none => simp
    | some full =>
      by_cases hsame : loc.ckptRef = loc.bodyRef
      · simp [hsame, eq_comm]
      · cases hckpt : loc.ckptRef.valid with
        | false => simp [hsame, eq_comm]
        | true => simp [hsame, eq_comm]

theorem FramesKept.payloadAt (h : FramesKept sg d sg' d') (hpay : payloadAt sg d loc = some p) :
    payloadAt sg' d' loc = some p := by
  obtain ⟨b, cp, hbody, hckpt, rfl⟩ := payloadAt_eq_some.mp hpay
  refine payloadAt_eq_some.mpr ⟨b, cp, ?_, ?_, rfl⟩
  · cases hvalid : loc.bodyRef.valid with
    | true =>
      rw [bodyAt_disk hvalid] at hbody ⊢
      obtain ⟨r, hr, hb⟩ := Option.map_eq_some_iff.mp hbody
      rw [h.loadRecord hr]
      exact congrArg some hb
    | false =>
      rw [bodyAt_held hvalid] at hbody ⊢
      exact hbody
  · unfold checkpointAt at hckpt ⊢
    split at hckpt
    · next hsame =>
      rw [if_pos hsame]
      exact hckpt
    · next hsame =>
      rw [if_neg hsame]
      split at hckpt
      · next hvalid =>
        rw [if_pos hvalid]
        exact h.loadCheckpoint hckpt
      · next hvalid =>
        rw [if_neg hvalid]
        exact hckpt

theorem FramesKept.hydrate (h : FramesKept sg d sg' d') (hread : hydrate sg d it = some r) :
    hydrate sg' d' it = some r := by
  obtain ⟨p, hp, rfl⟩ := reading_eq_some hread
  unfold Dlq.hydrate reading
  rw [h.payloadAt hp]
  rfl

theorem Dir.Kept.hydrate (h : Dir.Kept d d') (hread : hydrate sg d it = some r) :
    hydrate sg d' it = some r :=
  h.frames.hydrate hread

end Growing

section Seeing

variable {sg : Option Signer} {d d' : Dir}

/-- The type of a frame that holds a record. -/
def RecordKind (k : UInt8) : Prop :=
  k = entAppend ∨ k = snapRecord

/-- The record is read back through the references of the item, of which there are
none with payloads in memory, and the item counts its bytes. -/
structure Sees (sg : Option Signer) (offload : Bool) (d : Dir) (it : Item) (r : Record) :
    Prop where
  read : hydrate sg d it = some r
  disk : offload = true → RecordKind it.bodyRef.kind
  held : offload = false → it.bodyRef = .zero ∧ it.ckptRef = .zero
  whole : Whole it r

theorem sight_sees (sg : Option Signer) (offload : Bool) (d : Dir) :
    Sight (Sees sg offload d) where
  same h := reading_meta h.read
  revised hg hrev h :=
    ⟨(sight_reading _).revised hg hrev h.read, by rw [hrev.bodyRef]; exact h.disk,
      by rw [hrev.bodyRef, hrev.ckptRef]; exact h.held, sight_whole.revised hg hrev h.whole⟩
  shelved grp h := ⟨h.read, h.disk, h.held, sight_whole.shelved grp h.whole⟩

variable {offload : Bool} {it : Item} {r : Record} {ref : BlobRef}

theorem Sees.transfer {sg' : Option Signer} (h : Sees sg offload d it r)
    (hkept : FramesKept sg d sg' d') : Sees sg' offload d' it r :=
  ⟨hkept.hydrate h.read, h.disk, h.held, h.whole⟩

theorem Sees.mono (h : Sees sg offload d it r) (hkept : Dir.Kept d d') : Sees sg offload d' it r :=
  h.transfer hkept.frames

/-- The frame at the reference holds the record. -/
def RecordAt (sg : Option Signer) (d : Dir) (ref : BlobRef) (r : Record) : Prop :=
  RecordKind ref.kind ∧ loadRecord sg d ref r.id = some r.stored

/-- The frame at the reference holds the checkpoint. -/
def CheckpointAt (sg : Option Signer) (d : Dir) (ref : BlobRef) (id : Bytes) (cp : Option Bytes) :
    Prop :=
  (ref.kind = entCheckpoint ∨ ref.kind = entRequeue) ∧ loadCheckpoint sg d ref id = some cp

/-- The frame at the reference holds what the entry leaves on disk. -/
def EntryAt (sg : Option Signer) (d : Dir) (ref : BlobRef) : Entry → Prop
  | .append r => RecordAt sg d ref r
  | .checkpoint id cp => CheckpointAt sg d ref id cp
  | .requeue id true cp => CheckpointAt sg d ref id cp
  | _ => True

theorem RecordKind.valid (h : RecordKind ref.kind) : ref.valid = true := by
  unfold BlobRef.valid
  rcases h with h | h <;> rw [h] <;> decide

theorem valid_of_checkpointKind (h : ref.kind = entCheckpoint ∨ ref.kind = entRequeue) :
    ref.valid = true ∧ ¬ RecordKind ref.kind := by
  unfold BlobRef.valid RecordKind
  rcases h with h | h <;> rw [h] <;> decide

theorem valid_zero : BlobRef.zero.valid = false := by
  decide

theorem Sees.body (h : Sees sg offload d it r) (hvalid : it.bodyRef.valid = true) :
    RecordKind it.bodyRef.kind := by
  cases offload with
  | true => exact h.disk rfl
  | false =>
    rw [(h.held rfl).1, valid_zero] at hvalid
    cases hvalid

theorem sees_newItem (h : offload = true → RecordAt sg d ref r) :
    Sees sg offload d (newItem offload r ref) r := by
  refine ⟨?_, ?_, ?_, whole_newItem offload r ref⟩
  · cases offload with
    | false => rfl
    | true =>
      obtain ⟨hkind, hload⟩ := h rfl
      have hpay : payloadAt sg d (newItem true r ref).loc = some r.payload := by
        refine payloadAt_eq_some.mpr ⟨r.payload, r.checkpoint, ?_, ?_, rfl⟩
        · have hvalid : (newItem true r ref).loc.bodyRef.valid = true := hkind.valid
          rw [bodyAt_disk hvalid]
          change (loadRecord sg d ref r.id).map Record.payload = some r.payload
          rw [hload]
          rfl
        · unfold checkpointAt
          change (if ref.valid = true ∧ (if r.checkpoint.isSome then ref else .zero) = ref
            then some r.checkpoint
            else if (if r.checkpoint.isSome then ref else BlobRef.zero).valid = true
              then loadCheckpoint sg d (if r.checkpoint.isSome then ref else .zero) r.id
              else some none) = some r.checkpoint
          cases hcp : r.checkpoint with
          | none =>
            have hne : BlobRef.zero ≠ ref := by
              rintro rfl
              have := hkind.valid
              cases this
            simp [hne, valid_zero]
          | some cp => simp [hkind.valid]
      unfold hydrate reading
      rw [hpay]
      rfl
  · rintro rfl
    exact (h rfl).1
  · rintro rfl
    exact ⟨rfl, rfl⟩

theorem findsCheckpoint_sees {id : Bytes} {cp : Option Bytes}
    (h : offload = true → CheckpointAt sg d ref id cp) :
    FindsCheckpoint (Sees sg offload d) offload ref id cp cp := by
  rintro it it' r rfl hwith hsees
  have hid : it'.record.id = it.record.id := by
    rw [hwith.record]
    rfl
  refine ⟨?_, ?_, ?_, findsCheckpoint_whole offload ref _ cp it it' r rfl hwith hsees.whole⟩
  · obtain ⟨p, hp, rfl⟩ := reading_eq_some hsees.read
    obtain ⟨b, old, hbody, -, rfl⟩ := payloadAt_eq_some.mp hp
    have hbody' : ∃ b', bodyAt sg d it'.loc = some b' ∧
        { b' with checkpoint := cp } = { b with checkpoint := cp } := by
      have hsame : it'.loc.bodyRef = it.loc.bodyRef := hwith.bodyRef
      cases hvalid : it.loc.bodyRef.valid with
      | true =>
        rw [bodyAt_disk hvalid] at hbody
        rw [bodyAt_disk (hsame ▸ hvalid), hsame]
        refine ⟨b, ?_, rfl⟩
        change (loadRecord sg d it.loc.bodyRef it'.record.id).map Record.payload = some b
        rw [hid]
        exact hbody
      | false =>
        rw [bodyAt_held hvalid] at hbody
        cases hbody
        refine ⟨_, bodyAt_held (hsame ▸ hvalid), ?_⟩
        change { it'.record.payload with checkpoint := cp } = _
        rw [hwith.record]
        rfl
    obtain ⟨b', hb', heq⟩ := hbody'
    have hckpt : checkpointAt sg d it'.loc b' = some cp := by
      unfold checkpointAt
      simp only [Item.loc, hwith.bodyRef, hwith.ckptRef, hid]
      by_cases hdisk : offload = true ∧ cp ≠ none
      · obtain ⟨hkind, hload⟩ := h hdisk.1
        obtain ⟨hvalid, hnot⟩ := valid_of_checkpointKind hkind
        have hne : ¬ (it.bodyRef.valid = true ∧ ref = it.bodyRef) := by
          rintro ⟨hv, heq⟩
          exact hnot (heq ▸ hsees.body hv)
        rw [if_pos hdisk, if_neg hne, if_pos hvalid]
        exact hload
      · have hne : ¬ (it.bodyRef.valid = true ∧ BlobRef.zero = it.bodyRef) := by
          rintro ⟨hv, heq⟩
          rw [← heq, valid_zero] at hv
          cases hv
        rw [if_neg hdisk, if_neg hne, if_neg (by rw [valid_zero]; decide)]
        rw [hwith.record]
        cases offload with
        | false => rfl
        | true =>
          have hnone : cp = none := by
            by_contra hcp
            exact hdisk ⟨rfl, hcp⟩
          rw [hnone]
          rfl
    have hpay : payloadAt sg d it'.loc = some { b with checkpoint := cp } :=
      payloadAt_eq_some.mpr ⟨b', cp, hb', hckpt, heq.symm⟩
    unfold hydrate reading
    rw [hpay, hwith.record]
    rfl
  · rw [hwith.bodyRef]
    exact hsees.disk
  · rintro rfl
    exact ⟨hwith.bodyRef.trans (hsees.held rfl).1, hwith.ckptRef⟩

theorem EntryAt.finds {e : Entry} (h : offload = true → EntryAt sg d ref e) :
    Finds (Sees sg offload d) offload ref e e := by
  cases e with
  | append r => exact ⟨r, rfl, sees_newItem h⟩
  | checkpoint id cp => exact ⟨cp, rfl, findsCheckpoint_sees h⟩
  | requeue id replace cp =>
    cases replace with
    | false => rfl
    | true => exact ⟨cp, rfl, findsCheckpoint_sees h⟩
  | _ => rfl

theorem loadCheckpoint_record (hkind : RecordKind ref.kind) (id : Bytes) :
    loadCheckpoint sg d ref id = (loadRecord sg d ref id).map Record.checkpoint :=
  if_pos hkind

/-- The checkpoint of an item on disk. -/
def checkpointOf (sg : Option Signer) (d : Dir) (it : Item) : Option (Option Bytes) :=
  if it.ckptRef.valid then loadCheckpoint sg d it.ckptRef it.record.id
  else some it.record.checkpoint

theorem hydrate_disk (hkind : RecordKind it.bodyRef.kind) :
    hydrate sg d it = some r ↔
      ∃ full cp, loadRecord sg d it.bodyRef it.record.id = some full ∧
        checkpointOf sg d it = some cp ∧
          r = it.record.withPayload { full.payload with checkpoint := cp } := by
  have hvalid : it.loc.bodyRef.valid = true := hkind.valid
  have hckpt : ∀ full, loadRecord sg d it.bodyRef it.record.id = some full →
      checkpointAt sg d it.loc full.payload = checkpointOf sg d it := by
    intro full hfull
    unfold checkpointAt checkpointOf
    by_cases hsame : it.ckptRef = it.bodyRef
    · have hload : loadCheckpoint sg d it.ckptRef it.record.id = some full.checkpoint := by
        rw [hsame, loadCheckpoint_record hkind, hfull]
        rfl
      rw [if_pos ⟨hvalid, hsame⟩, if_pos (hsame ▸ hkind.valid), hload]
      rfl
    · rw [if_neg fun hboth => hsame hboth.2]
      rfl
  unfold hydrate reading
  rw [Option.map_eq_some_iff]
  constructor
  · rintro ⟨p, hp, rfl⟩
    obtain ⟨b, cp, hbody, hcp, rfl⟩ := payloadAt_eq_some.mp hp
    rw [bodyAt_disk hvalid] at hbody
    obtain ⟨full, hfull, rfl⟩ := Option.map_eq_some_iff.mp hbody
    exact ⟨full, cp, hfull, hckpt full hfull ▸ hcp, rfl⟩
  · rintro ⟨full, cp, hfull, hcp, rfl⟩
    refine ⟨_, payloadAt_eq_some.mpr ⟨full.payload, cp, ?_, ?_, rfl⟩, rfl⟩
    · rw [bodyAt_disk hvalid]
      exact Option.map_eq_some_iff.mpr ⟨full, hfull, rfl⟩
    · rw [hckpt full hfull]
      exact hcp

theorem hydrate_held (hbody : it.bodyRef = .zero) (hckpt : it.ckptRef = .zero) :
    hydrate sg d it = some it.record := by
  have hpay : payloadAt sg d it.loc = some it.record.payload := by
    simp only [payloadAt, Item.loc, hbody, hckpt, valid_zero, Bool.false_eq_true, if_false]
  unfold hydrate reading
  rw [hpay]
  rfl

end Seeing

section Placing

variable {sg : Option Signer} {d : Dir} {ref : BlobRef}

variable {e : Entry} {sg' : Option Signer} {lsn start : Nat} {tail : Bytes} {sgs : Signing}
  {parts : List (List Entry)}

theorem EntryAt.stored (h : EntryAt sg d ref e) : EntryAt sg d ref e.stored := by
  cases e with
  | append r =>
    refine ⟨h.1, ?_⟩
    rw [Record.stored_stored]
    exact h.2
  | _ => exact h

theorem entryAt_of_frame (hload : loadFrame sg d ref = some e.body) (hkind : ref.kind = e.typ)
    (hfits : e.Fits) : EntryAt sg d ref e := by
  have hdecode := decodeEntry_body hfits
  cases e with
  | append r =>
    refine ⟨.inl hkind, ?_⟩
    have hrecord : whole decodeRecord (encodeRecord r) = some r.stored :=
      whole_of_reads (reads_record ⟨hfits.2.1, hfits.2.2.1, hfits.1⟩)
    have hid : r.stored.id = r.id := rfl
    simp only [loadRecord, hload, Entry.body, hrecord, hid, ne_eq, not_true_eq_false, if_false]
  | checkpoint id cp =>
    refine ⟨.inl hkind, ?_⟩
    change ref.kind = entCheckpoint at hkind
    have hnot : ¬ RecordKind entCheckpoint := by unfold RecordKind; decide
    have hbody : decodeEntry entCheckpoint (Entry.checkpoint id cp).body =
        some (.checkpoint id cp) := hdecode
    unfold RecordKind at hnot
    simp only [loadCheckpoint, hload, hkind, hnot, hbody, if_false, true_or, if_true, ne_eq,
      not_true_eq_false]
  | requeue id replace cp =>
    cases replace with
    | false => trivial
    | true =>
      refine ⟨.inr hkind, ?_⟩
      change ref.kind = entRequeue at hkind
      have hnot : ¬ RecordKind entRequeue := by unfold RecordKind; decide
      have hbody : decodeEntry entRequeue (Entry.requeue id true cp).body =
          some (.requeue id true cp) := hdecode
      unfold RecordKind at hnot
      simp only [loadCheckpoint, hload, hkind, hnot, hbody, if_false, or_true, if_true,
        ne_eq, not_true_eq_false]
  | _ => trivial

theorem loadFrame_of_file {snap : Bool} {id : Nat} {typ : UInt8} {body : Bytes} (hsg : Opens sg' sg)
    (pre post : Bytes)
    (hfile : d.file snap id = some (pre ++ appendFrame lsn typ
      (sealBody sg snap (if snap then id else lsn) typ body) ++ post))
    (hlsn : lsn < 2 ^ 64)
    (hlen : (sealBody sg snap (if snap then id else lsn) typ body).length ≤ maxEntryBytes) :
    loadFrame sg' d ⟨typ, sg.isSome, snap, id, pre.length, (appendFrame lsn typ
      (sealBody sg snap (if snap then id else lsn) typ body)).length⟩ = some body := by
  generalize hframe : appendFrame lsn typ
    (sealBody sg snap (if snap then id else lsn) typ body) = fr at hfile
  have hcut : ((pre ++ fr ++ post).drop pre.length).take fr.length = fr := by
    rw [append_assoc, drop_left, take_left]
  have hread : readAt d snap id pre.length fr.length = some fr := by
    simp only [readAt, hfile, hcut, if_true]
  have hparse := readFrame_appendFrame hlsn hlen typ []
  rw [append_nil, hframe] at hparse
  have hopen := hsg.openBody snap (if snap then id else lsn) typ body
  simp only [loadFrame, hread, hparse, ne_eq, not_true_eq_false, if_false, hopen]

theorem entryAt_placed {es : List Entry} (hsg : Opens sg' sg) (pre : Bytes)
    (hfile : d.file false start = some (pre ++ entryFrames sg lsn es ++ tail))
    (h : AllReadable sg lsn es) :
    ∀ x ∈ placed sg start pre.length lsn es, EntryAt sg' d x.2 x.1 := by
  induction es generalizing lsn pre with
  | nil => exact fun _ hx => nomatch hx
  | cons e es ih =>
    obtain ⟨hone, hrest⟩ := h
    simp only [entryFrames, ← append_assoc] at hfile
    intro x hx
    rcases mem_cons.mp hx with rfl | hx
    · refine (entryAt_of_frame ?_ rfl hone.fits).stored
      refine loadFrame_of_file hsg pre (entryFrames sg (lsn + 1) es ++ tail) ?_ hone.lsn_lt
        hone.length
      rw [hfile]
      simp only [append_assoc]
      rfl
    · refine ih (pre ++ entryFrame sg lsn e) hfile hrest x ?_
      rw [length_append]
      exact hx

/-- The segments are in the directory, whatever follows their entries. -/
def PartsIn (sgs : Signing) (d : Dir) : Nat → List (List Entry) → Prop
  | _, [] => True
  | start, es :: rest =>
    (∃ tail, d.file false start = some (segData (sgs start) start es ++ tail)) ∧
      PartsIn sgs d (start + es.length) rest

theorem entryAt_placedParts (hsgs : ∀ n, start ≤ n → Opens sg (sgs n))
    (hin : PartsIn sgs d start parts) (h : PartsReadable sgs start parts) :
    ∀ x ∈ placedParts sgs start parts, EntryAt sg d x.2 x.1 := by
  induction parts generalizing start with
  | nil => exact fun _ hx => nomatch hx
  | cons es parts ih =>
    obtain ⟨⟨tail, hfile⟩, hin⟩ := hin
    obtain ⟨hes, hparts⟩ := h
    intro x hx
    rcases mem_append.mp hx with hx | hx
    · refine entryAt_placed (hsgs start (le_refl _))
        (encodeHeaderFlags walMagic start (fileFlags (sgs start))) hfile hes x ?_
      exact hx
    · exact ih (fun n hn => hsgs n (by omega)) hin hparts x hx

theorem recordAt_placedRecs {recs : List Record} (hsg : Opens sg' sg) (pre : Bytes)
    (hfile : d.file true lsn = some (pre ++ snapFrames sg lsn recs ++ tail))
    (h : ∀ r ∈ recs, Snappable sg lsn r) :
    ∀ x ∈ placedRecs sg lsn pre.length recs, RecordAt sg' d x.2 x.1 := by
  induction recs generalizing pre with
  | nil => exact fun _ hx => nomatch hx
  | cons r recs ih =>
    have hone := h r mem_cons_self
    simp only [snapFrames, ← append_assoc] at hfile
    intro x hx
    rcases mem_cons.mp hx with rfl | hx
    · refine ⟨.inr rfl, ?_⟩
      have hzero : 0 < 2 ^ 64 := by norm_num
      have hload : loadFrame sg' d (snapRef sg.isSome lsn pre.length (snapFrame sg lsn r).length) =
          some (encodeRecord r) := by
        refine loadFrame_of_file hsg pre (snapFrames sg lsn recs ++ tail) ?_ hzero hone.length
        rw [hfile]
        simp only [append_assoc]
        rfl
      have hdecode : whole decodeRecord (encodeRecord r) = some r.stored :=
        whole_of_reads (reads_record hone.fits)
      simp only [loadRecord, hload, hdecode, ne_eq, not_true_eq_false, if_false,
        Record.stored_stored]
    · refine ih (pre ++ snapFrame sg lsn r) hfile (fun y hy => h y (mem_cons_of_mem _ hy))
        x ?_
      rw [length_append]
      exact hx

/-- All segments but the last hold entries, so no two begin at one LSN. -/
def Filled : List (List Entry) → Prop
  | [] => True
  | [_] => True
  | es :: rest => es ≠ [] ∧ Filled rest

theorem partsIn_segFiles (pre : List File) (hsegs : d.segs = pre ++ segFiles sgs start parts)
    (hpre : ∀ f ∈ pre, f.id < start) (hfilled : Filled parts) : PartsIn sgs d start parts := by
  induction parts generalizing start pre with
  | nil => trivial
  | cons es parts ih =>
    refine ⟨⟨[], ?_⟩, ?_⟩
    · have hnone : pre.find? (fun f => decide (f.id = start)) = none := by
        refine List.find?_eq_none.mpr fun f hf => ?_
        simpa using (hpre f hf).ne
      simp [Dir.file, hsegs, segFiles, List.find?_append, hnone]
    · cases parts with
      | nil => trivial
      | cons es' rest =>
        obtain ⟨hne, hfilled⟩ := hfilled
        have hpos := length_pos_iff.mpr hne
        refine ih (pre ++ [⟨start, segData (sgs start) start es⟩]) ?_ ?_ hfilled
        · rw [hsegs, append_assoc]
          rfl
        · intro f hf
          rcases mem_append.mp hf with hf | hf
          · have := hpre f hf
            omega
          · rw [mem_singleton.mp hf]
            simp only
            omega

end Placing

end Dlq
end GoGuard
