import GoGuard.Dlq.WalFiles

/-!
# What holds in every state of a store with its log

The files hold the log: the snapshot is the queue of the entries it covers, and
the segments hold the others, one after the other.  The machine stands for the
queue of the whole log, up to what a restart changes, and every payload is read
back from the files.  A compaction between its phases has captured the queue of
the entries up to its LSN, and every reference of the machine is one it captured
or points behind that LSN.

A step keeps this if what it writes can be read back (`Wal.Sound`).
-/

namespace GoGuard
namespace Dlq

open Lib Machine Queue List

section Definitions

/-- A reference to a frame behind the snapshot at `last`, or in it. -/
def NewRef (last : Nat) (ref : BlobRef) : Prop :=
  (ref.snap = false ∧ last < ref.file) ∨ (ref.snap = true ∧ ref.file = last)

/-- The references of an item are those a compaction captured, or newer. -/
structure Known (c : Compaction) (it : Item) : Prop where
  body : NewRef c.last it.bodyRef ∨
    ∃ e ∈ c.entries, e.record.id = it.record.id ∧ it.bodyRef = e.bodyRef
  ckpt : it.ckptRef.valid = false ∨ NewRef c.last it.ckptRef ∨
    ∃ e ∈ c.entries, e.record.id = it.record.id ∧ it.ckptRef = e.ckptRef

/-- The item stands for the record, and a compaction knows its references. -/
def Seen (o : WalOptions) (d : Dir) (comp : Option Compaction) (it : Item) (r : Record) : Prop :=
  Sees o.signer o.offload d it r ∧ ∀ c, comp = some c → Known c it

/-- What a compaction has captured, and what it has written. -/
structure CompOk (o : WalOptions) (sgs : Signing) (base : Nat) (d : Dir) (log : List Entry)
    (closed : List (List Entry)) (c : Compaction) :
    Prop where
  own : ∀ n, c.last < n → sgs n = o.signer
  old_le : c.old ≤ closed.length
  last_eq : c.last = base + (closed.take c.old).flatten.length
  lt : base < c.last
  kinds : o.offload = true → ∀ e ∈ c.entries, RecordKind e.bodyRef.kind
  captured : ∃ recs, List.Forall₂ (fun e r => hydrate o.signer d e.item = some r)
      c.entries recs ∧
    (⟨recs, c.seq⟩ : Queue).reborn = (empty.replay (log.take c.last)).reborn ∧
      ∀ f refs, c.copied = some (f, refs) →
        f = ⟨c.last, snapData o.signer c.last recs c.seq⟩ ∧
          refs = (placedRecs o.signer c.last headerSize recs).map Prod.snd ∧
            ∀ r ∈ recs, Snappable o.signer c.last r

/-- The first `n` entries end at byte `k` of the active segment. -/
def EndsAt (sg : Option Signer) (base : Nat) (closed : List (List Entry)) (active : List Entry)
    (n k : Nat) : Prop :=
  ∃ j, j ≤ active.length ∧ n = base + closed.flatten.length + j ∧
    k = (segData sg (base + 1 + closed.flatten.length) (active.take j)).length

/-- What holds in every state, for the closed segments and the active one. -/
structure WalOk (o : WalOptions) (sgs : Signing) (w : Wal) (closed : List (List Entry))
    (active : List Entry) :
    Prop where
  core : CoreOk w.core
  reads : ∀ n, w.snapLSN < n → o.Reads (sgs n)
  own : ∀ n, w.snapLSN + 1 + closed.flatten.length ≤ n → sgs n = o.signer
  layout : (⟨w.snap, closed ++ [active]⟩ : Layout).Ok sgs w.log
  segs : w.segs = segFiles sgs (w.snapLSN + 1) (closed ++ [active])
  next : w.nextLSN = w.log.length + 1
  shown : ∃ q, Shows (Seen o w.dir w.comp) w.core.m q ∧ q.reborn = (empty.replay w.log).reborn
  seqs : ∀ k, (empty.replay (w.log.take k)).seq ≤ k
  comp : ∀ c, w.comp = some c → CompOk o sgs w.snapLSN w.dir w.log closed c
  synced : EndsAt o.signer w.snapLSN closed active w.durable w.synced
  flight : ∀ n k, w.flight = some (n, k) → EndsAt o.signer w.snapLSN closed active n k
  acked : ∀ n ∈ w.acked, n ≤ w.durable

/-- What a step writes can be read back: the sealed body of an entry is within the
limit of `readFrame`, and so is the sealed body of every record of a snapshot, whose
attempts have not wrapped. -/
def Wal.Sound (o : WalOptions) (w : Wal) : WalAct → Prop
  | .core a => ∀ c e, w.core.step o.offload (w.refOf o) a = some (c, some e) →
      e.body.length ≤ maxEntryBytes →
        (sealBody o.signer false w.nextLSN e.typ e.body).length ≤ maxEntryBytes ∧
          w.nextLSN + 1 < 2 ^ 64
  | .copy => ∀ c, w.comp = some c → ∀ e ∈ c.entries, ∀ r,
      hydrate o.signer w.dir e.item = some r →
        0 ≤ r.attempts ∧
          (sealBody o.signer true c.last snapRecord (encodeRecord r)).length ≤ maxEntryBytes
  | _ => True

instance (o : WalOptions) (w : Wal) (a : WalAct) : Decidable (w.Sound o a) :=
  match a with
  | .core a =>
    match h : w.core.step o.offload (w.refOf o) a with
    | some (_, some e) =>
      decidable_of_iff (e.body.length ≤ maxEntryBytes →
        (sealBody o.signer false w.nextLSN e.typ e.body).length ≤ maxEntryBytes ∧
          w.nextLSN + 1 < 2 ^ 64) (by simp [Wal.Sound, h])
    | some (_, none) => isTrue (by simp [Wal.Sound, h])
    | none => isTrue (by simp [Wal.Sound, h])
  | .copy =>
    match h : w.comp with
    | none => isTrue (by simp [Wal.Sound, h])
    | some c =>
      decidable_of_iff (∀ e ∈ c.entries, ∀ r ∈ hydrate o.signer w.dir e.item,
        0 ≤ r.attempts ∧
          (sealBody o.signer true c.last snapRecord (encodeRecord r)).length ≤ maxEntryBytes)
        (by simp [Wal.Sound, h])
  | .capture | .abandon | .swap | .syncStart | .syncDone | .finish _ | .reopen _ =>
    isTrue trivial

end Definitions

section Seeing

variable {o : WalOptions} {d d' : Dir} {comp : Option Compaction}

theorem Known.of_same {c : Compaction} {it it' : Item} (h : Known c it)
    (hid : it'.record.id = it.record.id) (hbody : it'.bodyRef = it.bodyRef)
    (hckpt : it'.ckptRef = it.ckptRef) : Known c it' := by
  refine ⟨?_, ?_⟩
  · rw [hbody, hid]
    exact h.body
  · rw [hckpt, hid]
    exact h.ckpt

theorem sight_seen (o : WalOptions) (d : Dir) (comp : Option Compaction) :
    Sight (Seen o d comp) where
  same h := (sight_sees o.signer o.offload d).same h.1
  revised {it it' r g} hg hrev h := by
    have hid : it'.record.id = it.record.id := by
      rw [hrev.record]
      exact (hg it.record it.record.payload).2.2
    exact ⟨(sight_sees o.signer o.offload d).revised hg hrev h.1,
      fun c hc => (h.2 c hc).of_same hid hrev.bodyRef hrev.ckptRef⟩
  shelved grp h :=
    ⟨(sight_sees o.signer o.offload d).shelved grp h.1,
      fun c hc => (h.2 c hc).of_same rfl rfl rfl⟩

/-- A machine that shows a queue in one directory shows it in another if each item
stands for the same record. -/
theorem Shows.transfer {R R' : Item → Record → Prop} {m : Machine} {q : Queue} (hs : Shows R m q)
    (hR : Sight R') (himp : ∀ it r, R it r → R' it r) : Shows R' m q :=
  ⟨hR, hs.recs.imp himp, hs.seq, hs.bytes⟩

theorem finds_seen {ref : BlobRef} {e : Entry} (hat : o.offload = true → EntryAt o.signer d ref e)
    (hnew : ∀ c, comp = some c → o.offload = true ∧ NewRef c.last ref) :
    Finds (Seen o d comp) o.offload ref e e := by
  have hzero : BlobRef.zero.valid = false := valid_zero
  have hckpt : ∀ id cp, (o.offload = true → CheckpointAt o.signer d ref id cp) →
      FindsCheckpoint (Seen o d comp) o.offload ref id cp cp := by
    rintro id cp hcp it it' r hid hwith ⟨hsees, hknown⟩
    have hid' : it'.record.id = it.record.id := by
      rw [hwith.record]
      rfl
    refine ⟨findsCheckpoint_sees hcp it it' r hid hwith hsees, fun c hc => ⟨?_, ?_⟩⟩
    · rw [hwith.bodyRef, hid']
      exact (hknown c hc).body
    · rw [hwith.ckptRef]
      split
      · exact .inr (.inl (hnew c hc).2)
      · exact .inl hzero
  cases e with
  | append r =>
    refine ⟨r, rfl, sees_newItem hat, ?_⟩
    intro c hc
    -- with payloads in memory no call runs during a compaction
    obtain ⟨hoff, hlast⟩ := hnew c hc
    rw [hoff]
    refine ⟨.inl hlast, ?_⟩
    change (if r.checkpoint.isSome then ref else BlobRef.zero).valid = false ∨
      NewRef c.last (if r.checkpoint.isSome then ref else BlobRef.zero) ∨ _
    split
    · exact .inr (.inl hlast)
    · exact .inl hzero
  | checkpoint id cp => exact ⟨cp, rfl, hckpt id cp hat⟩
  | requeue id replace cp =>
    cases replace with
    | false => rfl
    | true => exact ⟨cp, rfl, hckpt id cp hat⟩
  | _ => rfl

end Seeing

section Logging

variable {offload : Bool} {refOf : Entry → BlobRef} {s s' : Core}

/-- What a call checks about the entry it logs besides `Logged`. -/
def Checked (e : Entry) : Prop :=
  (∀ r, e = .append r → 0 ≤ r.attempts) ∧ ∀ id cp, e = .requeue id false cp → cp = none

variable {e : Entry} {m m' : Machine}

theorem checked_plain (happend : ∀ r, e ≠ .append r)
    (hrequeue : ∀ id cp, e ≠ .requeue id false cp) : Checked e :=
  ⟨fun r h => absurd h (happend r), fun id cp h => absurd h (hrequeue id cp)⟩

theorem checked_exec {now : Time} {c : Call}
    (hexec : c.exec offload refOf m now = .ok (some e, m')) : Checked e := by
  cases executed_of_exec hexec with
  | append hprep =>
    refine ⟨?_, fun _ _ h => (nomatch h)⟩
    intro x hx
    cases hx
    exact (prepare_eq_some hprep).counted
  | requeueWith hparked he =>
    subst he
    refine ⟨fun _ h => (nomatch h), ?_⟩
    intro id' cp h
    simp only [Entry.requeue.injEq] at h
    rw [← h.2.2, h.2.1]
    rfl
  | _ => exact checked_plain (fun _ h => nomatch h) (fun _ _ h => nomatch h)

theorem checked_step {a : CoreAct} (hstep : s.step offload refOf a = some (s', some e)) :
    Checked e := by
  cases Core.turn_of_step hstep with
  | called hidle hexec => exact checked_exec hexec
  | parkedBad hcommit => exact checked_plain (fun _ h => nomatch h) (fun _ _ h => nomatch h)
  | granted | leasedNow =>
    exact checked_plain (fun _ h => nomatch h) (fun _ _ h => nomatch h)

theorem seq_apply_le {q : Queue} (h : ∀ r, e = .append r → r.seq ≤ q.seq + 1) :
    (q.apply e).seq ≤ q.seq + 1 := by
  refine apply_induction (P := fun x => x.seq ≤ q.seq + 1) (Nat.le_succ _) ?_ ?_
  · intro r hr
    have hle := h r hr
    unfold Queue.push
    split
    · exact Nat.le_succ _
    · simp only
      split <;> omega
  · exact fun _ _ _ hq => hq

theorem seq_of_stepEffect {r : Record} (heff : StepEffect offload refOf m m' (some e))
    (he : e = .append r) : r.seq = m.seq + 1 ∧ r.state ≠ .leased := by
  subst he
  rcases heff with ⟨hlog, -⟩ | ⟨ids, h, -⟩
  · exact hlog.2
  · cases h

end Logging

section Steps

variable {o : WalOptions} {sgs : Signing} {w : Wal} {closed : List (List Entry)} {active : List Entry}

theorem filled_concat {xs : List (List Entry)} {a : List Entry} :
    Filled (xs ++ [a]) ↔ ∀ x ∈ xs, x ≠ [] := by
  induction xs with
  | nil => simp [Filled]
  | cons x xs ih =>
    cases xs with
    | nil => simp [Filled]
    | cons y xs =>
      simp only [cons_append, Filled, mem_cons, forall_eq_or_imp] at ih ⊢
      rw [ih]

section

variable (h : WalOk o sgs w closed active)
include h

theorem WalOk.length_log : w.snapLSN + closed.flatten.length + active.length = w.log.length := by
  have hflat := congrArg List.length h.layout.flatten
  have hle : w.snapLSN ≤ w.log.length := h.layout.base_le
  have hbase : (⟨w.snap, closed ++ [active]⟩ : Layout).base = w.snapLSN := rfl
  simp only [flatten_append, flatten_cons, flatten_nil, append_nil,
    length_append, length_drop, hbase] at hflat
  omega

theorem WalOk.seq_le : (empty.replay w.log).seq ≤ w.log.length := by
  have hle := h.seqs w.log.length
  rw [take_length] at hle
  exact hle

theorem WalOk.getLast :
    w.segs.getLast? = some ⟨w.snapLSN + 1 + closed.flatten.length,
      segData o.signer (w.snapLSN + 1 + closed.flatten.length) active⟩ := by
  rw [h.segs, segFiles_concat, h.own _ (le_refl _), List.getLast?_append]
  rfl

theorem WalOk.activeStart_eq : w.activeStart = w.snapLSN + 1 + closed.flatten.length := by
  unfold Wal.activeStart
  rw [h.getLast]
  rfl

theorem WalOk.activeSize_eq :
    w.activeSize =
      (segData o.signer (w.snapLSN + 1 + closed.flatten.length) active).length := by
  unfold Wal.activeSize
  rw [h.getLast]
  rfl

theorem WalOk.active_ne (hsize : w.activeSize > headerSize) : active ≠ [] := by
  rintro rfl
  rw [h.activeSize_eq, length_segData] at hsize
  simp [entryFrames] at hsize

theorem WalOk.rotate (hne : active ≠ [])
    (hflight : w.flight = none) : WalOk o sgs (w.rotate o) (closed ++ [active]) [] := by
  have hlen := h.length_log
  have hflat : (closed ++ [active]).flatten.length = closed.flatten.length + active.length := by
    simp
  have hkept : Dir.Kept w.dir (w.rotate o).dir :=
    kept_of_grow (filesGrow_append _ _) (FilesGrow.refl _)
  have hparts : (closed ++ [active] ++ [[]]).flatten = (closed ++ [active]).flatten := by simp
  have hown : ∀ n, w.snapLSN + 1 + (closed ++ [active]).flatten.length ≤ n → sgs n = o.signer :=
    fun n hn => h.own n (by omega)
  refine ⟨h.core, h.reads, hown, ?_, ?_, h.next, ?_, h.seqs, ?_, ?_, ?_, ?_⟩
  · have hl := h.layout
    refine ⟨by simp, ?_, hl.base_le, hparts.trans hl.flatten, hl.readable,
      partsReadable_append.mpr ⟨hl.parts_readable, trivial, trivial⟩, hl.lsn_lt, hl.fair, hl.snap⟩
    rw [filled_concat]
    intro x hx
    rcases mem_append.mp hx with hx | hx
    · exact filled_concat.mp hl.filled x hx
    · rw [mem_singleton.mp hx]
      exact hne
  · have hstart : w.nextLSN = w.snapLSN + 1 + (closed ++ [active]).flatten.length := by
      rw [h.next, hflat]
      omega
    change w.segs ++ [newSegment o w.nextLSN] =
      segFiles sgs (w.snapLSN + 1) (closed ++ [active] ++ [[]])
    rw [segFiles_concat, ← h.segs, hstart, hown _ (le_refl _), newSegment, segData, entryFrames,
      append_nil]
  · obtain ⟨q, hshows, hreborn⟩ := h.shown
    refine ⟨q, hshows.transfer (sight_seen _ _ _) ?_, hreborn⟩
    exact fun it r hr => ⟨hr.1.mono hkept, hr.2⟩
  · intro c hc
    have hcomp := h.comp c hc
    obtain ⟨recs, hread, hreborn, hcopied⟩ := hcomp.captured
    refine ⟨hcomp.own, ?_, ?_, hcomp.lt, hcomp.kinds, recs, ?_, hreborn, hcopied⟩
    · have hle := hcomp.old_le
      rw [length_append]
      omega
    · rw [take_append_of_le_length hcomp.old_le]
      exact hcomp.last_eq
    · exact hread.imp fun _ _ hr => hkept.hydrate hr
  · refine ⟨0, le_refl _, ?_, ?_⟩
    · change w.log.length = w.snapLSN + (closed ++ [active]).flatten.length + 0
      omega
    · rw [take_zero, length_segData]
      rfl
  · intro n k hnk
    change w.flight = some (n, k) at hnk
    rw [hflight] at hnk
    cases hnk
  · intro n hn
    have hd := h.acked n hn
    obtain ⟨j, hj, hdur, -⟩ := h.synced
    change n ≤ w.log.length
    omega

end

/-- The store when an entry has been written to the active segment. -/
def Wal.logged (o : WalOptions) (w : Wal) (c : Core) (e : Entry) : Wal :=
  { w with
    core := c
    segs := appendLast (entryFrame o.signer w.nextLSN e) w.segs
    nextLSN := w.nextLSN + 1
    log := w.log ++ [e] }

theorem WalOk.segs_logged (h : WalOk o sgs w closed active) (e : Entry) :
    appendLast (entryFrame o.signer w.nextLSN e) w.segs =
      segFiles sgs (w.snapLSN + 1) (closed ++ [active ++ [e]]) := by
  have hlen := h.length_log
  have hlsn : w.nextLSN = w.snapLSN + 1 + closed.flatten.length + active.length := by
    rw [h.next]
    omega
  rw [h.segs, hlsn, ← h.own _ (le_refl _), appendLast_segFiles]

variable {a : CoreAct} {e : Entry} {refOf : Entry → BlobRef} {c : Core} {n k : Nat}

theorem WalOk.entryAt_logged (h : WalOk o sgs w closed active) (he : Readable o.signer w.nextLSN e)
    (c : Core) :
    EntryAt o.signer (w.logged o c e).dir
      (segRef o.signer.isSome e.typ w.activeStart w.activeSize
        (entryFrame o.signer w.nextLSN e).length) e := by
  have hlen := h.length_log
  have hlsn : w.nextLSN = w.snapLSN + 1 + closed.flatten.length + active.length := by
    rw [h.next]
    omega
  refine entryAt_of_frame ?_ rfl he.fits
  rw [h.activeStart_eq, h.activeSize_eq]
  refine loadFrame_of_file (.inl rfl) _ [] ?_ he.lsn_lt he.length
  have hpre : ∀ f ∈ segFiles sgs (w.snapLSN + 1) closed,
      f.id ≠ w.snapLSN + 1 + closed.flatten.length := by
    have hpair := (segFiles_ids sgs (w.snapLSN + 1) h.layout.filled).1
    rw [segFiles_concat, pairwise_append] at hpair
    intro f hf
    exact (hpair.2.2 f hf _ (mem_singleton.mpr rfl)).ne
  have hnone : (segFiles sgs (w.snapLSN + 1) closed).find?
      (fun f => decide (f.id = w.snapLSN + 1 + closed.flatten.length)) = none := by
    refine List.find?_eq_none.mpr fun f hf => ?_
    simpa using hpre f hf
  have hsegs : (w.logged o c e).dir.segs =
      segFiles sgs (w.snapLSN + 1) closed ++
        [⟨w.snapLSN + 1 + closed.flatten.length,
          segData o.signer (w.snapLSN + 1 + closed.flatten.length) (active ++ [e])⟩] := by
    have hconcat := segFiles_concat sgs (w.snapLSN + 1) closed (active ++ [e])
    rw [h.own _ (le_refl _)] at hconcat
    rw [← hconcat]
    exact h.segs_logged e
  unfold Dir.file
  simp only [Bool.false_eq_true, if_false, hsegs, List.find?_append, hnone, Option.none_or,
    List.find?_cons, decide_true, Option.map_some, append_nil, segData_concat, ← hlsn]
  rfl

theorem Layout.Ok.logged {l : Layout} {log : List Entry}
    (h : (⟨l.snap, closed ++ [active]⟩ : Layout).Ok sgs log) (hfair : (empty.replay log).Fair e)
    (hown : sgs (log.length + 1) = sgs (l.base + 1 + closed.flatten.length))
    (hread : Readable (sgs (log.length + 1)) (log.length + 1) e) (hlsn : log.length + 2 < 2 ^ 64) :
    (⟨l.snap, closed ++ [active ++ [e]]⟩ : Layout).Ok sgs (log ++ [e]) := by
  have hbase : ∀ parts, (⟨l.snap, parts⟩ : Layout).base = l.base := fun _ => rfl
  have hle : l.base ≤ log.length := h.base_le
  have hflat : (closed ++ [active]).flatten = log.drop l.base := h.flatten
  have hlen := congrArg List.length hflat
  rw [length_drop] at hlen
  have hparts : (closed ++ [active ++ [e]]).flatten = (closed ++ [active]).flatten ++ [e] := by
    simp
  refine ⟨by simp, filled_concat.mpr (filled_concat.mp h.filled), ?_, ?_, ?_, ?_, ?_, ?_, ?_⟩
  · rw [hbase, length_append]
    omega
  · rw [hbase]
    rw [hparts, hflat, drop_append_of_le_length hle]
  · rw [logReadable_append, Nat.add_comm]
    exact ⟨h.readable, hread, trivial⟩
  · obtain ⟨hclosed, hactive, -⟩ := partsReadable_append.mp h.parts_readable
    have hnext : l.base + 1 + closed.flatten.length + active.length = log.length + 1 := by
      simp only [flatten_append, flatten_cons, flatten_nil, append_nil,
        length_append] at hlen
      omega
    refine partsReadable_append.mpr ⟨hclosed, allReadable_append.mpr ⟨hactive, ?_, trivial⟩,
      trivial⟩
    change Readable (sgs (l.base + 1 + closed.flatten.length))
      (l.base + 1 + closed.flatten.length + active.length) e
    rw [hnext, ← hown]
    exact hread
  · simpa using hlsn
  · rw [fairLog_append]
    exact ⟨h.fair, hfair, trivial⟩
  · intro f hf
    obtain ⟨q, hdata, hsnap, hseq, hreborn⟩ := h.snap f hf
    refine ⟨q, hdata, hsnap, hseq, ?_⟩
    have hid : l.base = f.id := by
      unfold Layout.base
      rw [show l.snap = some f from hf]
      rfl
    rw [take_append_of_le_length (hid ▸ hle)]
    exact hreborn

section

variable (h : WalOk o sgs w closed active)
include h

theorem WalOk.log_entry (hstep : w.core.step o.offload refOf a = some (c, some e))
    (href : refOf e = segRef o.signer.isSome e.typ w.activeStart w.activeSize
      (entryFrame o.signer w.nextLSN e).length)
    (hbusy : o.offload = false → w.comp = none)
    (hsealed : (sealBody o.signer false w.nextLSN e.typ e.body).length ≤ maxEntryBytes)
    (hlsn : w.nextLSN + 1 < 2 ^ 64) :
    WalOk o sgs (w.logged o c e) closed (active ++ [e]) := by
  obtain ⟨hcore, heff⟩ := core_step h.core hstep
  obtain ⟨hattempts, hrequeue⟩ := checked_step hstep
  obtain ⟨q, hshows, hreborn⟩ := h.shown
  have hlen := h.length_log
  have hnext := h.next
  have hseq : q.reborn.seq = (empty.replay w.log).reborn.seq := congrArg Queue.seq hreborn
  change q.seq = (empty.replay w.log).seq at hseq
  have hseqle := h.seq_le
  -- the entry can be read back
  have hbody : e.body.length < 2 ^ 64 := by
    refine lt_of_le_of_lt (le_trans (length_sealBody o.signer false w.nextLSN e.typ e.body)
      hsealed) ?_
    decide
  have hread : Readable o.signer w.nextLSN e := by
    refine ⟨by omega, ⟨hbody, ?_⟩, hsealed⟩
    cases e with
    | append r =>
      obtain ⟨hrseq, hstate⟩ := seq_of_stepEffect heff rfl
      refine ⟨?_, hattempts r rfl, hstate⟩
      rw [hrseq, hshows.seq]
      omega
    | requeue id replace cp =>
      cases replace with
      | false => exact hrequeue id cp rfl
      | true => trivial
    | _ => trivial
  have hkept : Dir.Kept w.dir (w.logged o c e).dir :=
    kept_of_grow (filesGrow_appendLast _ _) (FilesGrow.refl _)
  have hshows' : Shows (Seen o (w.logged o c e).dir w.comp) w.core.m q :=
    hshows.transfer (sight_seen _ _ _) fun it r hr => ⟨hr.1.mono hkept, hr.2⟩
  have hfind : Finds (Seen o (w.logged o c e).dir w.comp) o.offload (refOf e) e e := by
    rw [href]
    refine finds_seen (fun _ => h.entryAt_logged hread c) ?_
    intro k hk
    refine ⟨?_, .inl ⟨rfl, ?_⟩⟩
    · cases hoff : o.offload with
      | true => rfl
      | false =>
        rw [hbusy hoff] at hk
        cases hk
    · have hcomp := h.comp k hk
      have hle : (closed.take k.old).flatten.length ≤ closed.flatten.length :=
        (take_sublist _ _).flatten.length_le
      have hlast := hcomp.last_eq
      change k.last < w.activeStart
      rw [h.activeStart_eq]
      omega
  obtain ⟨hfair, hshows''⟩ := hshows'.logged h.core.indexed heff hfind
  have hfair' : (empty.replay w.log).Fair e := by
    rw [← fair_reborn, ← hreborn, fair_reborn]
    exact hfair
  have hreborn' : (q.apply e).reborn = (empty.replay (w.log ++ [e])).reborn := by
    rw [replay_append, replay_cons, replay_nil, ← reborn_apply rfl e]
    exact reborn_apply hreborn e
  refine ⟨hcore, h.reads, h.own, ?_, ?_, ?_, ⟨_, hshows'', hreborn'⟩, ?_, ?_, ?_, ?_, h.acked⟩
  · have hown := h.own (w.log.length + 1) (by omega)
    refine Layout.Ok.logged (l := ⟨w.snap, []⟩) h.layout hfair'
      (hown.trans (h.own _ (le_refl _)).symm) ?_ (by omega)
    rw [hown, ← hnext]
    exact hread
  · exact h.segs_logged e
  · simp only [Wal.logged, length_append, length_singleton]
    omega
  · intro k
    simp only [Wal.logged]
    by_cases hk : k ≤ w.log.length
    · rw [take_append_of_le_length hk]
      exact h.seqs k
    · rw [take_of_length_le (by rw [length_append, length_singleton]; omega),
        replay_append, replay_cons, replay_nil]
      refine le_trans (seq_apply_le ?_) (by omega)
      intro r hr
      rw [(seq_of_stepEffect heff hr).1, hshows.seq, hseq]
  · intro k hk
    have hcomp := h.comp k hk
    obtain ⟨recs, hcap, hq, hcopied⟩ := hcomp.captured
    have hle : (closed.take k.old).flatten.length ≤ closed.flatten.length :=
      (take_sublist _ _).flatten.length_le
    have hlast := hcomp.last_eq
    refine ⟨hcomp.own, hcomp.old_le, hlast, hcomp.lt, hcomp.kinds, recs,
      hcap.imp fun _ _ hr => hkept.hydrate hr, ?_, hcopied⟩
    simp only [Wal.logged]
    rw [take_append_of_le_length (by omega)]
    exact hq
  · obtain ⟨j, hj, hn, hk⟩ := h.synced
    refine ⟨j, by rw [length_append]; omega, hn, ?_⟩
    rw [take_append_of_le_length hj]
    exact hk
  · intro n k hnk
    obtain ⟨j, hj, hn, hk⟩ := h.flight n k hnk
    refine ⟨j, by rw [length_append]; omega, hn, ?_⟩
    rw [take_append_of_le_length hj]
    exact hk

theorem WalOk.silent (hstep : w.core.step o.offload refOf a = some (c, none)) :
    WalOk o sgs { w with core := c } closed active := by
  obtain ⟨hcore, heff⟩ := core_step h.core hstep
  obtain ⟨q, hshows, hreborn⟩ := h.shown
  exact ⟨hcore, h.reads, h.own, h.layout, h.segs, h.next, ⟨q, heff _ q hshows, hreborn⟩, h.seqs, h.comp,
    h.synced, h.flight, h.acked⟩

theorem WalOk.refused :
    WalOk o sgs { w with core := { w.core with commit := none } } closed active :=
  ⟨coreOk_idle h.core.indexed _, h.reads, h.own, h.layout, h.segs, h.next, h.shown, h.seqs, h.comp,
    h.synced, h.flight, h.acked⟩

theorem WalOk.write (hadmits : w.admits o a)
    (hcore : w.core.step o.offload (w.refOf o) a = some (c, some e))
    (hwait : ¬ (w.rotates o e ∧ w.flight.isSome))
    (hsealed : (sealBody o.signer false w.nextLSN e.typ e.body).length ≤ maxEntryBytes)
    (hlsn : w.nextLSN + 1 < 2 ^ 64) :
    ∃ closed' active', WalOk o sgs { w.write o e with core := c } closed' active' := by
  have hbusy : o.offload = false → w.comp = none := by
    intro hoff
    by_contra hcomp
    exact hadmits (.inr ⟨hoff, Option.isSome_iff_ne_none.mpr hcomp⟩)
  cases hrot : w.rotates o e with
  | false =>
    have hroom : w.room o e = w := by
      unfold Wal.room
      rw [hrot]
      rfl
    have href : w.refOf o e = segRef o.signer.isSome e.typ w.activeStart
        w.activeSize (entryFrame o.signer w.nextLSN e).length := by
      unfold Wal.refOf
      rw [hroom]
    have hlogged := h.log_entry hcore href hbusy hsealed hlsn
    refine ⟨closed, active ++ [e], ?_⟩
    unfold Wal.write
    rw [hroom]
    exact hlogged
  | true =>
    have hroom : w.room o e = w.rotate o := by
      unfold Wal.room
      rw [hrot]
      rfl
    have hflight : w.flight = none := by
      by_contra hne
      exact hwait ⟨hrot, Option.isSome_iff_ne_none.mpr hne⟩
    have hne : active ≠ [] := by
      unfold Wal.rotates at hrot
      simp only [Bool.and_eq_true, decide_eq_true_eq] at hrot
      exact h.active_ne hrot.1
    have hrotated := h.rotate hne hflight
    have href : w.refOf o e = segRef o.signer.isSome e.typ
        (w.rotate o).activeStart (w.rotate o).activeSize
        (entryFrame o.signer (w.rotate o).nextLSN e).length := by
      unfold Wal.refOf
      rw [hroom]
      rfl
    have hlogged := hrotated.log_entry hcore href hbusy hsealed hlsn
    refine ⟨closed ++ [active], [] ++ [e], ?_⟩
    unfold Wal.write
    rw [hroom]
    exact hlogged

end

theorem length_segData_take (sg : Option Signer) (start : Nat) (es : List Entry) {i j : Nat}
    (hij : i ≤ j) :
    (segData sg start (es.take i)).length ≤ (segData sg start (es.take j)).length := by
  have hsplit : es.take j = es.take i ++ (es.take j).drop i := by
    nth_rewrite 1 [← take_append_drop i (es.take j)]
    rw [take_take, min_eq_left hij]
  rw [length_segData, length_segData, hsplit, entryFrames_append, length_append]
  omega

theorem EndsAt.max {sg : Option Signer} {base n' k' : Nat} (h : EndsAt sg base closed active n k)
    (h' : EndsAt sg base closed active n' k') :
    EndsAt sg base closed active (max n n') (max k k') := by
  obtain ⟨i, hi, rfl, rfl⟩ := h
  obtain ⟨j, hj, rfl, rfl⟩ := h'
  have hmono := fun {i j : Nat} => length_segData_take sg (base + 1 + closed.flatten.length)
    active (i := i) (j := j)
  rcases Nat.le_total i j with hij | hij
  · exact ⟨j, hj, by omega, max_eq_right (hmono hij)⟩
  · exact ⟨i, hi, by omega, max_eq_left (hmono hij)⟩

theorem WalOk.syncStart (h : WalOk o sgs w closed active) :
    WalOk o sgs { w with flight := some (w.log.length, w.activeSize) } closed active := by
  refine ⟨h.core, h.reads, h.own, h.layout, h.segs, h.next, h.shown, h.seqs, h.comp, h.synced, ?_, h.acked⟩
  intro n k hnk
  cases hnk
  refine ⟨active.length, le_refl _, h.length_log.symm, ?_⟩
  rw [take_length]
  exact h.activeSize_eq

theorem WalOk.syncDone (h : WalOk o sgs w closed active) (hflight : w.flight = some (n, k)) :
    WalOk o sgs { w with durable := max w.durable n, synced := max w.synced k, flight := none }
      closed active := by
  refine ⟨h.core, h.reads, h.own, h.layout, h.segs, h.next, h.shown, h.seqs, h.comp,
    h.synced.max (h.flight n k hflight), ?_, ?_⟩
  · intro n k hnk
    cases hnk
  · intro i hi
    exact le_trans (h.acked i hi) (le_max_left _ _)

theorem WalOk.finish (h : WalOk o sgs w closed active) {lsn : Nat} (hle : lsn ≤ w.durable) :
    WalOk o sgs { w with acked := lsn :: w.acked } closed active := by
  refine ⟨h.core, h.reads, h.own, h.layout, h.segs, h.next, h.shown, h.seqs, h.comp, h.synced, h.flight, ?_⟩
  intro n hn
  rcases mem_cons.mp hn with rfl | hn
  · exact hle
  · exact h.acked n hn

end Steps

end Dlq
end GoGuard
