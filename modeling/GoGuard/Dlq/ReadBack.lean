import GoGuard.Dlq.CrashRecovery

/-!
# What a store writes it reads back

Every frame in the files of a store is read, opened and decoded, the directory can
be opened, and every live record is found through its references with the payload
that was last stored for it, as long as every step is sound: `logLocked` checks the
size of an entry before it is sealed, and a snapshot is not checked at all, neither
the size of its records nor the range of their attempts.
-/

namespace GoGuard
namespace Dlq

open Lib Machine Queue List

section Frames

variable {sg : Option Signer}

/-- The frame is opened and decoded under the options it was written with. -/
def Decodes (sg : Option Signer) (fr : Frame) : Prop :=
  ∃ body e, openBody sg sg.isSome false fr.lsn fr.typ fr.body = .ok body ∧
    decodeEntry fr.typ body = some e

theorem decodes_framesOf {lsn : Nat} {es : List Entry} (h : AllReadable sg lsn es) :
    ∀ fr ∈ framesOf sg lsn es, Decodes sg fr := by
  induction es generalizing lsn with
  | nil => exact fun fr hfr => nomatch hfr
  | cons e es ih =>
    intro fr hfr
    rcases mem_cons.mp hfr with rfl | hfr
    · exact ⟨e.body, e.stored, openBody_sealBody sg false lsn e.typ e.body,
        decodeEntry_body h.1.fits⟩
    · exact ih h.2 fr hfr

theorem decodes_segFiles {start : Nat} {parts : List (List Entry)}
    (h : PartsReadable (fun _ => sg) start parts) :
    ∀ f ∈ segFiles (fun _ => sg) start parts, (frames (f.data.drop headerSize)).2 = .eof ∧
      ∀ fr ∈ (frames (f.data.drop headerSize)).1, Decodes sg fr := by
  induction parts generalizing start with
  | nil => exact fun f hf => nomatch hf
  | cons es parts ih =>
    obtain ⟨hes, hparts⟩ := h
    intro f hf
    rcases mem_cons.mp hf with rfl | hf
    · have hframes := frames_entryFrames hes []
      rw [append_nil] at hframes
      have hdrop : (segData sg start es).drop headerSize = entryFrames sg start es := by
        rw [segData, ← length_segHeader sg start, drop_left]
      simp only [hdrop, hframes]
      refine ⟨rfl, fun fr hfr => ?_⟩
      rcases mem_append.mp hfr with hfr | hfr
      · exact decodes_framesOf hes fr hfr
      · cases hfr
    · exact ih hparts f hf

end Frames

section Files

variable {o : WalOptions} {sgs : Signing} {w : Wal} {closed : List (List Entry)}
variable {active : List Entry}

variable {sg : Option Signer} {d : Dir} {ref : BlobRef} {id : Bytes} {r : Record} {it : Item}

theorem loadFrame_listed {body : Bytes} (h : loadFrame sg d ref = some body) :
    ∃ f ∈ (if ref.snap then d.snaps else d.segs), f.id = ref.file := by
  unfold loadFrame readAt at h
  cases hfile : d.file ref.snap ref.file with
  | none =>
    rw [hfile] at h
    cases h
  | some data =>
    obtain ⟨f, hf, -⟩ := Option.map_eq_some_iff.mp hfile
    exact ⟨f, mem_of_find?_eq_some hf, by simpa using List.find?_some hf⟩

theorem loadRecord_listed (h : loadRecord sg d ref id = some r) :
    ∃ f ∈ (if ref.snap then d.snaps else d.segs), f.id = ref.file := by
  unfold loadRecord at h
  split at h
  · cases h
  · next hload => exact loadFrame_listed hload

theorem loadCheckpoint_listed {cp : Option Bytes} (h : loadCheckpoint sg d ref id = some cp) :
    ∃ f ∈ (if ref.snap then d.snaps else d.segs), f.id = ref.file := by
  unfold loadCheckpoint at h
  split at h
  · obtain ⟨r, hr, -⟩ := Option.map_eq_some_iff.mp h
    exact loadRecord_listed hr
  · obtain ⟨-, h⟩ := of_when h
    split at h
    · cases h
    · next hload => exact loadFrame_listed hload

theorem Sees.listed (h : Sees sg true d it r) :
    (∃ f ∈ (if it.bodyRef.snap then d.snaps else d.segs), f.id = it.bodyRef.file) ∧
      (it.ckptRef.valid = true →
        ∃ f ∈ (if it.ckptRef.snap then d.snaps else d.segs), f.id = it.ckptRef.file) := by
  obtain ⟨full, cp, hfull, hcp, -⟩ := (hydrate_disk (h.disk rfl)).mp h.read
  refine ⟨loadRecord_listed hfull, fun hvalid => ?_⟩
  unfold checkpointOf at hcp
  rw [if_pos hvalid] at hcp
  exact loadCheckpoint_listed hcp

theorem WalOk.snapshots_load (h : WalOk o sgs w closed active) :
    (∀ f, w.snap = some f → ∃ m, loadSnapshot o f = .ok m) ∧
      ∀ c f refs, w.comp = some c → c.copied = some (f, refs) → ∃ m, loadSnapshot o f = .ok m := by
  refine ⟨?_, ?_⟩
  · intro f hf
    obtain ⟨m, -, hload, -⟩ := h.layout.load h.reads []
    simp only [hf] at hload
    exact ⟨m, hload⟩
  · intro c f refs hcomp hcopied
    obtain ⟨hid, hlayout⟩ := h.compacted hcomp hcopied
    have hreads : ∀ n, f.id < n → o.Reads (sgs n) :=
      fun n hn => .inl ((h.comp c hcomp).own n (hid ▸ hn))
    obtain ⟨m, -, hload, -⟩ := hlayout.load hreads []
    exact ⟨m, hload⟩

theorem WalOk.sees (h : WalOk o sgs w closed active) (hit : w.core.m.items.get id = some it) :
    ∃ r r₀, Sees o.signer o.offload w.dir it r ∧ r₀ ∈ (empty.replay w.log).recs ∧ r₀.id = id ∧
      r.payload = r₀.payload := by
  obtain ⟨q, hshows, hreborn⟩ := h.shown
  obtain ⟨r, hr, hseen⟩ := hshows.record h.core.indexed (h.core.indexed.get_ptr hit)
  have hmem : r.reborn ∈ (empty.replay w.log).reborn.recs := by
    rw [← hreborn]
    exact mem_map_of_mem hr
  obtain ⟨r₀, hr₀, heq⟩ := mem_map.mp hmem
  refine ⟨r, r₀, hseen.1, hr₀, ?_, ?_⟩
  · have hid : r₀.reborn.id = r.reborn.id := congrArg Record.id heq
    change r₀.id = r.id at hid
    rw [hid, (hshows.sight.same hseen).1]
    exact (h.core.indexed.live id it hit).1
  · have hpay : r₀.reborn.payload = r.reborn.payload := congrArg Record.payload heq
    exact hpay.symm

end Files

section Results

/-- Everything a store has written it can read back: the frames of its segments, its
snapshots, the whole directory, also when a compaction is interrupted, and every
live record. -/
theorem written_is_read_back (o : WalOptions) (acts : List WalAct) (w : Wal)
    (hsound : RunAll (Wal.step o) (Wal.Sound o) (.new o) acts)
    (hrun : run (Wal.step o) (.new o) acts = some w) :
    (∀ f ∈ w.segs, (frames (f.data.drop headerSize)).2 = .eof ∧
        ∀ fr ∈ (frames (f.data.drop headerSize)).1, Decodes o.signer fr) ∧
      (∀ f, w.snap = some f → ∃ m, loadSnapshot o f = .ok m) ∧
        (∀ c f refs, w.comp = some c → c.copied = some (f, refs) →
          ∃ m, loadSnapshot o f = .ok m) ∧
          (∃ x, recover o w.dir = .ok x) ∧
            (∀ c : Crash, c.fits w = true → w.activeSize ≤ c.cut →
              ∃ x, recover o (w.left o c) = .ok x) ∧
              ∀ id it, w.core.m.items.get id = some it →
                ∃ r, hydrate o.signer w.dir it = some r := by
  obtain ⟨closed, active, h⟩ := walOk_run hsound hrun
  obtain ⟨hsnap, hcopied⟩ := h.snapshots_load
  refine ⟨?_, hsnap, hcopied, ?_, ?_, ?_⟩
  · rw [h.segs]
    exact decodes_segFiles h.layout.parts_readable
  · obtain ⟨x, hx, -⟩ := h.recover_dir
    exact ⟨x, hx⟩
  · intro c hfits hcut
    obtain ⟨snap', closed', m, -, -, -, hok, -⟩ := h.recover_left hfits
    refine ⟨_, hok ?_⟩
    rw [(h.whole_all hcut).2]
    rfl
  · intro id it hit
    obtain ⟨r, -, hsees, -⟩ := h.sees hit
    exact ⟨r, hsees.read⟩

/-- A record is leased, and a compaction runs to its end. -/
def compactedWhole (r : Record) : List WalAct :=
  compactedOnce r ++ [.swap]

theorem compactedWhole_sound : RunAll (Wal.step plainOptions) (Wal.Sound plainOptions)
    (.new plainOptions) (compactedWhole (plainRecord "a" (str "v"))) := by
  decide +kernel

theorem written_is_read_back_demo :
    ∃ w, run (Wal.step plainOptions) (.new plainOptions)
        (compactedWhole (plainRecord "a" (str "v"))) = some w ∧
      w.snap.isSome = true ∧ w.core.m.liveItems.length = 1 ∧
        (∃ x, recover plainOptions w.dir = .ok x) ∧
          ∀ id it, w.core.m.items.get id = some it → ∃ r, hydrate none w.dir it = some r := by
  obtain ⟨w, hw, hsnap, hlive⟩ : ∃ w, run (Wal.step plainOptions) (.new plainOptions)
      (compactedWhole (plainRecord "a" (str "v"))) = some w ∧
        w.snap.isSome = true ∧ w.core.m.liveItems.length = 1 := by
    decide +kernel
  obtain ⟨-, -, -, hopen, -, hread⟩ :=
    written_is_read_back plainOptions _ w compactedWhole_sound hw
  exact ⟨w, hw, hsnap, hlive, hopen, hread⟩

/-- The record was appended with as many attempts as can be counted, leased and
compacted: the store it is in cannot be opened again. -/
theorem wrapped_attempts_not_reopened :
    ∃ w, run (Wal.step plainOptions) (.new plainOptions) (compactedWhole wornRecord) = some w ∧
      ∃ e, recover plainOptions w.dir = .error e := by
  decide +kernel

/-- Every live record of a store that keeps payloads on disk is read through its
references, from files that are listed, and has the payload that was last stored for
it. -/
theorem references_lead_to_payloads (o : WalOptions) (hdisk : o.offload = true)
    (acts : List WalAct) (w : Wal) (hsound : RunAll (Wal.step o) (Wal.Sound o) (.new o) acts)
    (hrun : run (Wal.step o) (.new o) acts = some w) (id : Bytes) (it : Item)
    (hit : w.core.m.items.get id = some it) :
    (∃ f ∈ (if it.bodyRef.snap then w.snap.toList else w.segs), f.id = it.bodyRef.file) ∧
      (it.ckptRef.valid = true →
        ∃ f ∈ (if it.ckptRef.snap then w.snap.toList else w.segs), f.id = it.ckptRef.file) ∧
        ∃ r r₀, hydrate o.signer w.dir it = some r ∧ r₀ ∈ (empty.replay w.log).recs ∧
          r₀.id = id ∧ r.payload = r₀.payload := by
  obtain ⟨closed, active, h⟩ := walOk_run hsound hrun
  obtain ⟨r, r₀, hsees, hr₀, hid, hpay⟩ := h.sees hit
  have hread := hsees.read
  rw [hdisk] at hsees
  obtain ⟨hbody, hckpt⟩ := hsees.listed
  exact ⟨hbody, hckpt, r, r₀, hread, hr₀, hid, hpay⟩

theorem references_lead_to_payloads_demo :
    ∃ w it, run (Wal.step plainOptions) (.new plainOptions)
        (compactedWhole (plainRecord "a" (str "v"))) = some w ∧
      w.core.m.items.get (str "a") = some it ∧ it.bodyRef.snap = true ∧
        ∃ r r₀, hydrate none w.dir it = some r ∧ r₀ ∈ (empty.replay w.log).recs ∧
          r₀.id = str "a" ∧ r.payload = r₀.payload := by
  obtain ⟨w, it, hw, hit, hsnap⟩ : ∃ w it, run (Wal.step plainOptions) (.new plainOptions)
      (compactedWhole (plainRecord "a" (str "v"))) = some w ∧
        w.core.m.items.get (str "a") = some it ∧ it.bodyRef.snap = true := by
    decide +kernel
  obtain ⟨-, -, hread⟩ :=
    references_lead_to_payloads plainOptions rfl _ w compactedWhole_sound hw (str "a") it hit
  exact ⟨w, it, hw, hit, hsnap, hread⟩

/-- The record was appended with as many attempts as can be counted, leased and
compacted: its reference leads to a frame that cannot be read back. -/
theorem wrapped_attempts_unreadable :
    ∃ w it, run (Wal.step plainOptions) (.new plainOptions)
        (compactedWhole wornRecord) = some w ∧
      w.core.m.items.get (str "a") = some it ∧ hydrate none w.dir it = none := by
  decide +kernel

end Results

end Dlq
end GoGuard
