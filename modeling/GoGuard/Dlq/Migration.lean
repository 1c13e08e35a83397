import GoGuard.Dlq.ReadBack
import GoGuard.Dlq.Refusal

/-!
# Moving an unsigned log to signing

A store with a signer that accepts unsigned files opens whatever a store without one
opens, with the same machine, and begins a signed segment behind it
(`recover_migrating`).  From there on the log has unsigned files before an LSN and
signed ones behind it, and every step keeps the invariant of a store with its log
(`WalOk.migrate`): the unsigned files are never written to again, and a compaction
removes the last of them.

The new segment is named after the next LSN, and so is the last segment of a log that
holds no entry.
-/

namespace GoGuard
namespace Dlq

open Lib Machine Queue List

section Opening

variable {o : WalOptions} (sg : Signer)

/-- The options with which an unsigned log is moved to signing. -/
def WalOptions.migrating (o : WalOptions) (sg : Signer) : WalOptions :=
  { o with signer := some sg, acceptUnsignedLegacy := true }

theorem checkFileFlags_migrating {accept signed : Bool} {flags : Nat}
    (h : checkFileFlags none accept flags = .ok signed) :
    signed = false ∧ checkFileFlags (some sg) true flags = .ok false := by
  unfold checkFileFlags at h ⊢
  by_cases hodd : flags % 2 = 1
  · simp [hodd] at h
  · simp only [hodd, if_false, Option.isSome_none, Bool.false_eq_true, false_and] at h ⊢
    cases h
    exact ⟨rfl, by simp⟩

variable {base : Nat} {f : File} {m : Machine} {s : Segments} {snaps : List File} {x : Opened}
  {d : Dir}

theorem replaySegment_migrating (hplain : o.signer = none)
    {next : Nat} {isLast : Bool} {r : Replayed} (h : replaySegment o base f m next isLast = .ok r) :
    replaySegment (o.migrating sg) base f m next isLast = .ok r ∧
      ∀ s signed, r = .kept s signed → signed = false := by
  cases hheader : decodeHeaderFlags (f.data.take headerSize) walMagic with
  | error e =>
    simp only [replaySegment, hheader] at h ⊢
    refine ⟨h, ?_⟩
    rintro s signed rfl
    split at h <;> cases h
  | ok x =>
    obtain ⟨start, flags⟩ := x
    cases hflags : checkFileFlags o.signer o.acceptUnsignedLegacy flags with
    | error e =>
      simp only [replaySegment, hheader, hflags] at h
      split at h
      · cases h
      · split at h <;> cases h
    | ok signed =>
      rw [hplain] at hflags
      obtain ⟨rfl, hflags'⟩ := checkFileFlags_migrating sg hflags
      -- without signatures the two stores replay the same frames
      have hsame : replaySegment (o.migrating sg) base f m next isLast =
          replaySegment o base f m next isLast := by
        have hopened : checkFileFlags (o.migrating sg).signer
            (o.migrating sg).acceptUnsignedLegacy flags = .ok false := hflags'
        simp only [replaySegment, hheader, hopened, hplain, hflags]
        rfl
      refine ⟨hsame.trans h, ?_⟩
      rintro s signed rfl
      simp only [replaySegment, hheader, hplain, hflags] at h
      obtain ⟨-, h⟩ := of_unless h
      obtain ⟨-, h⟩ := of_unless h
      split at h
      · cases h
      · split at h
        · cases h
          rfl
        · obtain ⟨-, h⟩ := of_unless h
          split at h
          · cases h
          · cases h
            rfl

theorem replaySegments_migrating (hplain : o.signer = none) {fs : List File} {t : Segments}
    (hunsigned : s.signed = false) (h : replaySegments o base s fs = .ok t) :
    replaySegments (o.migrating sg) base s fs = .ok t ∧ t.signed = false := by
  induction fs generalizing s with
  | nil =>
    cases h
    exact ⟨rfl, hunsigned⟩
  | cons f fs ih =>
    cases hone : replaySegment o base f s.m s.next (fs = []) with
    | error e =>
      simp only [replaySegments, hone] at h
      cases h
    | ok r =>
      obtain ⟨hone', hkept⟩ := replaySegment_migrating sg hplain hone
      cases r with
      | setAside =>
        simp only [replaySegments, hone, hone'] at h ⊢
        cases h
        exact ⟨rfl, hunsigned⟩
      | kept r signed =>
        obtain rfl := hkept r signed rfl
        simp only [replaySegments, hone, hone'] at h ⊢
        exact ih rfl h

theorem loadFrames_migrating {lsn size : Nat} {fin : FrameError} {s : Loading} {frs : List Frame} :
    loadFrames (o.migrating sg) false lsn size fin s frs =
      loadFrames o false lsn size fin s frs := by
  induction frs generalizing s with
  | nil => rfl
  | cons fr frs ih =>
    have hopen : ∀ sg', openBody sg' false true lsn fr.typ fr.body = .ok fr.body :=
      fun _ => rfl
    have hoff : (o.migrating sg).offload = o.offload := rfl
    simp only [loadFrames, hopen, hoff, ih]

theorem loadSnapshot_migrating (hplain : o.signer = none) (h : loadSnapshot o f = .ok m) :
    loadSnapshot (o.migrating sg) f = .ok m := by
  cases hheader : decodeHeaderFlags (f.data.take headerSize) snapMagic with
  | error e =>
    simp only [loadSnapshot, hheader] at h
    cases h
  | ok x =>
    obtain ⟨got, flags⟩ := x
    cases hflags : checkFileFlags o.signer o.acceptUnsignedLegacy flags with
    | error e =>
      simp only [loadSnapshot, hheader, hflags] at h
      split at h <;> cases h
    | ok signed =>
      rw [hplain] at hflags
      obtain ⟨rfl, hflags'⟩ := checkFileFlags_migrating sg hflags
      have hopened : checkFileFlags (o.migrating sg).signer
          (o.migrating sg).acceptUnsignedLegacy flags = .ok false := hflags'
      simp only [loadSnapshot, hheader, hplain, hflags, hopened, loadFrames_migrating] at h ⊢
      exact h

/-- The directory of a log that was moved to signing: a new segment, behind the
files as they were. -/
def Opened.migrated (x : Opened) (o : WalOptions) : Opened :=
  { x with dir := { x.dir with segs := x.dir.segs ++ [newSegment o x.nextLSN] } }

theorem openActive_migrating (hplain : o.signer = none) {aside : List Bytes}
    (hunsigned : s.signed = false) (h : openActive o base snaps aside s = .ok x)
    (hfilled : ∀ f ∈ x.dir.segs, f.id ≠ x.nextLSN) :
    openActive (o.migrating sg) base snaps aside s = .ok (x.migrated (o.migrating sg)) := by
  have hnot : ¬ (s.files = [] ∨ o.signer.isSome = true ∧ s.signed = false) := by
    rintro (hnil | ⟨hsome, -⟩)
    · simp only [openActive, hnil, true_or, if_true, any_nil, Bool.false_eq_true, if_false,
        nil_append] at h
      cases h
      exact hfilled _ (mem_singleton.mpr rfl) rfl
    · rw [hplain] at hsome
      cases hsome
  simp only [openActive, hnot, if_false] at h
  cases h
  have hfree : s.files.any (fun f => decide (f.id = s.next)) = false := by
    refine any_eq_false.mpr fun f hf => ?_
    simpa using hfilled f hf
  have hfresh : s.files = [] ∨ (o.migrating sg).signer.isSome = true ∧ s.signed = false :=
    .inr ⟨rfl, hunsigned⟩
  simp only [openActive, hfresh, if_true, hfree, Bool.false_eq_true, if_false]
  rfl

theorem recoverFrom_migrating (hplain : o.signer = none) (h : recoverFrom o m base d snaps = .ok x)
    (hfilled : ∀ f ∈ x.dir.segs, f.id ≠ x.nextLSN) :
    recoverFrom (o.migrating sg) m base d snaps = .ok (x.migrated (o.migrating sg)) := by
  cases hreplay : replaySegments o base ⟨m, base + 1, [], false, []⟩
      (dropCovered (base + 1) (sorted d.segs)) with
  | error e =>
    simp only [recoverFrom, hreplay] at h
    cases h
  | ok s =>
    obtain ⟨hreplay', hunsigned⟩ := replaySegments_migrating sg hplain rfl hreplay
    simp only [recoverFrom, hreplay, hreplay'] at h ⊢
    exact openActive_migrating sg hplain hunsigned h hfilled

/-- Whatever a store without a signer opens, one that moves to signing opens with the
same machine, if no segment begins at the next LSN: a new segment is begun there. -/
theorem recover_migrating (hplain : o.signer = none) (h : recover o d = .ok x)
    (hfilled : ∀ f ∈ x.dir.segs, f.id ≠ x.nextLSN) :
    recover (o.migrating sg) d = .ok (x.migrated (o.migrating sg)) := by
  unfold recover at h ⊢
  cases hlast : (sorted d.snaps).getLast? with
  | none =>
    rw [hlast] at h
    exact recoverFrom_migrating sg hplain h hfilled
  | some f =>
    rw [hlast] at h
    simp only at h ⊢
    cases hload : loadSnapshot o f with
    | error e =>
      rw [hload] at h
      cases h
    | ok m =>
      simp only [hload] at h
      rw [loadSnapshot_migrating sg hplain hload]
      exact recoverFrom_migrating sg hplain h hfilled

end Opening

section Migrating

variable {o : WalOptions} {sg : Signer} {closed : List (List Entry)} {active : List Entry}

/-- What is written from this LSN on is signed. -/
def signedFrom (sg : Signer) (k : Nat) : Signing :=
  fun n => if n < k then none else some sg

theorem signedFrom_of_lt {k n : Nat} (h : n < k) : signedFrom sg k n = none :=
  if_pos h

theorem signedFrom_of_le {k n : Nat} (h : k ≤ n) : signedFrom sg k n = some sg :=
  if_neg (not_lt.mpr h)

theorem framesKept_signer (d : Dir) (sg' : Option Signer) : FramesKept none d sg' d := by
  intro ref body hload
  simp only [loadFrame] at hload ⊢
  cases hread : readAt d ref.snap ref.file ref.off ref.n with
  | none =>
    rw [hread] at hload
    cases hload
  | some bs =>
    rw [hread] at hload
    simp only at hload ⊢
    cases hsigned : ref.signed with
    | false =>
      rw [hsigned] at hload
      exact hload
    | true =>
      rw [hsigned] at hload
      split at hload
      · cases hload
      · split at hload <;> cases hload

theorem Layout.Ok.migrate {snap : Option File} {log : List Entry} (hplain : o.signer = none)
    (h : (⟨snap, closed ++ [active]⟩ : Layout).Ok o.signing log) (hne : active ≠ []) :
    (⟨snap, closed ++ [active] ++ [[]]⟩ : Layout).Ok (signedFrom sg (log.length + 1)) log := by
  have hlen : (⟨snap, []⟩ : Layout).base + closed.flatten.length + active.length =
      log.length := by
    have hflat := congrArg List.length h.flatten
    have hle : (⟨snap, []⟩ : Layout).base ≤ log.length := h.base_le
    simp only [flatten_append, flatten_cons, flatten_nil, append_nil,
      length_append, length_drop] at hflat
    change _ = log.length - (⟨snap, []⟩ : Layout).base at hflat
    omega
  have hpos := length_pos_iff.mpr hne
  have hsame : ∀ n, n < log.length + 1 → o.signing n = signedFrom sg (log.length + 1) n := by
    intro n hn
    rw [signedFrom_of_lt hn]
    exact hplain
  have hlast : (closed ++ [active]).dropLast.flatten.length = closed.flatten.length := by simp
  refine ⟨by simp, ?_, h.base_le, ?_, ?_, ?_, h.lsn_lt, h.fair, ?_⟩
  · rw [filled_concat]
    intro part hpart
    rcases mem_append.mp hpart with hpart | hpart
    · exact filled_concat.mp h.filled part hpart
    · rw [mem_singleton.mp hpart]
      exact hne
  · have hflat : (closed ++ [active]).flatten = log.drop (⟨snap, []⟩ : Layout).base := h.flatten
    change (closed ++ [active] ++ [[]]).flatten = log.drop (⟨snap, []⟩ : Layout).base
    rw [← hflat]
    simp
  · exact logReadable_congr (fun n _ hn => hsame n (by omega)) h.readable
  · refine partsReadable_append.mpr ⟨?_, trivial, trivial⟩
    refine (segFiles_congr fun n _ hn => hsame n ?_).2.mp h.parts_readable
    change n ≤ (⟨snap, []⟩ : Layout).base + 1 + _ at hn
    omega
  · intro f hf
    obtain ⟨q, hdata, hsnap, hrest⟩ := h.snap f hf
    have hid : (⟨snap, []⟩ : Layout).base = f.id := by
      rw [show snap = some f from hf]
      rfl
    have hsg := hsame (f.id + 1) (by omega)
    rw [hsg] at hdata hsnap
    exact ⟨q, hdata, hsnap, hrest⟩

/-- A store that was opened without a signer holds the same queue when it is opened
again to sign. -/
theorem WalOk.migrate {x : Opened} {log : List Entry} {acked : List Nat} (hplain : o.signer = none)
    (h : WalOk o o.signing (.opened x log acked) closed active) (hne : active ≠ []) :
    WalOk (o.migrating sg) (signedFrom sg x.nextLSN)
      (.opened (x.migrated (o.migrating sg)) log acked) (closed ++ [active]) [] := by
  have hlen : (Wal.opened x log acked).snapLSN + closed.flatten.length + active.length =
      log.length := h.length_log
  have hnext : x.nextLSN = log.length + 1 := h.next
  have hflat : (closed ++ [active]).flatten.length = closed.flatten.length + active.length := by
    simp
  have hpos := length_pos_iff.mpr hne
  have hsegs : x.dir.segs = segFiles o.signing ((Wal.opened x log acked).snapLSN + 1)
      (closed ++ [active]) := h.segs
  have hlast : (closed ++ [active]).dropLast.flatten.length = closed.flatten.length := by simp
  have hfiles : segFiles o.signing ((Wal.opened x log acked).snapLSN + 1) (closed ++ [active]) =
      segFiles (signedFrom sg x.nextLSN) ((Wal.opened x log acked).snapLSN + 1)
        (closed ++ [active]) := by
    refine (segFiles_congr fun n _ hn => ?_).1
    rw [signedFrom_of_lt (by omega)]
    exact hplain
  have hown : ∀ n, (Wal.opened x log acked).snapLSN + 1 + (closed ++ [active]).flatten.length ≤ n →
      signedFrom sg x.nextLSN n = some sg := fun n hn => signedFrom_of_le (by omega)
  refine ⟨h.core, ?_, hown, ?_, ?_, h.next, ?_, h.seqs, ?_, ?_, ?_, h.acked⟩
  · intro n _
    by_cases hn : n < x.nextLSN
    · exact .inr ⟨signedFrom_of_lt hn, rfl⟩
    · exact .inl (signedFrom_of_le (not_lt.mp hn))
  · rw [hnext]
    exact Layout.Ok.migrate hplain h.layout hne
  · change x.dir.segs ++ [newSegment (o.migrating sg) x.nextLSN] =
      segFiles (signedFrom sg x.nextLSN) ((Wal.opened x log acked).snapLSN + 1)
        (closed ++ [active] ++ [[]])
    have hstart : x.nextLSN = (Wal.opened x log acked).snapLSN + 1 +
        (closed ++ [active]).flatten.length := by omega
    rw [segFiles_concat, ← hfiles, ← hsegs, ← hstart, signedFrom_of_le (le_refl _), newSegment,
      segData, entryFrames, append_nil]
    rfl
  · obtain ⟨q, hshows, hreborn⟩ := h.shown
    refine ⟨q, hshows.transfer (sight_seen _ _ _) ?_, hreborn⟩
    rintro it r ⟨hsees, -⟩
    refine ⟨?_, by rintro c ⟨⟩⟩
    rw [hplain] at hsees
    have hkept : Dir.Kept (Wal.opened x log acked).dir
        (Wal.opened (x.migrated (o.migrating sg)) log acked).dir :=
      kept_of_grow (filesGrow_append _ _) (FilesGrow.refl _)
    exact (hsees.transfer (framesKept_signer _ (some sg))).mono hkept
  · rintro c ⟨⟩
  · refine ⟨0, le_refl _, ?_, ?_⟩
    · change log.length = (Wal.opened x log acked).snapLSN + (closed ++ [active]).flatten.length + 0
      omega
    · have hsize : (Wal.opened (x.migrated (o.migrating sg)) log acked).synced =
          (newSegment (o.migrating sg) x.nextLSN).data.length := by
        simp [Wal.opened, Opened.migrated]
      rw [hsize, newSegment, length_segHeader, take_nil, length_segData]
      rfl
  · rintro n k ⟨⟩

end Migrating

section Files

variable {o : WalOptions} {sgs : Signing} {w w' : Wal} {closed : List (List Entry)}
variable {active : List Entry} {a : WalAct}

/-- The header of a segment says that it is signed. -/
def File.signed (f : File) : Bool :=
  match decodeHeaderFlags (f.data.take headerSize) walMagic with
  | .ok (_, flags) => flags % 2 = 1
  | .error _ => false

theorem signed_segFiles {start : Nat} {parts : List (List Entry)} {f : File}
    (hf : f ∈ segFiles sgs start parts) (hid : f.id < 2 ^ 64) : f.signed = (sgs f.id).isSome := by
  obtain ⟨es, hdata⟩ := mem_segFiles hf
  have htake := take_segData (sgs f.id) f.id es []
  rw [append_nil] at htake
  have hheader := decodeHeaderFlags_encode length_walMagic hid (fileFlags_le (sgs f.id))
  unfold File.signed
  rw [hdata, htake, hheader]
  cases sgs f.id <;> rfl

theorem WalOk.step_segs (h : WalOk o sgs w closed active) (hstep : w.step o a = some w') :
    ∀ f ∈ w'.segs, f ∈ w.segs ∨ w.activeStart ≤ f.id := by
  have hnext : w.activeStart ≤ w.nextLSN := by
    rw [h.next_eq]
    exact Nat.le_add_right _ _
  have hrotate : ∀ f ∈ (w.rotate o).segs, f ∈ w.segs ∨ w.activeStart ≤ f.id := by
    intro f hf
    rcases mem_append.mp hf with hf | hf
    · exact .inl hf
    · rw [mem_singleton.mp hf]
      exact .inr hnext
  have hrotated := Wal.rotated (P := fun v => ∀ f ∈ v.segs, f ∈ w.segs ∨ w.activeStart ≤ f.id)
    hrotate fun f hf => .inl hf
  have hlast : ∀ g, w.segs.getLast? = some g → w.activeStart ≤ g.id := by
    intro g hg
    unfold Wal.activeStart
    rw [hg]
    exact le_refl _
  cases Wal.turn_of_step hstep with
  | @logged _ _ e =>
    intro f hf
    have hroomlast : ∀ g, (w.room o e).segs.getLast? = some g → w.activeStart ≤ g.id := by
      refine (Wal.rotated (o := o) (P := fun v => ∀ g, v.segs.getLast? = some g →
        w.activeStart ≤ g.id) ?_ hlast).2 e
      intro g hg
      have hseg : some (newSegment o w.nextLSN) = some g := by
        rw [← hg]
        simp [Wal.rotate]
      cases hseg
      exact hnext
    rcases mem_appendLast hf with hf | ⟨g, hg, hid⟩
    · exact hrotated.2 e f hf
    · exact .inr (hid ▸ hroomlast g hg)
  | captured => exact hrotated.1
  | @copied c =>
    obtain ⟨comp, hcopy⟩ := w.copy_eq o c
    rw [hcopy]
    exact fun f hf => .inl hf
  | swapped => exact fun f hf => .inl (mem_of_mem_drop hf)
  | reopened hposs hrecover =>
    obtain ⟨hfits, -⟩ := Crash.fits_of_possible h hposs
    obtain ⟨snap', closed', m, -, hfound, -, rfl⟩ := h.recover_left_ok hfits hrecover
    intro f hf
    change f ∈ segFiles sgs _ _ at hf
    rw [segFiles_concat] at hf
    rcases mem_append.mp hf with hf | hf
    · exact .inl (hfound.kept f hf)
    · rw [mem_singleton.mp hf]
      exact .inr hfound.start.le
  | _ => exact fun f hf => .inl hf

theorem WalOk.step_snapLSN (h : WalOk o sgs w closed active) (hstep : w.step o a = some w') :
    w.snapLSN ≤ w'.snapLSN := by
  have hrotated := Wal.rotated (o := o) (P := fun v => w.snapLSN ≤ v.snapLSN) le_rfl le_rfl
  cases Wal.turn_of_step hstep with
  | @logged _ _ e => exact hrotated.2 e
  | captured => exact hrotated.1
  | @copied c =>
    obtain ⟨comp, hcopy⟩ := w.copy_eq o c
    rw [hcopy]
    exact le_rfl
  | @swapped c f refs hcomp hcopied =>
    have hid : (w.swap o c f refs).snapLSN = c.last := (h.compacted hcomp hcopied).1
    rw [hid]
    exact (h.comp c hcomp).lt.le
  | reopened hposs hrecover =>
    obtain ⟨hfits, -⟩ := Crash.fits_of_possible h hposs
    obtain ⟨snap', closed', m, -, hfound, -, rfl⟩ := h.recover_left_ok hfits hrecover
    have hsnap : snap'.toList.head? = snap' := by cases snap' <;> rfl
    refine le_trans hfound.newer (le_of_eq ?_)
    simp only [Wal.snapLSN, Wal.opened, openedLog, hsnap]
    rfl
  | _ => exact le_refl _

/-- With the last unsigned file gone the store need not accept unsigned ones. -/
theorem WalOk.strict (h : WalOk o sgs w closed active)
    (hclean : ∀ n, w.snapLSN < n → sgs n = o.signer) :
    WalOk { o with acceptUnsignedLegacy := false } sgs w closed active where
  core := h.core
  reads n hn := .inl (hclean n hn)
  own := h.own
  layout := h.layout
  segs := h.segs
  next := h.next
  shown := h.shown
  seqs := h.seqs
  comp c hc := by
    have hcomp := h.comp c hc
    exact ⟨hcomp.own, hcomp.old_le, hcomp.last_eq, hcomp.lt, hcomp.kinds, hcomp.captured⟩
  synced := h.synced
  flight := h.flight
  acked := h.acked

end Files

section Results

/-- The options once the log has been moved. -/
def WalOptions.signedOnly (o : WalOptions) (sg : Signer) : WalOptions :=
  { o with signer := some sg, acceptUnsignedLegacy := false }

variable {o : WalOptions} {sg : Signer} {k : Nat} {w w' : Wal}

/-- A store that has been moved to signing at an LSN. -/
def Moved (o : WalOptions) (sg : Signer) (k : Nat) (w : Wal) : Prop :=
  ∃ closed active, WalOk (o.migrating sg) (signedFrom sg k) w closed active

theorem moved_step {a : WalAct} (h : Moved o sg k w) (hsound : w.Sound (o.migrating sg) a)
    (hstep : w.step (o.migrating sg) a = some w') : Moved o sg k w' := by
  obtain ⟨closed, active, h⟩ := h
  exact h.step hsound hstep

/-- Whatever a moved store does, its unsigned files are those it began with, byte for
byte. -/
theorem moved_files {acts : List WalAct} (h : Moved o sg k w)
    (hsound : RunAll (Wal.step (o.migrating sg)) (Wal.Sound (o.migrating sg)) w acts)
    (hrun : run (Wal.step (o.migrating sg)) w acts = some w') :
    ∀ f ∈ w'.segs, f.signed = false → f.id < k ∧ f ∈ w.segs := by
  have hinv := run_invariant_of (Wal.step (o.migrating sg))
    (I := fun u => Moved o sg k u ∧ ∀ f ∈ u.segs, f.id < k → f ∈ w.segs) ?_ hsound
    ⟨h, fun f hf _ => hf⟩ hrun
  · obtain ⟨⟨closed, active, hok⟩, hkept⟩ := hinv
    intro f hf hunsigned
    have hmem := hf
    rw [hok.segs] at hmem
    have hid : f.id < 2 ^ 64 := by
      have hrange := (segFiles_ids (signedFrom sg k) (w'.snapLSN + 1) hok.layout.filled).2.1 f hmem
      have hlen := hok.length_log
      have hlsn := hok.layout.lsn_lt
      simp only [flatten_append, flatten_cons, flatten_nil, append_nil,
        length_append] at hrange
      omega
    have hlt : f.id < k := by
      by_contra hge
      rw [signed_segFiles hmem hid, signedFrom_of_le (not_lt.mp hge)] at hunsigned
      cases hunsigned
    exact ⟨hlt, hkept f hf hlt⟩
  · rintro u a v hok ⟨⟨closed, active, hu⟩, hkept⟩ hstep
    refine ⟨hu.step hok hstep, ?_⟩
    intro f hf hlt
    rcases hu.step_segs hstep f hf with hf | hge
    · exact hkept f hf hlt
    · -- the active segment is signed
      have hown := hu.own_active
      rw [signedFrom_of_lt (lt_of_le_of_lt hge hlt)] at hown
      cases hown

/-- A moved store whose snapshot was written since. -/
def Cleared (sg : Signer) (k : Nat) (w : Wal) : Prop :=
  ∀ n, w.snapLSN < n → signedFrom sg k n = some sg

theorem moved_cleared {acts : List WalAct} (h : Moved o sg k w)
    (hsound : RunAll (Wal.step (o.migrating sg)) (Wal.Sound (o.migrating sg)) w acts)
    (hrun : run (Wal.step (o.migrating sg)) w acts = some w') (hswap : WalAct.swap ∈ acts) :
    Moved o sg k w' ∧ Cleared sg k w' := by
  obtain ⟨before, after, rfl⟩ := append_of_mem hswap
  obtain ⟨u, hu, hrest⟩ := (run_append_eq_some _).mp hrun
  obtain ⟨v, hv, hafter⟩ := (run_cons_eq_some _).mp hrest
  have hmoved : Moved o sg k u := by
    refine run_invariant_of (Wal.step (o.migrating sg)) (I := Moved o sg k) ?_
      (hsound.initial _ (prefix_append _ _)) h hu
    exact fun s a t hok hs hstep => moved_step hs hok hstep
  have hrestsound := hsound.rest _ hu
  obtain ⟨closed, active, hok⟩ := hmoved
  have hcleared : Cleared sg k v := by
    intro n hn
    cases Wal.turn_of_step hv with
    | swapped hcomp hcopied =>
      have hid := (hok.compacted hcomp hcopied).1
      exact (hok.comp _ hcomp).own n (hid ▸ hn)
  refine run_invariant_of (Wal.step (o.migrating sg))
    (I := fun u => Moved o sg k u ∧ Cleared sg k u) ?_ (hrestsound.2 v hv)
    ⟨hok.step hrestsound.1 hv, hcleared⟩ hafter
  rintro s a t hs ⟨⟨closed, active, hsok⟩, hclear⟩ hstep
  refine ⟨hsok.step hs hstep, ?_⟩
  intro n hn
  exact hclear n (lt_of_le_of_lt (hsok.step_snapLSN hstep) hn)

/-- An unsigned log is moved to signing if its last segment holds an entry: the store
opens with the queue that it opens with unsigned, no unsigned file is written to again,
and behind the next compaction the log opens as a signed one. -/
theorem unsigned_log_moves_to_signing (o : WalOptions) (hplain : o.signer = none) (sg : Signer)
    (acts : List WalAct) (w : Wal) (hsound : RunAll (Wal.step o) (Wal.Sound o) (.new o) acts)
    (hrun : run (Wal.step o) (.new o) acts = some w) (c : Crash) (hposs : c.possible w = true)
    (hallowed : tailAllowed o (w.whole o c.cut + 1) (w.torn o c.cut) = true)
    (hfilled : 0 < w.activeWhole o c.cut) :
    ∃ q x y, recover o (w.left o c) = .ok x ∧ Holds none x.dir x.m q ∧
      recover (o.migrating sg) (w.left o c) = .ok y ∧ y.m = x.m ∧
        Holds (some sg) y.dir y.m q ∧
          ∀ acts' w',
            RunAll (Wal.step (o.migrating sg)) (Wal.Sound (o.migrating sg))
              (.opened y (w.log.take (w.whole o c.cut)) w.acked) acts' →
            run (Wal.step (o.migrating sg))
              (.opened y (w.log.take (w.whole o c.cut)) w.acked) acts' = some w' →
              (∀ f ∈ w'.segs, f.signed = false → f ∈ x.dir.segs) ∧
                (.swap ∈ acts' → ∀ c' : Crash, c'.possible w' = true →
                  tailAllowed o (w'.whole (o.migrating sg) c'.cut + 1)
                    (w'.torn (o.migrating sg) c'.cut) = true →
                  ∃ z, recover (o.signedOnly sg) (w'.left (o.migrating sg) c') = .ok z ∧
                    Holds (some sg) z.dir z.m
                      (empty.replay (w'.log.take (w'.whole (o.migrating sg) c'.cut))).reborn) := by
  obtain ⟨closed, active, h⟩ := walOk_run hsound hrun
  obtain ⟨hfits, -⟩ := Crash.fits_of_possible h hposs
  obtain ⟨snap', closed', m, hload, hfound, hlayout, hok, -⟩ := h.recover_left hfits
  have hopen := hok hallowed
  obtain ⟨hindexed, hshows, -⟩ := h.recovered hfits hopen
  -- the unsigned store that is opened behind the crash
  have hne : active.take (w.activeWhole o c.cut) ≠ [] := by
    rw [← length_pos_iff, length_take]
    exact lt_min hfilled (lt_of_lt_of_le hfilled (h.whole_le c.cut))
  obtain ⟨-, hdurable, -⟩ := h.reopen hposs hopen
  obtain ⟨hnext, closed₁, h₁⟩ :=
    h.opened hfits hopen fun n hn => le_trans (h.acked n hn) hdurable
  generalize openedLog o o.signing (⟨snap', []⟩ : Layout).base m snap'.toList
    (w.aside ++ quarantine (w.dropped o c))
    (closed' ++ [active.take (w.activeWhole o c.cut)]) = x at hopen hindexed hshows hnext h₁
  -- no segment of it begins at the next LSN
  have hids : ∀ f ∈ x.dir.segs, f.id ≠ x.nextLSN := by
    have hsegs : x.dir.segs = _ := h₁.segs
    have hlen := h₁.length_log
    have hlog : x.nextLSN = (w.log.take (w.whole o c.cut)).length + 1 := h₁.next
    have hall : ∀ part ∈ closed₁ ++ [active.take (w.activeWhole o c.cut)], part ≠ [] := by
      intro part hpart
      rcases mem_append.mp hpart with hpart | hpart
      · exact filled_concat.mp h₁.layout.filled part hpart
      · rw [mem_singleton.mp hpart]
        exact hne
    intro f hf
    rw [hsegs] at hf
    have hlt := (segFiles_lt _ _ hall f hf).2
    simp only [flatten_append, flatten_cons, flatten_nil, append_nil,
      length_append] at hlt
    change _ = (w.log.take (w.whole o c.cut)).length at hlen
    omega
  have hmigrated := recover_migrating sg hplain hopen hids
  have hmoved : Moved o sg x.nextLSN
      (.opened (x.migrated (o.migrating sg)) (w.log.take (w.whole o c.cut)) w.acked) :=
    ⟨_, _, h₁.migrate hplain hne⟩
  rw [hplain] at hshows
  have hshows' : Shows (Sees (some sg) o.offload (x.migrated (o.migrating sg)).dir) x.m
      (empty.replay (w.log.take (w.whole o c.cut))).reborn := by
    refine hshows.transfer (sight_sees _ _ _) fun it r hr => ?_
    have hkept : Dir.Kept x.dir (x.migrated (o.migrating sg)).dir :=
      kept_of_grow (filesGrow_append _ _) (FilesGrow.refl _)
    exact (hr.transfer (framesKept_signer x.dir (some sg))).mono hkept
  refine ⟨_, x, _, hopen, holds_of_shows hindexed hshows, hmigrated, rfl,
    holds_of_shows hindexed hshows', ?_⟩
  intro acts' w' hsound' hrun'
  refine ⟨?_, ?_⟩
  · intro f hf hunsigned
    obtain ⟨hlt, hmem⟩ := moved_files hmoved hsound' hrun' f hf hunsigned
    rcases mem_append.mp hmem with hold | hnew
    · exact hold
    · rw [mem_singleton.mp hnew] at hlt
      exact absurd hlt (lt_irrefl _)
  · intro hswap c' hposs' hallowed'
    obtain ⟨⟨closed₂, active₂, h₂⟩, hcleared⟩ := moved_cleared hmoved hsound' hrun' hswap
    have hstrict := h₂.strict hcleared
    obtain ⟨hfits', -⟩ := Crash.fits_of_possible h₂ hposs'
    obtain ⟨snap₂, closed₃, m₂, -, -, -, hok₂, -⟩ := hstrict.recover_left hfits'
    have hopen₂ := hok₂ hallowed'
    obtain ⟨hindexed₂, hshows₂, -⟩ := hstrict.recovered hfits' hopen₂
    exact ⟨_, hopen₂, holds_of_shows hindexed₂ hshows₂⟩

/-- A signer whose signatures are all alike. -/
def stampSigner : Signer where
  sign _ := [7]
  verify _ sig := sig = [7]
  verify_sign _ := rfl
  length_sign _ := by decide

/-- A store that is closed. -/
def closedClean : Crash := ⟨10000, none, false, [], false⟩

/-- A third record, and a compaction. -/
def movedAndCompacted : List WalAct :=
  [.core (.call (.append (plainRecord "c" (str "x"))) 7), .capture, .copy, .swap]

theorem unsigned_log_moves_to_signing_demo :
    ∃ w q y w' z, run (Wal.step plainOptions) (.new plainOptions) oneSynced = some w ∧
      recover (plainOptions.migrating stampSigner) (w.left plainOptions closedClean) = .ok y ∧
        Holds (some stampSigner) y.dir y.m q ∧
          run (Wal.step (plainOptions.migrating stampSigner))
            (.opened y (w.log.take (w.whole plainOptions closedClean.cut)) w.acked)
            movedAndCompacted = some w' ∧
            recover (plainOptions.signedOnly stampSigner)
              (w'.left (plainOptions.migrating stampSigner) closedClean) = .ok z := by
  obtain ⟨w, hw, hposs, hallowed, hfilled, y, hy, hsound, w', hw', hposs', hallowed'⟩ : ∃ w,
      run (Wal.step plainOptions) (.new plainOptions) oneSynced = some w ∧
        closedClean.possible w = true ∧
        tailAllowed plainOptions (w.whole plainOptions closedClean.cut + 1)
          (w.torn plainOptions closedClean.cut) = true ∧
        0 < w.activeWhole plainOptions closedClean.cut ∧
        ∃ y, recover (plainOptions.migrating stampSigner) (w.left plainOptions closedClean) =
            .ok y ∧
          RunAll (Wal.step (plainOptions.migrating stampSigner))
            (Wal.Sound (plainOptions.migrating stampSigner))
            (.opened y (w.log.take (w.whole plainOptions closedClean.cut)) w.acked)
            movedAndCompacted ∧
          ∃ w', run (Wal.step (plainOptions.migrating stampSigner))
              (.opened y (w.log.take (w.whole plainOptions closedClean.cut)) w.acked)
              movedAndCompacted = some w' ∧
            closedClean.possible w' = true ∧
              tailAllowed plainOptions
                (w'.whole (plainOptions.migrating stampSigner) closedClean.cut + 1)
                (w'.torn (plainOptions.migrating stampSigner) closedClean.cut) = true := by
    decide +kernel
  obtain ⟨q, x, y', -, -, hy', -, hholds, hlater⟩ :=
    unsigned_log_moves_to_signing plainOptions rfl stampSigner oneSynced w oneSynced_sound hw
      closedClean hposs hallowed hfilled
  obtain rfl := Except.ok.inj (hy.symm.trans hy')
  obtain ⟨z, hz, -⟩ :=
    (hlater movedAndCompacted w' hsound hw').2 (by decide) closedClean hposs' hallowed'
  exact ⟨w, q, y, w', z, hw, hy, hholds, hw', hz⟩

/-- A log that was never written to, or was just compacted, is not moved to signing:
its last segment has the name of the one that is to be begun. -/
theorem empty_segment_blocks_signing :
    recover (plainOptions.migrating stampSigner) (Wal.new plainOptions).dir =
        .error (.nameTaken 1) ∧
      (∃ x, recover plainOptions (Wal.new plainOptions).dir = .ok x) ∧
        ∃ w, run (Wal.step plainOptions) (.new plainOptions)
            (compactedWhole (plainRecord "a" (str "v"))) = some w ∧
          recover (plainOptions.migrating stampSigner) w.dir = .error (.nameTaken 3) ∧
            ∃ x, recover plainOptions w.dir = .ok x := by
  obtain ⟨x, hx, -⟩ : ∃ x, recover plainOptions (Wal.new plainOptions).dir = .ok x ∧ True := by
    decide +kernel
  obtain ⟨w, hw, hrefused, y, hy, -⟩ : ∃ w, run (Wal.step plainOptions) (.new plainOptions)
      (compactedWhole (plainRecord "a" (str "v"))) = some w ∧
        refusal (plainOptions.migrating stampSigner) w.dir = some (.nameTaken 3) ∧
          ∃ y, recover plainOptions w.dir = .ok y ∧ True := by
    decide +kernel
  exact ⟨recover_of_refusal (by decide +kernel), ⟨x, hx⟩, w, hw, recover_of_refusal hrefused,
    y, hy⟩

end Results
end Dlq
end GoGuard
