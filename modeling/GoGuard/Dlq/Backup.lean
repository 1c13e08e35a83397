import GoGuard.Dlq.ReadBack
import GoGuard.Dlq.Refusal

/-!
# A backup of a store that serves

`Backup` lists the files of the log and their sizes under the lock, with the active
segment synced, and copies them with the lock released.  Compaction is held off;
calls go on, so the active segment grows and segments are begun behind it.  A file
of the listing only grows meanwhile, and what is copied of it is what it was.  The
destination is the directory at the capture (`Copying`), and opening it gives the
queue of the log as it stood.

Files of earlier compactions that could not be removed may be listed too; recovery
drops them unread.
-/

namespace GoGuard
namespace Dlq

open Lib Machine Queue List

section Model

/-- A file as `Backup` lists it. -/
structure Listed where
  snap : Bool
  id : Nat
  size : Nat
deriving DecidableEq

/-- The files of the log, segments and snapshots. -/
def Dir.files (d : Dir) : List (Bool × File) :=
  d.segs.map (Prod.mk false) ++ d.snaps.map (Prod.mk true)

/-- The directory with these files. -/
def Dir.ofFiles (fs : List (Bool × File)) : Dir :=
  ⟨(fs.filter fun x => !x.1).map Prod.snd, (fs.filter Prod.fst).map Prod.snd, []⟩

def listed (x : Bool × File) : Listed :=
  ⟨x.1, x.2.id, x.2.data.length⟩

/-- What is in the directory of a store, with files that should have been removed. -/
def Wal.disk (w : Wal) (stale : Dir) : Dir :=
  ⟨stale.segs ++ w.segs, stale.snaps ++ w.snap.toList, w.aside⟩

/-- The files are covered by the snapshot. -/
def Dir.StaleFor (d : Dir) (w : Wal) : Prop :=
  (d.segs.Pairwise fun f g => f.id < g.id) ∧ (∀ f ∈ d.segs, f.id ≤ w.snapLSN) ∧
    (d.snaps.Pairwise fun f g => f.id < g.id) ∧ ∀ f ∈ d.snaps, f.id < w.snapLSN

instance (d : Dir) (w : Wal) : Decidable (d.StaleFor w) :=
  inferInstanceAs (Decidable (_ ∧ _ ∧ _ ∧ _))

/-- `Sync` of the active segment.  A call that waits for the sync loop may return as
soon as its entry is on stable storage. -/
def Wal.flushed (w : Wal) : Wal :=
  { w with durable := w.log.length, synced := w.activeSize }

/-- A backup: what is still to be copied and what the destination holds.  `origin` is
the store at the capture; no step reads it. -/
structure Backup where
  todo : List Listed
  dest : List (Bool × File)
  stale : Dir
  origin : Wal
deriving DecidableEq

/-- A store and its latest backup. -/
structure Serving where
  store : Wal
  backup : Option Backup
deriving DecidableEq

def Serving.new (o : WalOptions) : Serving :=
  ⟨.new o, none⟩

inductive BackupAct where
  /-- a step of the store -/
  | store (a : WalAct)
  /-- `Backup` behind its checks, up to the unlock -/
  | capture (stale : Dir)
  /-- `copyPrefix` of the next file; a file only grows, so it may as well be read at once -/
  | copy
deriving DecidableEq

/-- The steps that go on during a backup. -/
def WalAct.serves : WalAct → Bool
  | .core _ | .syncStart | .syncDone | .finish _ => true
  | .capture | .copy | .abandon | .swap | .reopen _ => false

/-- Files are being copied. -/
def Serving.copying (s : Serving) : Bool :=
  s.backup.any fun b => b.todo ≠ []

def Serving.step (o : WalOptions) (s : Serving) : BackupAct → Option Serving
  | .store a =>
    if s.copying ∧ a.serves = false then none
    else (s.store.step o a).map fun w => { s with store := w }
  | .capture stale =>
    -- `compactMu` and `mu` are free
    if s.copying ∨ s.store.comp.isSome ∨ s.store.core.commit.isSome
        ∨ ¬ stale.StaleFor s.store then
      none
    else
      some ⟨s.store.flushed,
        some ⟨(s.store.disk stale).files.map listed, [], stale, s.store.flushed⟩⟩
  | .copy =>
    match s.backup with
    | some ⟨f :: rest, dest, stale, origin⟩ =>
      ((s.store.disk stale).file f.snap f.id).map fun data =>
        { s with
          backup := some ⟨rest, dest ++ [(f.snap, ⟨f.id, data.take f.size⟩)], stale,
            origin⟩ }
    | _ => none

/-- What the store writes can be read back. -/
def Serving.Sound (o : WalOptions) (s : Serving) : BackupAct → Prop
  | .store a => s.store.Sound o a
  | .capture _ | .copy => True

instance (o : WalOptions) (s : Serving) (a : BackupAct) : Decidable (s.Sound o a) :=
  match a with
  | .store a => inferInstanceAs (Decidable (s.store.Sound o a))
  | .capture _ | .copy => isTrue trivial

end Model

section Files

theorem FilesGrow.append_left {fs fs' : List File} (h : FilesGrow fs fs') (extra : List File) :
    FilesGrow (extra ++ fs) (extra ++ fs') := by
  intro id f hf
  rw [List.find?_append] at hf ⊢
  cases hextra : extra.find? (fun g => decide (g.id = id)) with
  | some g =>
    rw [hextra] at hf
    exact ⟨f, [], hf, (append_nil _).symm⟩
  | none =>
    rw [hextra, Option.none_or] at hf
    exact h id f hf

theorem ofFiles_files (d : Dir) : Dir.ofFiles d.files = ⟨d.segs, d.snaps, []⟩ := by
  unfold Dir.ofFiles Dir.files
  simp [filter_append, filter_map, Function.comp_def]

variable {o : WalOptions} {sgs : Signing} {w w' : Wal} {closed : List (List Entry)}
variable {active : List Entry}

theorem Wal.step_serves {a : WalAct} (hserves : a.serves = true) (hstep : w.step o a = some w') :
    FilesGrow w.segs w'.segs ∧ w'.snap = w.snap := by
  cases Wal.turn_of_step hstep with
  | @logged _ _ e =>
    have hroom := (Wal.rotated (o := o) (P := fun v => FilesGrow w.segs v.segs ∧ v.snap = w.snap)
      ⟨filesGrow_append _ _, rfl⟩ ⟨FilesGrow.refl _, rfl⟩).2 e
    exact ⟨hroom.1.trans (filesGrow_appendLast _ _), hroom.2⟩
  | silent | refused | syncing | synced | finished => exact ⟨FilesGrow.refl _, rfl⟩
  | covered | captured | copied | abandoned | swapped | reopened => cases hserves

theorem WalOk.flushed (h : WalOk o sgs w closed active) : WalOk o sgs w.flushed closed active := by
  refine ⟨h.core, h.reads, h.own, h.layout, h.segs, h.next, h.shown, h.seqs, h.comp, ?_,
    h.flight, ?_⟩
  · refine ⟨active.length, le_refl _, h.length_log.symm, ?_⟩
    rw [take_length]
    exact h.activeSize_eq
  · intro n hn
    obtain ⟨j, hj, hdurable, -⟩ := h.synced
    have hle := h.acked n hn
    have hlen := h.length_log
    change n ≤ w.log.length
    omega

theorem WalOk.ascending (h : WalOk o sgs w closed active) :
    (w.segs.Pairwise fun f g => f.id < g.id) ∧ ∀ f ∈ w.segs, w.snapLSN < f.id := by
  obtain ⟨hpair, hrange, -⟩ := segFiles_ids sgs (w.snapLSN + 1) h.layout.filled
  rw [h.segs]
  exact ⟨hpair, fun f hf => (hrange f hf).1⟩

theorem newest_disk {stale : Dir} (hstale : stale.StaleFor w) :
    ((stale.snaps ++ w.snap.toList).Pairwise fun f g => f.id < g.id) ∧
      (stale.snaps ++ w.snap.toList).getLast? = w.snap := by
  obtain ⟨-, -, hpair, hlt⟩ := hstale
  cases hsnap : w.snap with
  | none =>
    have hzero : w.snapLSN = 0 := by
      unfold Wal.snapLSN
      rw [hsnap]
      rfl
    have hnil : stale.snaps = [] := by
      refine eq_nil_iff_forall_not_mem.mpr fun f hf => ?_
      have := hlt f hf
      omega
    rw [hnil]
    exact ⟨.nil, rfl⟩
  | some g =>
    have hid : w.snapLSN = g.id := by
      unfold Wal.snapLSN
      rw [hsnap]
      rfl
    refine ⟨pairwise_append.mpr ⟨hpair, pairwise_singleton _ _, ?_⟩, ?_⟩
    · intro f hf x hx
      rw [mem_singleton.mp hx, ← hid]
      exact hlt f hf
    · simp

theorem WalOk.ascending_disk (h : WalOk o sgs w closed active) {stale : Dir}
    (hstale : stale.StaleFor w) : (stale.segs ++ w.segs).Pairwise fun f g => f.id < g.id := by
  obtain ⟨hpair, hlt⟩ := h.ascending
  refine pairwise_append.mpr ⟨hstale.1, hpair, ?_⟩
  intro f hf g hg
  exact lt_of_le_of_lt (hstale.2.1 f hf) (hlt g hg)

/-- A copy of the directory opens whole. -/
theorem WalOk.recover_copy (h : WalOk o sgs w closed active) {stale : Dir}
    (hstale : stale.StaleFor w) :
    ∃ x, recover o ⟨stale.segs ++ w.segs, stale.snaps ++ w.snap.toList, []⟩ = .ok x ∧
      Indexed x.m ∧ Shows (Sees o.signer o.offload x.dir) x.m (empty.replay w.log).reborn ∧
        x.nextLSN = w.log.length + 1 ∧ x.dir = ⟨w.segs, w.snap.toList, []⟩ := by
  obtain ⟨m, hload, hnext, hindexed, hshows⟩ := h.layout.opened h.reads []
  have hnewest := newest_disk hstale
  have hsnaps : (sorted (stale.snaps ++ w.snap.toList)).getLast? = w.snap := by
    rw [sorted_of_ascending hnewest.1]
    exact hnewest.2
  have hrecover := recover_eq (o := o)
    (d := ⟨stale.segs ++ w.segs, stale.snaps ++ w.snap.toList, []⟩) hsnaps hload
  have hids : (tornFiles sgs (w.snapLSN + 1) closed active []).map File.id =
      (segFiles sgs (w.snapLSN + 1) (closed ++ [active])).map File.id := by
    rw [segFiles_append, tornFiles, map_append, map_append]
    rfl
  have htorn : w.segs = tornFiles sgs (w.snapLSN + 1) closed active [] := by
    rw [h.segs, segFiles_concat, tornFiles, append_nil]
  have hsegs : dropCovered (w.snapLSN + 1) (sorted (stale.segs ++ w.segs)) =
      tornFiles sgs (w.snapLSN + 1) closed active [] := by
    rw [htorn]
    exact dropCovered_left stale.segs hids h.layout.filled (by simp) hstale.1
      fun f hf => Nat.lt_succ_of_le (hstale.2.1 f hf)
  have hlsn : w.snapLSN + 1 + (closed ++ [active]).flatten.length < 2 ^ 64 := by
    have hlen := h.length_log
    have hlt := h.layout.lsn_lt
    simp only [flatten_append, flatten_cons, flatten_nil, append_nil,
      length_append]
    omega
  have hread : readFrame [] = .error .eof := rfl
  have hopen : recoverFrom o m w.snapLSN
      ⟨stale.segs ++ w.segs, stale.snaps ++ w.snap.toList, []⟩ w.snap.toList =
        .ok (openedLog o sgs w.snapLSN m w.snap.toList [] (closed ++ [active])) :=
    (recoverFrom_torn h.reads (h.own _ (le_refl _)) hsegs h.layout.parts_readable hlsn hread).1
      rfl
  refine ⟨_, hrecover.trans hopen, hindexed, hshows, hnext, ?_⟩
  change (⟨segFiles sgs (w.snapLSN + 1) (closed ++ [active]), w.snap.toList, []⟩ : Dir) = _
  rw [← h.segs]

/-- A crash of a store whose active segment is synced loses nothing. -/
theorem WalOk.recover_flushed (h : WalOk o sgs w closed active) (hsynced : w.synced = w.activeSize)
    {c : Crash} (hposs : c.possible w = true) :
    ∃ y, recover o (w.left o c) = .ok y ∧ Indexed y.m ∧
      Shows (Sees o.signer o.offload y.dir) y.m (empty.replay w.log).reborn := by
  obtain ⟨hfits, hcut⟩ := Crash.fits_of_possible h hposs
  rw [hsynced] at hcut
  obtain ⟨-, hnone⟩ := h.whole_all (o := o) hcut
  obtain ⟨snap', closed', m, -, -, -, hok, -⟩ := h.recover_left hfits
  have hopen := hok (by rw [hnone]; rfl)
  obtain ⟨hindexed, hshows, -⟩ := h.recovered hfits hopen
  rw [h.take_whole hcut] at hshows
  exact ⟨_, hopen, hindexed, hshows⟩

end Files

section Copying

variable {o : WalOptions} {s s' : Serving} {w w' : Wal} {b : Backup}

/-- What holds of a backup beside its store: the destination holds the first of the
listed files as they were, and the others have only grown. -/
structure Copying (o : WalOptions) (w : Wal) (b : Backup) : Prop where
  ok : ∃ closed active, WalOk o o.signing b.origin closed active
  flushed : b.origin.synced = b.origin.activeSize
  stale : b.stale.StaleFor b.origin
  files : ∃ rest, b.dest ++ rest = (b.origin.disk b.stale).files ∧ b.todo = rest.map listed
  grows : b.todo ≠ [] → FilesGrow b.origin.segs w.segs ∧ w.snap = b.origin.snap

theorem Copying.file (h : Copying o w b) (hbusy : b.todo ≠ []) {x : Bool × File}
    (hx : x ∈ (b.origin.disk b.stale).files) :
    ∃ more, (w.disk b.stale).file x.1 x.2.id = some (x.2.data ++ more) := by
  obtain ⟨closed, active, hok⟩ := h.ok
  obtain ⟨hgrow, hsnap⟩ := h.grows hbusy
  rcases mem_append.mp hx with hx | hx
  · obtain ⟨f, hf, rfl⟩ := mem_map.mp hx
    have hfind := find_of_nodup (nodup_of_ascending (hok.ascending_disk h.stale)) hf
    obtain ⟨f', more, hf', hdata⟩ := (hgrow.append_left b.stale.segs) f.id f hfind
    exact ⟨more, Option.map_eq_some_iff.mpr ⟨f', hf', hdata⟩⟩
  · obtain ⟨f, hf, rfl⟩ := mem_map.mp hx
    have hfind := find_of_nodup (nodup_of_ascending (newest_disk h.stale).1) hf
    refine ⟨[], Option.map_eq_some_iff.mpr ⟨f, ?_, (append_nil _).symm⟩⟩
    simp only [Wal.disk, hsnap, if_true]
    exact hfind

theorem Copying.copy
    {f : Listed} {rest : List Listed} {dest : List (Bool × File)} {stale : Dir} {origin : Wal}
    {data : Bytes} (h : Copying o w ⟨f :: rest, dest, stale, origin⟩)
    (hdata : (w.disk stale).file f.snap f.id = some data) :
    Copying o w ⟨rest, dest ++ [(f.snap, ⟨f.id, data.take f.size⟩)], stale, origin⟩ := by
  obtain ⟨pending, hall, htodo⟩ := h.files
  cases pending with
  | nil => cases htodo
  | cons x pending =>
    obtain ⟨rfl, rfl⟩ := List.cons.inj htodo
    have hx : x ∈ (origin.disk stale).files := by
      rw [← hall]
      exact mem_append_right _ mem_cons_self
    obtain ⟨more, hmore⟩ := h.file (cons_ne_nil _ _) hx
    have hsame : data = x.2.data ++ more := Option.some.inj (hdata.symm.trans hmore)
    have htake : data.take (listed x).size = x.2.data := by
      rw [hsame]
      exact take_left
    refine ⟨h.ok, h.flushed, h.stale, ⟨pending, ?_, rfl⟩, fun _ => h.grows (cons_ne_nil _ _)⟩
    rw [htake, ← hall, append_assoc]
    rfl

/-- What holds of a store and its backup. -/
def ServingOk (o : WalOptions) (s : Serving) : Prop :=
  (∃ closed active, WalOk o o.signing s.store closed active) ∧
    ∀ b, s.backup = some b → Copying o s.store b

theorem serving_step {a : BackupAct} (h : ServingOk o s) (hsound : s.Sound o a)
    (hstep : s.step o a = some s') : ServingOk o s' := by
  obtain ⟨⟨closed, active, hok⟩, hcopying⟩ := h
  cases a with
  | store a =>
    obtain ⟨hfree, hstep⟩ := of_unless hstep
    obtain ⟨w, hw, rfl⟩ := Option.map_eq_some_iff.mp hstep
    refine ⟨hok.step hsound hw, ?_⟩
    intro b hb
    have hb' := hcopying b hb
    refine ⟨hb'.ok, hb'.flushed, hb'.stale, hb'.files, ?_⟩
    intro hbusy
    have hserves : a.serves = true := by
      by_contra hnot
      refine hfree ⟨?_, Bool.eq_false_iff.mpr hnot⟩
      unfold Serving.copying
      rw [hb]
      simpa using hbusy
    obtain ⟨hgrow, hsnap⟩ := hb'.grows hbusy
    obtain ⟨hgrow', hsnap'⟩ := Wal.step_serves hserves hw
    exact ⟨hgrow.trans hgrow', hsnap'.trans hsnap⟩
  | capture stale =>
    obtain ⟨hfree, rfl⟩ := of_guard_not hstep
    simp only [not_or, not_not] at hfree
    refine ⟨⟨_, _, hok.flushed⟩, ?_⟩
    intro b hb
    cases hb
    exact ⟨⟨_, _, hok.flushed⟩, rfl, hfree.2.2.2, ⟨_, rfl, rfl⟩,
      fun _ => ⟨FilesGrow.refl _, rfl⟩⟩
  | copy =>
    simp only [Serving.step] at hstep
    split at hstep
    · next f rest dest stale origin hbackup =>
      obtain ⟨data, hdata, rfl⟩ := Option.map_eq_some_iff.mp hstep
      refine ⟨⟨_, _, hok⟩, ?_⟩
      intro b hb
      cases hb
      exact (hcopying _ hbackup).copy hdata
    · cases hstep

theorem serving_run {acts : List BackupAct}
    (hsound : RunAll (Serving.step o) (Serving.Sound o) (.new o) acts)
    (hrun : run (Serving.step o) (.new o) acts = some s) : ServingOk o s := by
  refine run_invariant_of (Serving.step o) (I := ServingOk o) ?_ hsound ?_ hrun
  · exact fun s a t hok hs hstep => serving_step hs hok hstep
  · exact ⟨⟨[], [], walOk_new o⟩, fun b hb => nomatch hb⟩

/-- The origin of a backup is the store at its capture. -/
theorem origin_was_store {acts : List BackupAct}
    (hrun : run (Serving.step o) (.new o) acts = some s) (hb : s.backup = some b) :
    ∃ acts₁ s₁ stale, acts₁ ++ [.capture stale] <+: acts ∧
      run (Serving.step o) (.new o) acts₁ = some s₁ ∧ b.origin = s₁.store.flushed := by
  induction acts using List.reverseRecOn generalizing s b with
  | nil =>
    cases hrun
    cases hb
  | append_singleton acts a ih =>
    obtain ⟨u, hu, hlast⟩ := (run_append_eq_some _).mp hrun
    obtain ⟨v, hstep, hv⟩ := (run_cons_eq_some _).mp hlast
    cases hv
    have hbefore : ∀ b', u.backup = some b' → b'.origin = b.origin →
        ∃ acts₁ s₁ stale, acts₁ ++ [.capture stale] <+: acts ++ [a] ∧
          run (Serving.step o) (.new o) acts₁ = some s₁ ∧ b.origin = s₁.store.flushed := by
      intro b' hb' horigin
      obtain ⟨acts₁, s₁, stale, hpre, hrun₁, heq⟩ := ih hu hb'
      exact ⟨acts₁, s₁, stale, hpre.trans (prefix_append _ _), hrun₁, horigin ▸ heq⟩
    cases a with
    | store a =>
      simp only [Serving.step] at hstep
      split at hstep
      · cases hstep
      · obtain ⟨w, -, rfl⟩ := Option.map_eq_some_iff.mp hstep
        exact hbefore b hb rfl
    | capture stale =>
      obtain ⟨-, rfl⟩ := of_guard_not hstep
      cases hb
      exact ⟨acts, u, stale, prefix_refl _, hu, rfl⟩
    | copy =>
      simp only [Serving.step] at hstep
      split at hstep
      · next hbackup =>
        obtain ⟨data, -, rfl⟩ := Option.map_eq_some_iff.mp hstep
        cases hb
        exact hbefore _ hbackup rfl
      · cases hstep

end Copying

section Results

/-- A backup is the log at its capture: it opens whole, with the entries that were
logged then and no others, and holds the queue that the store would hold if it had
crashed right after the capture. -/
theorem backup_is_log_at_capture (o : WalOptions) (acts : List BackupAct) (s : Serving)
    (hsound : RunAll (Serving.step o) (Serving.Sound o) (.new o) acts)
    (hrun : run (Serving.step o) (.new o) acts = some s)
    (b : Backup) (hb : s.backup = some b) (hdone : b.todo = []) :
    ∃ acts₁ s₁ stale w, acts₁ ++ [.capture stale] <+: acts ∧
      run (Serving.step o) (.new o) acts₁ = some s₁ ∧ w = s₁.store.flushed ∧
        (∀ n ∈ w.acked, n ≤ w.log.length) ∧
          ∃ q x, Holds o.signer w.dir w.core.m q ∧ recover o (.ofFiles b.dest) = .ok x ∧
            x.dir = ⟨w.segs, w.snap.toList, []⟩ ∧ x.nextLSN = w.log.length + 1 ∧
              Holds o.signer x.dir x.m q.reborn ∧
                ∀ c : Crash, c.possible w = true →
                  ∃ y, recover o (w.left o c) = .ok y ∧ Holds o.signer y.dir y.m q.reborn := by
  obtain ⟨acts₁, s₁, stale, hpre, hrun₁, horigin⟩ := origin_was_store hrun hb
  have hcopying := (serving_run hsound hrun).2 b hb
  obtain ⟨closed, active, h⟩ := hcopying.ok
  obtain ⟨rest, hall, htodo⟩ := hcopying.files
  have hrest : rest = [] := by
    rw [hdone] at htodo
    exact map_eq_nil_iff.mp htodo.symm
  have hdest : Dir.ofFiles b.dest =
      ⟨b.stale.segs ++ b.origin.segs, b.stale.snaps ++ b.origin.snap.toList, []⟩ := by
    rw [hrest, append_nil] at hall
    rw [hall, ofFiles_files]
    rfl
  obtain ⟨q, hholds, hreborn⟩ := h.holds
  obtain ⟨x, hx, hindexed, hshows, hnext, hdir⟩ := h.recover_copy hcopying.stale
  rw [← hreborn] at hshows
  refine ⟨acts₁, s₁, stale, b.origin, hpre, hrun₁, horigin, ?_, q, x, hholds, ?_, hdir, hnext,
    holds_of_shows hindexed hshows, ?_⟩
  · intro n hn
    obtain ⟨j, hj, hdurable, -⟩ := h.synced
    have hle := h.acked n hn
    have hlen := h.length_log
    omega
  · rw [hdest]
    exact hx
  · intro c hposs
    obtain ⟨y, hy, hyindexed, hyshows⟩ := h.recover_flushed hcopying.flushed hposs
    rw [← hreborn] at hyshows
    exact ⟨y, hy, holds_of_shows hyindexed hyshows⟩

/-- Every entry begins a segment. -/
def rotatingOptions : WalOptions :=
  { plainOptions with segmentBytes := 0 }

/-- A compaction whose covered segment could not be removed, and a backup beside which
two records are appended. -/
def backedUp : List BackupAct :=
  (compactedWhole (plainRecord "a" (str "v"))).map .store ++
    [.capture ⟨[⟨1, []⟩], [], []⟩, .copy,
      .store (.core (.call (.append (plainRecord "b" (str "w"))) 20)), .copy,
      .store (.core (.call (.append (plainRecord "c" (str "x"))) 21)), .copy]

theorem backup_is_log_at_capture_demo :
    ∃ s b, run (Serving.step rotatingOptions) (.new rotatingOptions) backedUp = some s ∧
      s.backup = some b ∧ b.todo = [] ∧ b.dest.length = 3 ∧ s.store.log.length = 4 ∧
        s.store.segs.length = 2 ∧
          ∃ (q : Queue) (x : Opened), recover rotatingOptions (.ofFiles b.dest) = .ok x ∧
            Holds none x.dir x.m q.reborn := by
  obtain ⟨s, b, hs, hb, htodo, hfacts⟩ : ∃ s b, run (Serving.step rotatingOptions)
      (.new rotatingOptions) backedUp = some s ∧ s.backup = some b ∧ b.todo = [] ∧
        b.dest.length = 3 ∧ s.store.log.length = 4 ∧ s.store.segs.length = 2 := by
    decide +kernel
  have hsound : RunAll (Serving.step rotatingOptions) (Serving.Sound rotatingOptions)
      (.new rotatingOptions) backedUp := by
    decide +kernel
  obtain ⟨-, -, -, -, -, -, -, -, q, x, -, hx, -, -, hholds, -⟩ :=
    backup_is_log_at_capture rotatingOptions backedUp s hsound hs b hb htodo
  exact ⟨s, b, hs, hb, htodo, hfacts.1, hfacts.2.1, hfacts.2.2, q, x, hx, hholds⟩

/-- A backup behind the compaction of a record whose attempts have wrapped. -/
def backedUpWorn : List BackupAct :=
  (compactedWhole wornRecord).map .store ++ [.capture ⟨[], [], []⟩, .copy, .copy]

/-- The snapshot of such a record cannot be read back, in the backup as in the log. -/
theorem backup_of_wrapped_attempts :
    ∃ s b, run (Serving.step plainOptions) (.new plainOptions) backedUpWorn = some s ∧
      s.backup = some b ∧ b.todo = [] ∧
        ∃ e, recover plainOptions (.ofFiles b.dest) = .error e := by
  decide +kernel

end Results

end Dlq
end GoGuard
