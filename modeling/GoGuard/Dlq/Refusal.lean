import GoGuard.Dlq.Repair
import GoGuard.Dlq.Written

/-!
# What a refused open leaves behind

`recover` changes the directory while it is still reading it: once the newest
snapshot is loaded it removes the older ones, then the segments the snapshot
covers, and it cuts or sets aside the last segment.  `recoverLeft` is the
directory it leaves, also when it ends in an error.

A repair is the last thing that is read, so no refusal can follow it.  The two
clean-ups come before the segments are read, and a segment that is refused comes
after them.  So a refused open changes nothing when there is nothing to clean up,
or when the snapshot itself is refused.
-/

namespace GoGuard
namespace Dlq

open Lib Machine List

section Model

/-- The segments and the quarantine files that the loop over the segments leaves,
whether it ends in an error or not. -/
def replayLeft (o : WalOptions) (snapLSN : Nat) :
    Segments → List File → List File × List Bytes
  | s, [] => (s.files, s.aside)
  | s, sg :: rest =>
    match replaySegment o snapLSN sg s.m s.next (rest = []) with
    | .error _ => (s.files ++ sg :: rest, s.aside)
    | .ok .setAside => (s.files, s.aside ++ quarantine sg.data)
    | .ok (.kept r signed) =>
      replayLeft o snapLSN
        ⟨r.m, r.next, s.files ++ [⟨sg.id, sg.data.take r.off⟩], signed,
          s.aside ++ quarantine (sg.data.drop r.off)⟩ rest

/-- The directory `recover` leaves behind the snapshot.  The segments the snapshot
covers are gone, and a segment is created last. -/
def recoverFromLeft (o : WalOptions) (m : Machine) (snapLSN : Nat) (d : Dir)
    (snaps : List File) : Dir :=
  match recoverFrom o m snapLSN d snaps with
  | .ok w => w.dir
  | .error _ =>
    let left := replayLeft o snapLSN ⟨m, snapLSN + 1, [], false, []⟩
      (dropCovered (snapLSN + 1) (sorted d.segs))
    ⟨left.1, snaps, d.aside ++ left.2⟩

/-- The directory `recover` leaves.  The older snapshots are removed as soon as the
newest one is loaded. -/
def recoverLeft (o : WalOptions) (d : Dir) : Dir :=
  match (sorted d.snaps).getLast? with
  | none => recoverFromLeft o (newMachine o.lim) 0 d []
  | some f =>
    match loadSnapshot o f with
    | .error _ => d
    | .ok m => recoverFromLeft o m f.id d [f]

/-- The error `recover` returns, if any. -/
def refusal (o : WalOptions) (d : Dir) : Option OpenError :=
  match recover o d with
  | .ok _ => none
  | .error e => some e

/-- The error matches `ErrCorrupt`. -/
def OpenError.isCorrupt : OpenError → Bool
  | .corrupt .. => true
  | .nameTaken _ => false

/-- There is nothing for recovery to clean up: no older snapshot and no segment
that the snapshot covers. -/
def NoLeftovers (d : Dir) : Prop :=
  d.snaps.length ≤ 1 ∧ d.log = sorted d.segs

/-- The newest snapshot is refused. -/
def SnapshotRefused (o : WalOptions) (d : Dir) : Prop :=
  ∃ f e, (sorted d.snaps).getLast? = some f ∧ loadSnapshot o f = .error e

end Model

section Refusals

variable {o : WalOptions} {d : Dir} {snapLSN : Nat}

variable {e : OpenError} {m : Machine} {snaps : List File}

theorem recover_of_refusal (h : refusal o d = some e) : recover o d = .error e := by
  unfold refusal at h
  split at h
  · cases h
  · next hrefused =>
    cases h
    exact hrefused

/-- Every segment before a refused one is kept whole: only the last one is cut or
set aside, and then the loop is over. -/
theorem replayLeft_of_error {fs : List File} {s : Segments}
    (h : replaySegments o snapLSN s fs = .error e) :
    replayLeft o snapLSN s fs = (s.files ++ fs, s.aside) := by
  induction fs generalizing s with
  | nil => cases h
  | cons sg rest ih =>
    rw [replaySegments] at h
    split at h
    · next hrefused => rw [replayLeft, hrefused]
    · cases h
    · next r signed hkept =>
      rw [replayLeft, hkept]
      obtain ⟨-, -, hend⟩ := replaySegment_kept hkept
      rcases hend with hall | ⟨hlast, -, -⟩
      · have hfiles : s.files ++ [⟨sg.id, sg.data.take r.off⟩] ++ rest
            = s.files ++ sg :: rest := by
          rw [hall, take_length, append_assoc, singleton_append]
        have haside : s.aside ++ quarantine (sg.data.drop r.off) = s.aside := by
          rw [hall, drop_length]
          exact append_nil _
        have hrest := ih h
        simp only at hrest ⊢
        rw [hrest, hfiles, haside]
      · -- nothing comes after the last segment
        obtain rfl : rest = [] := by simpa using hlast
        cases h

theorem dropCovered_suffix (expected : Nat) (fs : List File) : dropCovered expected fs <:+ fs := by
  fun_induction dropCovered expected fs with
  | case1 a b rest hle ih => exact ih.trans (suffix_cons a _)
  | case2 a b rest hle => exact suffix_refl _
  | case3 l hne => exact suffix_refl _

theorem recoverFrom_corrupt (h : recoverFrom o m snapLSN d snaps = .error e)
    (he : e.isCorrupt = true) :
    replaySegments o snapLSN ⟨m, snapLSN + 1, [], false, []⟩
      (dropCovered (snapLSN + 1) (sorted d.segs)) = .error e := by
  unfold recoverFrom at h
  split at h
  · next hreplay =>
    cases h
    exact hreplay
  · unfold openActive at h
    obtain ⟨-, h⟩ := of_when h
    obtain ⟨-, h⟩ := of_when h
    cases h
    cases he

theorem recoverFromLeft_corrupt (h : recoverFrom o m snapLSN d snaps = .error e)
    (he : e.isCorrupt = true) :
    recoverFromLeft o m snapLSN d snaps
      = ⟨dropCovered (snapLSN + 1) (sorted d.segs), snaps, d.aside⟩ := by
  have hleft := replayLeft_of_error (recoverFrom_corrupt h he)
  simp only [recoverFromLeft, h, hleft, nil_append, append_nil]

end Refusals

section Example

/-- A segment whose second entry is missing. -/
def gapSegment : File :=
  ⟨1, encodeHeaderFlags walMagic 1 0 ++ appendFrame 1 entAck (Entry.body (.ack (str "a")))
    ++ appendFrame 3 entAck (Entry.body (.ack (str "b")))⟩

/-- What a compaction at LSN 2 leaves when it is interrupted before it removes the
old snapshot and the segment it covers; the next segment lost its first entry. -/
def interruptedCompaction : Dir :=
  ⟨[⟨1, twoEntries⟩,
      ⟨3, encodeHeaderFlags walMagic 3 0
        ++ appendFrame 4 entAck (Entry.body (.ack (str "c")))⟩],
    [⟨1, snapData none 1 [] 0⟩, ⟨2, snapData none 2 [] 0⟩], []⟩

end Example

end Dlq
end GoGuard
