import GoGuard.Lib.Transition
import Mathlib.Tactic

/-!
# Group commit of the write-ahead log

Under `SyncAlways` an operation writes its entry, takes a position in the
group-commit sequence (`logLocked`) and waits until that position is durable
(`waitDurable`).  One goroutine (`syncLoopAlways`) captures the position
written so far and the file to flush, runs the fsync with no lock held, and
then publishes the captured position.  Segment rotation (`rotateLocked`) waits
for that fsync, flushes the old file itself and swaps files.  `Close` stops the
loop and flushes the active file a last time.

This module embeds these steps over the fields of `WALStore` that take part:
`active`, `syncFile`, `written`, `durable`, `syncing`, `syncStop`, `closed` and
`failure`.  Every label of `Act` is one critical section of the source, so the
runs are all the interleavings of callers, syncer, rotation, failed fsyncs,
timeouts and `Close`.

Three fields are not in the source and only observe the run: `fileOf` (the
file each entry was written to), `syncs` (the fsyncs that returned success,
with the number of entries that had been written when they were issued) and
`acked` (the positions for which `waitDurable` returned nil).
-/

namespace GoGuard
namespace Dlq
namespace GroupCommit

open Lib List

/-- What the sync loop holds between its capture and its completion: the
position and the file it captured, the number of entries the log held then (the
fsync is issued after the capture), and what the fsync returned, once it has. -/
structure Capture where
  target : Nat
  file : Nat
  upto : Nat
  result : Option Bool
deriving DecidableEq, Repr

/-- An fsync of `file` that returned success, issued when `upto` entries had
been written to the log. -/
structure Synced where
  file : Nat
  upto : Nat
deriving DecidableEq, Repr

/-- The group-commit part of `WALStore`. -/
structure State where
  active : Nat
  syncFile : Nat
  written : Nat
  durable : Nat
  syncing : Option Capture
  failure : Bool
  closed : Bool
  syncStop : Bool
  exited : Bool
  unpublished : Bool
  nextFile : Nat
  fileOf : List Nat
  syncs : List Synced
  acked : List Nat
deriving DecidableEq, Repr

/-- A store just opened: one active segment and nothing logged. -/
def init : State where
  active := 0
  syncFile := 0
  written := 0
  durable := 0
  syncing := none
  failure := false
  closed := false
  syncStop := false
  exited := false
  unpublished := false
  nextFile := 1
  fileOf := []
  syncs := []
  acked := []

/-- How `rotateLocked` ends once the syncer is idle.  `createFails headerSync`
is `createSegment` failing; `headerSync` says that it was the fsync of the new
file's header that failed. -/
inductive RotateOutcome where
  | syncFails
  | createFails (headerSync : Bool)
  | rotated
deriving DecidableEq, Repr

/-- The critical sections that touch the group-commit state. -/
inductive Act where
  | write
  | publish
  | capture
  | fsync (ok : Bool)
  | complete
  | exit
  | rotate (o : RotateOutcome)
  | ack (seq : Nat)
  | timeout (seq : Nat)
  | storeFails
  | close
  | stop
  | closeSync (ok : Bool)
deriving DecidableEq, Repr

/-- `setFailure`: the store refuses every operation from here on. -/
def setFailure (s : State) : State :=
  { s with failure := true }

/-- A successful fsync of the active file by a goroutine that holds every lock:
all that was written is durable. -/
def syncActive (s : State) : State :=
  { s with
    durable := if s.written > s.durable then s.written else s.durable
    syncs := ⟨s.active, s.fileOf.length⟩ :: s.syncs }

/-- `rotateLocked` with the syncer idle and no failure recorded: flush the
active file, raise `durable` to `written`, and put a fresh file in its place. -/
def rotateLocked (s : State) : RotateOutcome → State
  | .syncFails => setFailure s
  | .createFails _ => syncActive s
  | .rotated =>
    { syncActive s with
      active := s.nextFile
      syncFile := s.nextFile
      nextFile := s.nextFile + 1 }

/-- One critical section; `none` when it is not enabled. -/
def step (s : State) : Act → Option State
  | .write =>
    -- a failure recorded after `begin` does not stop the write, so it is no guard
    if s.unpublished ∨ s.closed then none
    else some { s with unpublished := true, fileOf := s.fileOf ++ [s.active] }
  | .publish =>
    if s.unpublished then
      some { s with unpublished := false, written := s.written + 1 }
    else none
  | .capture =>
    if s.exited = false ∧ s.syncing = none ∧ s.failure = false
        ∧ s.written ≠ s.durable then
      some { s with syncing := some ⟨s.written, s.syncFile, s.fileOf.length, none⟩ }
    else none
  | .fsync ok =>
    match s.syncing with
    | some ⟨target, file, upto, none⟩ =>
      some { s with
        syncing := some ⟨target, file, upto, some ok⟩
        syncs := if ok then ⟨file, upto⟩ :: s.syncs else s.syncs }
    | _ => none
  | .complete =>
    match s.syncing with
    | some ⟨target, _, _, some true⟩ =>
      some { s with
        syncing := none
        durable := if target > s.durable then target else s.durable }
    | some ⟨_, _, _, some false⟩ =>
      some (setFailure { s with syncing := none })
    | _ => none
  | .exit =>
    if s.exited = false ∧ s.syncing = none
        ∧ (s.failure = true ∨ (s.syncStop = true ∧ s.written = s.durable)) then
      some { s with exited := true }
    else none
  | .rotate o =>
    if s.unpublished = false ∧ s.syncing = none ∧ s.failure = false then
      some (rotateLocked s o)
    else none
  | .ack seq =>
    if s.durable ≥ seq then some { s with acked := seq :: s.acked } else none
  | .timeout seq =>
    if s.durable < seq then some (setFailure s) else none
  | .storeFails => some (setFailure s)
  | .close =>
    if s.unpublished then none else some { s with closed := true }
  | .stop =>
    if s.closed then some { s with syncStop := true } else none
  | .closeSync ok =>
    -- Close waits for the loop and skips the fsync on a failed store
    if s.closed = true ∧ s.unpublished = false ∧ s.syncing = none
        ∧ s.exited = true ∧ s.failure = false then
      some (if ok then syncActive s else setFailure s)
    else none

/-- An fsync on a file that holds log entries returned an error. -/
def Act.failsEntrySync : Act → Bool
  | .fsync ok => !ok
  | .rotate .syncFails => true
  | .closeSync ok => !ok
  | _ => false

/-- Some fsync of the log returned an error, the one on a new segment's header
included. -/
def Act.failsSync : Act → Bool
  | .rotate (.createFails headerSync) => headerSync
  | a => a.failsEntrySync

/-- Entry number `i` (from 0) was flushed: a successful fsync of the file it was
written to was issued after it was written. -/
def Covered (s : State) (i : Nat) : Prop :=
  ∃ y ∈ s.syncs, s.fileOf[i]? = some y.file ∧ i < y.upto

/-- What every step of the protocol keeps. -/
structure Inv (s : State) : Prop where
  count : s.written + (if s.unpublished then 1 else 0) = s.fileOf.length
  sameFile : s.syncFile = s.active
  durable_le : s.durable ≤ s.written
  covered : ∀ i, i < s.durable → Covered s i
  /-- entries that are not durable yet are all in the active file -/
  tail : ∀ i, s.durable ≤ i → i < s.fileOf.length → s.fileOf[i]? = some s.active
  capture : ∀ c, s.syncing = some c →
    c.file = s.active ∧ c.target ≤ s.written ∧
      c.target ≤ c.upto ∧ c.upto ≤ s.fileOf.length
  flushed : ∀ c, s.syncing = some c → c.result = some true →
    ∀ i, i < c.target → Covered s i
  acked_le : ∀ seq ∈ s.acked, seq ≤ s.durable

theorem inv_init : Inv init := by
  constructor <;> simp [init]

variable {s t : State} {i upto target file d : Nat} {as : List Act}

/-- A flushed entry stays flushed: the two ghost logs only grow. -/
theorem Covered.mono (h : Covered s i) (hsyncs : ∀ y ∈ s.syncs, y ∈ t.syncs)
    (hfiles : ∃ more, t.fileOf = s.fileOf ++ more) : Covered t i := by
  obtain ⟨y, hy, hf, hlt⟩ := h
  obtain ⟨more, hmore⟩ := hfiles
  refine ⟨y, hsyncs y hy, ?_, hlt⟩
  obtain ⟨hi, -⟩ := List.getElem?_eq_some_iff.mp hf
  rw [hmore, List.getElem?_append_left hi]
  exact hf

/-- An fsync of the active file flushes every entry written before it was
issued: those below `durable` were flushed already, and all the others are in
that file. -/
theorem covered_of_active_sync (hinv : Inv s) (hi : i < upto) (hupto : upto ≤ s.fileOf.length)
    (hfiles : t.fileOf = s.fileOf) (hsyncs : t.syncs = ⟨s.active, upto⟩ :: s.syncs) :
    Covered t i := by
  by_cases hd : i < s.durable
  · refine (hinv.covered i hd).mono ?_ ⟨[], by simp [hfiles]⟩
    intro y hy
    rw [hsyncs]
    exact mem_cons_of_mem _ hy
  · refine ⟨⟨s.active, upto⟩, ?_, ?_, hi⟩
    · rw [hsyncs]
      exact mem_cons_self
    · rw [hfiles]
      exact hinv.tail i (Nat.le_of_not_lt hd) (Nat.lt_of_lt_of_le hi hupto)

theorem inv_setFailure (hinv : Inv s) : Inv (setFailure s) :=
  ⟨hinv.count, hinv.sameFile, hinv.durable_le, hinv.covered, hinv.tail,
    hinv.capture, hinv.flushed, hinv.acked_le⟩

theorem inv_idle (hinv : Inv s) : Inv { s with syncing := none } :=
  ⟨hinv.count, hinv.sameFile, hinv.durable_le, hinv.covered, hinv.tail,
    by simp, by simp, hinv.acked_le⟩

theorem inv_write (hinv : Inv s) (hun : s.unpublished = false) :
    Inv { s with unpublished := true, fileOf := s.fileOf ++ [s.active] } := by
  have hcount : s.written = s.fileOf.length := by
    simpa [hun] using hinv.count
  have hmono :
      ∀ i, Covered s i →
        Covered { s with unpublished := true, fileOf := s.fileOf ++ [s.active] } i :=
    fun i hi => hi.mono (fun y hy => hy) ⟨[s.active], rfl⟩
  refine ⟨by simp [hcount], hinv.sameFile, hinv.durable_le,
    fun i hi => hmono i (hinv.covered i hi), ?_, ?_,
    fun c hc hr i hi => hmono i (hinv.flushed c hc hr i hi), hinv.acked_le⟩
  · intro i hd hi
    simp only [length_append, length_singleton] at hi
    by_cases hold : i < s.fileOf.length
    · rw [List.getElem?_append_left hold]
      exact hinv.tail i hd hold
    · obtain rfl : i = s.fileOf.length := by omega
      simp
  · intro c hc
    obtain ⟨hfile, hw, ht, hu⟩ := hinv.capture c hc
    simp only [length_append, length_singleton]
    omega

theorem inv_publish (hinv : Inv s) (hun : s.unpublished = true) :
    Inv { s with unpublished := false, written := s.written + 1 } := by
  refine ⟨?_, hinv.sameFile, Nat.le_succ_of_le hinv.durable_le, hinv.covered,
    hinv.tail, ?_, hinv.flushed, hinv.acked_le⟩
  · simpa [hun] using hinv.count
  · intro c hc
    obtain ⟨hfile, hw, ht, hu⟩ := hinv.capture c hc
    exact ⟨hfile, Nat.le_succ_of_le hw, ht, hu⟩

theorem inv_raise {n : Nat} (hinv : Inv s) (hn : n ≤ s.written) (hcov : ∀ i, i < n → Covered s i) :
    Inv { s with durable := if n > s.durable then n else s.durable } := by
  have hle : s.durable ≤ if n > s.durable then n else s.durable := by
    split <;> omega
  have hd := hinv.durable_le
  refine ⟨hinv.count, hinv.sameFile, ?_, ?_, ?_, hinv.capture, hinv.flushed, ?_⟩
  · show (if n > s.durable then n else s.durable) ≤ s.written
    split <;> omega
  · intro i hi
    by_cases hin : i < n
    · exact hcov i hin
    · refine hinv.covered i ?_
      simp only at hi
      split at hi <;> omega
  · intro i hi
    exact hinv.tail i (Nat.le_trans hle hi)
  · intro seq hseq
    exact Nat.le_trans (hinv.acked_le seq hseq) hle

theorem inv_record_sync (upto : Nat) (hinv : Inv s) :
    Inv { s with syncs := ⟨s.active, upto⟩ :: s.syncs } := by
  have hmono :
      ∀ i, Covered s i → Covered { s with syncs := ⟨s.active, upto⟩ :: s.syncs } i :=
    fun i hi => hi.mono (fun y hy => mem_cons_of_mem _ hy) ⟨[], by simp⟩
  exact ⟨hinv.count, hinv.sameFile, hinv.durable_le,
    fun i hi => hmono i (hinv.covered i hi), hinv.tail, hinv.capture,
    fun c hc hr i hi => hmono i (hinv.flushed c hc hr i hi), hinv.acked_le⟩

theorem inv_syncActive (hinv : Inv s) : Inv (syncActive s) := by
  have hcount := hinv.count
  refine inv_raise (s := { s with syncs := ⟨s.active, s.fileOf.length⟩ :: s.syncs })
    (inv_record_sync s.fileOf.length hinv) (Nat.le_refl _) ?_
  intro i hi
  refine covered_of_active_sync hinv ?_ (Nat.le_refl _) rfl rfl
  omega

/-- With everything written durable and no fsync running, the active file may
be replaced. -/
theorem inv_rotated (hinv : Inv s) (hun : s.unpublished = false) (hidle : s.syncing = none) :
    Inv (rotateLocked s .rotated) := by
  have hsync := inv_syncActive hinv
  have hcount : s.written = s.fileOf.length := by
    simpa [hun] using hinv.count
  refine ⟨hsync.count, rfl, hsync.durable_le, hsync.covered, ?_, ?_, ?_,
    hsync.acked_le⟩
  · intro i hd hi
    -- no entry is left above `durable`
    have hd' : (if s.written > s.durable then s.written else s.durable) ≤ i := hd
    have hi' : i < s.fileOf.length := hi
    split at hd' <;> omega
  · intro c hc
    cases hidle.symm.trans hc
  · intro c hc
    cases hidle.symm.trans hc

theorem inv_rotateLocked (hinv : Inv s) (hun : s.unpublished = false) (hidle : s.syncing = none)
    (o : RotateOutcome) : Inv (rotateLocked s o) := by
  cases o with
  | syncFails => exact inv_setFailure hinv
  | createFails headerSync => exact inv_syncActive hinv
  | rotated => exact inv_rotated hinv hun hidle

theorem inv_capture (hinv : Inv s) :
    Inv { s with syncing := some ⟨s.written, s.syncFile, s.fileOf.length, none⟩ } := by
  have hcount := hinv.count
  refine ⟨hinv.count, hinv.sameFile, hinv.durable_le, hinv.covered, hinv.tail,
    ?_, ?_, hinv.acked_le⟩
  · intro c hc
    simp only [Option.some.injEq] at hc
    subst hc
    exact ⟨hinv.sameFile, Nat.le_refl _, by simp only; omega, Nat.le_refl _⟩
  · intro c hc hr
    simp only [Option.some.injEq] at hc
    subst hc
    cases hr

theorem inv_fsync {ok : Bool} (hinv : Inv s) (hcap : s.syncing = some ⟨target, file, upto, none⟩) :
    Inv { s with
      syncing := some ⟨target, file, upto, some ok⟩
      syncs := if ok then ⟨file, upto⟩ :: s.syncs else s.syncs } := by
  obtain ⟨hfile, hw, ht, hu⟩ := hinv.capture _ hcap
  subst hfile
  cases ok with
  | false =>
    refine ⟨hinv.count, hinv.sameFile, hinv.durable_le, hinv.covered, hinv.tail,
      ?_, ?_, hinv.acked_le⟩
    · intro c hc
      simp only [Option.some.injEq] at hc
      subst hc
      exact ⟨rfl, hw, ht, hu⟩
    · intro c hc hr
      simp only [Option.some.injEq] at hc
      subst hc
      cases hr
  | true =>
    have hrec := inv_record_sync upto hinv
    refine ⟨hrec.count, hrec.sameFile, hrec.durable_le, hrec.covered, hrec.tail,
      ?_, ?_, hrec.acked_le⟩
    · intro c hc
      simp only [Option.some.injEq] at hc
      subst hc
      exact ⟨rfl, hw, ht, hu⟩
    · intro c hc hr i hi
      simp only [Option.some.injEq] at hc
      subst hc
      exact covered_of_active_sync hinv (Nat.lt_of_lt_of_le hi ht) hu rfl rfl

theorem inv_complete (hinv : Inv s) (hcap : s.syncing = some ⟨target, file, upto, some true⟩) :
    Inv { s with
      syncing := none
      durable := if target > s.durable then target else s.durable } :=
  inv_idle (inv_raise hinv (hinv.capture _ hcap).2.1 (hinv.flushed _ hcap rfl))

theorem inv_ack {seq : Nat} (hinv : Inv s) (hle : s.durable ≥ seq) :
    Inv { s with acked := seq :: s.acked } := by
  refine ⟨hinv.count, hinv.sameFile, hinv.durable_le, hinv.covered, hinv.tail,
    hinv.capture, hinv.flushed, ?_⟩
  intro n hn
  rcases mem_cons.mp hn with rfl | hn
  · exact hle
  · exact hinv.acked_le n hn

theorem inv_step (s : State) (a : Act) (t : State) (hinv : Inv s) (hstep : step s a = some t) :
    Inv t := by
  cases a with
  | write =>
    simp only [step, Option.ite_none_left_eq_some, Option.some.injEq, not_or] at hstep
    obtain ⟨⟨hun, -⟩, rfl⟩ := hstep
    exact inv_write hinv (by simpa using hun)
  | publish =>
    obtain ⟨hun, rfl⟩ := of_guard hstep
    exact inv_publish hinv hun
  | capture =>
    obtain ⟨-, rfl⟩ := of_guard hstep
    exact inv_capture hinv
  | fsync ok =>
    simp only [step] at hstep
    split at hstep
    · next target file upto hcap =>
      cases hstep
      exact inv_fsync hinv hcap
    · cases hstep
  | complete =>
    simp only [step] at hstep
    split at hstep
    · next target file upto hcap =>
      cases hstep
      exact inv_complete hinv hcap
    · cases hstep
      exact inv_setFailure (inv_idle hinv)
    · cases hstep
  | exit | stop =>
    obtain ⟨-, rfl⟩ := of_guard hstep
    exact ⟨hinv.count, hinv.sameFile, hinv.durable_le, hinv.covered, hinv.tail,
      hinv.capture, hinv.flushed, hinv.acked_le⟩
  | rotate o =>
    obtain ⟨⟨hun, hidle, -⟩, rfl⟩ := of_guard hstep
    exact inv_rotateLocked hinv hun hidle o
  | ack seq =>
    obtain ⟨hle, rfl⟩ := of_guard hstep
    exact inv_ack hinv hle
  | timeout seq =>
    obtain ⟨-, rfl⟩ := of_guard hstep
    exact inv_setFailure hinv
  | storeFails =>
    cases hstep
    exact inv_setFailure hinv
  | close =>
    obtain ⟨-, rfl⟩ := of_guard_not hstep
    exact ⟨hinv.count, hinv.sameFile, hinv.durable_le, hinv.covered, hinv.tail,
      hinv.capture, hinv.flushed, hinv.acked_le⟩
  | closeSync ok =>
    obtain ⟨-, rfl⟩ := of_guard hstep
    cases ok with
    | false => exact inv_setFailure hinv
    | true => exact inv_syncActive hinv

theorem inv_run (hrun : Lib.run step init as = some s) : Inv s :=
  Lib.run_invariant step inv_step inv_init hrun

/-- The state after an fsync on log entries has failed: `durable` stands at `d`
and nothing that could raise it is enabled any more. -/
structure Frozen (d : Nat) (s : State) : Prop where
  durable : s.durable = d
  acked_le : ∀ seq ∈ s.acked, seq ≤ d
  stuck : (∃ c, s.syncing = some c ∧ c.result = some false) ∨
    (s.syncing = none ∧ s.failure = true)

theorem frozen_of_failsEntrySync {a : Act} (hinv : Inv s) (hfail : a.failsEntrySync = true)
    (hstep : step s a = some t) : Frozen s.durable t := by
  cases a with
  | fsync ok =>
    obtain rfl : ok = false := by simpa [Act.failsEntrySync] using hfail
    simp only [step] at hstep
    split at hstep
    · cases hstep
      exact ⟨rfl, hinv.acked_le, .inl ⟨_, rfl, rfl⟩⟩
    · cases hstep
  | rotate o =>
    cases o with
    | syncFails =>
      obtain ⟨⟨-, hidle, -⟩, rfl⟩ := of_guard hstep
      exact ⟨rfl, hinv.acked_le, .inr ⟨hidle, rfl⟩⟩
    | createFails headerSync => cases hfail
    | rotated => cases hfail
  | closeSync ok =>
    obtain rfl : ok = false := by simpa [Act.failsEntrySync] using hfail
    obtain ⟨⟨-, -, hidle, -⟩, rfl⟩ := of_guard hstep
    exact ⟨rfl, hinv.acked_le, .inr ⟨hidle, rfl⟩⟩
  | _ => cases hfail

/-- The sync loop never holds a capture whose fsync may still succeed. -/
theorem Frozen.result_eq {c : Capture} (h : Frozen d s) (hc : s.syncing = some c) :
    c.result = some false := by
  rcases h.stuck with ⟨c', hc', hr⟩ | ⟨hidle, -⟩
  · cases hc'.symm.trans hc
    exact hr
  · cases hidle.symm.trans hc

/-- With the loop idle the failure is on record, so every guard that asks for
none is closed. -/
theorem Frozen.failure_of_idle (h : Frozen d s) (hidle : s.syncing = none) : s.failure = true := by
  rcases h.stuck with ⟨c, hc, -⟩ | ⟨-, hf⟩
  · cases hidle.symm.trans hc
  · exact hf

theorem Frozen.setFailure (h : Frozen d s) : Frozen d (setFailure s) :=
  ⟨h.durable, h.acked_le, h.stuck.imp id fun hs => ⟨hs.1, rfl⟩⟩

theorem frozen_step (s : State) (a : Act) (t : State) (h : Frozen d s) (hstep : step s a = some t) :
    Frozen d t := by
  cases a with
  | write | close =>
    obtain ⟨-, rfl⟩ := of_guard_not hstep
    exact ⟨h.durable, h.acked_le, h.stuck⟩
  | publish | exit | stop =>
    obtain ⟨-, rfl⟩ := of_guard hstep
    exact ⟨h.durable, h.acked_le, h.stuck⟩
  | capture =>
    simp only [step, Option.ite_none_right_eq_some] at hstep
    obtain ⟨⟨-, hidle, hf, -⟩, -⟩ := hstep
    simp [h.failure_of_idle hidle] at hf
  | fsync ok =>
    simp only [step] at hstep
    split at hstep
    · next hcap => cases h.result_eq hcap
    · cases hstep
  | complete =>
    simp only [step] at hstep
    split at hstep
    · next hcap => cases h.result_eq hcap
    · cases hstep
      exact ⟨h.durable, h.acked_le, .inr ⟨rfl, rfl⟩⟩
    · cases hstep
  | rotate o =>
    simp only [step, Option.ite_none_right_eq_some] at hstep
    obtain ⟨⟨-, hidle, hf⟩, -⟩ := hstep
    simp [h.failure_of_idle hidle] at hf
  | ack seq =>
    obtain ⟨hle, rfl⟩ := of_guard hstep
    refine ⟨h.durable, ?_, h.stuck⟩
    intro n hn
    rcases mem_cons.mp hn with rfl | hn
    · exact h.durable ▸ hle
    · exact h.acked_le n hn
  | timeout seq =>
    obtain ⟨-, rfl⟩ := of_guard hstep
    exact h.setFailure
  | storeFails =>
    cases hstep
    exact h.setFailure
  | closeSync ok =>
    simp only [step, Option.ite_none_right_eq_some] at hstep
    obtain ⟨⟨-, -, hidle, -, hf⟩, -⟩ := hstep
    simp [h.failure_of_idle hidle] at hf

/-- After a failing fsync that `failed` recognises, no entry that was not
durable by then is ever acknowledged. -/
def NoAckAfter (failed : Act → Bool)
    (as : List Act) (s : State) : Prop :=
  ∀ pre a post t,
    as = pre ++ a :: post →
    Lib.run step init pre = some t →
    failed a = true →
    ∀ seq ∈ s.acked, seq ≤ t.durable

theorem noAckAfter_failsEntrySync (hrun : Lib.run step init as = some s) :
    NoAckAfter Act.failsEntrySync as s := by
  intro pre a post t has hpre hfail
  subst has
  obtain ⟨t', ht', hpost⟩ := (Lib.run_append_eq_some step).mp hrun
  obtain rfl : t' = t := by
    rw [hpre] at ht'
    exact (Option.some.injEq _ _ ▸ ht').symm
  obtain ⟨u, hu, hrest⟩ := (Lib.run_cons_eq_some step).mp hpost
  have hfrozen : Frozen t'.durable u :=
    frozen_of_failsEntrySync (inv_run hpre) hfail hu
  exact (Lib.run_invariant step frozen_step hfrozen hrest).acked_le

/--
**Group commit acknowledges only durable entries.**  In every interleaving,
`durable` never exceeds `written`; a position for which `waitDurable` returned
nil has every entry up to it flushed on the file it was written to, by an fsync
issued after it was written; and once an fsync on a file that holds entries has
failed, no entry that was not durable by then is ever acknowledged.
-/
theorem ack_only_durable (as : List Act) (s : State) (hrun : Lib.run step init as = some s) :
    s.durable ≤ s.written ∧
    (∀ seq ∈ s.acked, ∀ i, 1 ≤ i → i ≤ seq →
      ∃ y ∈ s.syncs, s.fileOf[i - 1]? = some y.file ∧ i ≤ y.upto) ∧
    NoAckAfter Act.failsEntrySync as s := by
  have hinv := inv_run hrun
  refine ⟨hinv.durable_le, ?_, noAckAfter_failsEntrySync hrun⟩
  intro seq hseq i hi hle
  have hdur := hinv.acked_le seq hseq
  obtain ⟨y, hy, hf, hlt⟩ := hinv.covered (i - 1) (by omega)
  exact ⟨y, hy, hf, by omega⟩

/-- Log two entries around a failed fsync of the first file. -/
def failedSyncRun : List Act :=
  [.write, .publish, .capture, .fsync true, .complete, .ack 1,
    .write, .publish, .capture, .fsync false, .complete, .timeout 2]

theorem ack_only_durable_failedSyncRun :
    ∃ s, Lib.run step init failedSyncRun = some s ∧
      s.acked = [1] ∧ s.durable ≤ s.written ∧
      NoAckAfter Act.failsEntrySync failedSyncRun s := by
  refine ⟨_, rfl, rfl, ?_, ?_⟩
  · exact (ack_only_durable failedSyncRun _ rfl).1
  · exact (ack_only_durable failedSyncRun _ rfl).2.2

/-- The header of a new segment cannot be flushed; the old segment stays
active and the next entry is logged, flushed and acknowledged. -/
def failedHeaderRun : List Act :=
  [.write, .publish, .capture, .fsync true, .complete, .ack 1,
    .rotate (.createFails true),
    .write, .publish, .capture, .fsync true, .complete, .ack 2]

/-- Counting the fsync of a new segment's header, entries are acknowledged
after a failed fsync: `createSegment` undoes the new file and the store
carries on with the old one. -/
theorem acks_after_failed_header_sync :
    ∃ s, Lib.run step init failedHeaderRun = some s ∧
      ¬ NoAckAfter Act.failsSync failedHeaderRun s := by
  refine ⟨_, rfl, ?_⟩
  intro h
  have h2 :=
    h [.write, .publish, .capture, .fsync true, .complete, .ack 1]
      (.rotate (.createFails true))
      [.write, .publish, .capture, .fsync true, .complete, .ack 2]
      _ rfl rfl rfl 2 (by decide)
  revert h2
  decide

end GroupCommit
end Dlq
end GoGuard
