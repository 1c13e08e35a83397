import GoGuard.Dlq.Payloads

/-!
# A log that was written is recovered

A `Layout` is what the files of a log hold: the newest snapshot and the entries
behind it, segment by segment.  Recovery of such files gives a machine that
stands for the queue of the whole log, as a restart leaves it, with every payload
read back from the files (`Layout.Ok.opened`).
-/

namespace GoGuard
namespace Dlq

open Lib Machine Queue List

namespace Queue

/-- Every record is as a log holds it. -/
def Stored (q : Queue) : Prop :=
  ∀ r ∈ q.recs, r.stored = r

theorem Stored.settled_eq {q : Queue} (h : Stored q) : q.settled = q.reborn := by
  refine congrArg₂ Queue.mk (map_congr_left fun r hr => ?_) rfl
  rw [Record.reborn, h r hr]

theorem stored_change {e : Entry} {c : Bytes × Change} {r r' : Record} (hc : c ∈ e.stored.changes)
    (hr : r.stored = r) (hr' : c.2 r = some r') : r'.stored = r' := by
  have hfirst : storedTime r.firstFailed = r.firstFailed := congrArg Record.firstFailed hr
  have hlast : storedTime r.lastFailed = r.lastFailed := congrArg Record.lastFailed hr
  have hnext : storedTime r.nextAttempt = r.nextAttempt := congrArg Record.nextAttempt hr
  cases e with
  | append r => cases hc
  | lease ids =>
    obtain ⟨id, -, rfl⟩ := mem_map.mp hc
    cases hr'
    simp [Record.stored, Record.lease, hfirst, hlast, hnext]
  | checkpoint id cp =>
    obtain rfl := mem_singleton.mp hc
    cases hr'
    simp [Record.stored, Record.setCheckpoint, hfirst, hlast, hnext]
  | ack id =>
    obtain rfl := mem_singleton.mp hc
    cases hr'
  | nack id stamp next errText blockedOn refund =>
    obtain rfl := mem_singleton.mp hc
    cases hr'
    simp [Record.stored, Record.nack, hfirst, storedTime_storedTime]
  | release id =>
    obtain rfl := mem_singleton.mp hc
    cases hr'
    simp [Record.stored, Record.release, hfirst, hlast, hnext]
  | park id stamp reason =>
    obtain rfl := mem_singleton.mp hc
    cases hr'
    simp [Record.stored, Record.park, hfirst, storedTime_storedTime, hnext]
  | requeue id replace cp =>
    obtain rfl := mem_singleton.mp hc
    simp only [requeueChange] at hr'
    split at hr'
    · cases hr'
      cases replace <;>
        simp [Record.stored, Record.requeue, Record.setCheckpoint, hfirst, hlast,
          storedTime_zero]
    · cases hr'
      exact hr
  | discard id =>
    obtain rfl := mem_singleton.mp hc
    obtain ⟨-, rfl⟩ := of_guard_not hr'
    exact hr

theorem Stored.apply {q : Queue} (h : Stored q) (e : Entry) : Stored (q.apply e.stored) := by
  refine apply_induction h ?_ ?_
  · intro r hr x hx
    unfold push at hx
    split at hx
    · exact h x hx
    · rcases mem_append.mp hx with hx | hx
      · exact h x hx
      · obtain rfl := mem_singleton.mp hx
        cases e with
        | append y =>
          cases hr
          exact Record.stored_stored y
        | _ => cases hr
  · intro c hc q hq x hx
    obtain ⟨y, hy, ⟨-, hxy⟩ | ⟨-, rfl⟩⟩ := mem_touch.mp hx
    · exact stored_change hc (hq y hy) hxy
    · exact hq y hy

theorem Stored.replay {q : Queue} (h : Stored q) (es : List Entry) :
    Stored (q.replay (es.map Entry.stored)) := by
  induction es generalizing q with
  | nil => exact h
  | cons e es ih => exact ih (h.apply e)

/-- A log stays fair when it is read back over a queue that was read back. -/
theorem FairLog.restart {q q' : Queue} {es : List Entry} (h : FairLog q es)
    (hq : q'.reborn = q.reborn) : FairLog q' (es.map Entry.stored) := by
  induction es generalizing q q' with
  | nil => trivial
  | cons e es ih => exact ⟨h.1.restart hq, ih h.2 (reborn_apply hq e)⟩

end Queue

section Replay

variable {R : Item → Record → Prop} {offload : Bool}

variable {m : Machine} {q : Queue} {xs : List (Entry × BlobRef)} {sg : Option Signer} {d : Dir}

theorem Shows.replayAll (h : Indexed m) (hs : Shows R m q)
    (hfind : ∀ x ∈ xs, Finds R offload x.2 x.1 x.1) (hfair : FairLog q (xs.map Prod.fst)) :
    Indexed (replayAll offload m xs) ∧
      Shows R (replayAll offload m xs) (q.replay (xs.map Prod.fst)) := by
  induction xs generalizing m q with
  | nil => exact ⟨h, hs⟩
  | cons x xs ih =>
    have hx := hfind x mem_cons_self
    exact ih (Indexed.applyFair h hs hx hfair.1) (hs.applyEntry h hx)
      (fun y hy => hfind y (mem_cons_of_mem _ hy)) hfair.2

theorem sees_newItems {xs : List (Record × BlobRef)} (offload : Bool)
    (h : ∀ x ∈ xs, RecordAt sg d x.2 x.1) :
    List.Forall₂ (fun x r₀ => Sees sg offload d (newItem offload x.1 x.2) r₀) xs
      (xs.map Prod.fst) := by
  induction xs with
  | nil => exact .nil
  | cons x xs ih =>
    exact .cons (sees_newItem fun _ => h x mem_cons_self)
      (ih fun y hy => h y (mem_cons_of_mem _ hy))

/-- Entries that are replayed over the queue of those before them, and the end of the
replay. -/
theorem Shows.restored {done es : List Entry} (hs : Shows (Sees sg offload d) m q) (h : Indexed m)
    (hstored : q.Stored) (hreborn : q.reborn = (empty.replay done).reborn)
    (hfair : FairLog empty (done ++ es)) (hat : ∀ x ∈ xs, EntryAt sg d x.2 x.1)
    (hxs : xs.map Prod.fst = es.map Entry.stored) :
    Indexed (Dlq.replayAll offload m xs).endReplay ∧
      Shows (Sees sg offload d) (Dlq.replayAll offload m xs).endReplay
        (empty.replay (done ++ es)).reborn := by
  have hfair' : FairLog q (xs.map Prod.fst) := by
    rw [hxs]
    exact (fairLog_append.mp hfair).2.restart hreborn
  obtain ⟨hindexed, hshows⟩ :=
    hs.replayAll h (fun x hx => EntryAt.finds fun _ => hat x hx) hfair'
  obtain ⟨hindexed', hshows'⟩ := hshows.endReplay hindexed
  refine ⟨hindexed', ?_⟩
  rw [hxs, (hstored.replay es).settled_eq, reborn_replay hreborn, ← replay_append] at hshows'
  exact hshows'

theorem map_fst_placed (sg : Option Signer) (start off lsn : Nat) (es : List Entry) :
    (placed sg start off lsn es).map Prod.fst = es.map Entry.stored := by
  induction es generalizing off lsn with
  | nil => rfl
  | cons e es ih => rw [placed, map_cons, map_cons, ih]

theorem map_fst_placedParts (sgs : Signing) (start : Nat) (parts : List (List Entry)) :
    (placedParts sgs start parts).map Prod.fst = parts.flatten.map Entry.stored := by
  induction parts generalizing start with
  | nil => rfl
  | cons es parts ih =>
    rw [placedParts, map_append, map_fst_placed, ih, flatten_cons, map_append]

theorem map_fst_placedRecs (sg : Option Signer) (lsn off : Nat) (recs : List Record) :
    (placedRecs sg lsn off recs).map Prod.fst = recs.map Record.stored := by
  induction recs generalizing off with
  | nil => rfl
  | cons r recs ih => rw [placedRecs, map_cons, map_cons, ih]

end Replay

section Layouts

/-- What the files of a log hold: the newest snapshot and the entries behind it,
segment by segment. -/
structure Layout where
  snap : Option File
  parts : List (List Entry)

/-- The LSN of the newest snapshot. -/
def Layout.base (l : Layout) : Nat :=
  (l.snap.map File.id).getD 0

/-- The directory of an open log. -/
def Layout.dir (sgs : Signing) (l : Layout) (aside : List Bytes) : Dir :=
  ⟨segFiles sgs (l.base + 1) l.parts, l.snap.toList, aside⟩

/-- The machine replay begins with. -/
def loadBase (o : WalOptions) : Option File → Except OpenError Machine
  | none => .ok (newMachine o.lim)
  | some f => loadSnapshot o f

/-- The snapshot holds the queue that its part of the log makes, and can be read
back. -/
def SnapOf (sgs : Signing) (log : List Entry) (f : File) : Prop :=
  ∃ q : Queue, f.data = snapData (sgs (f.id + 1)) f.id q.recs q.seq ∧
    (∀ r ∈ q.recs, Snappable (sgs (f.id + 1)) f.id r) ∧ q.seq < 2 ^ 64 ∧
      q.reborn = (empty.replay (log.take f.id)).reborn

/-- The files hold the log. -/
structure Layout.Ok (sgs : Signing) (log : List Entry) (l : Layout) : Prop where
  parts_ne : l.parts ≠ []
  filled : Filled l.parts
  base_le : l.base ≤ log.length
  flatten : l.parts.flatten = log.drop l.base
  readable : LogReadable sgs 1 log
  parts_readable : PartsReadable sgs (l.base + 1) l.parts
  lsn_lt : log.length + 1 < 2 ^ 64
  fair : FairLog empty log
  snap : ∀ f, l.snap = some f → SnapOf sgs log f

variable {o : WalOptions} {sgs : Signing} {log : List Entry} {l : Layout}

theorem recover_eq {d : Dir} {snap : Option File} {m : Machine}
    (hsnap : (sorted d.snaps).getLast? = snap) (hload : loadBase o snap = .ok m) :
    recover o d = recoverFrom o m ((snap.map File.id).getD 0) d snap.toList := by
  unfold recover
  rw [hsnap]
  cases snap with
  | none =>
    cases hload
    rfl
  | some f =>
    have hf : loadSnapshot o f = .ok m := hload
    simp only [hf]
    rfl

/-- Seqs are distinct, so there are no more records than Seqs. -/
theorem Queue.Ordered.length_le {q : Queue} (h : Ordered q) : q.recs.length ≤ q.seq := by
  have hnodup : (q.recs.map Record.seq).Nodup := by
    refine pairwise_map.mpr (h.asc.imp fun {a b} hab => ?_)
    exact Nat.ne_of_lt hab
  have hsub : (q.recs.map Record.seq).toFinset ⊆ Finset.Icc 1 q.seq := by
    intro k hk
    obtain ⟨r, hr, rfl⟩ := mem_map.mp (mem_toFinset.mp hk)
    exact Finset.mem_Icc.mpr ⟨h.pos r hr, h.le r hr⟩
  have hcard := Finset.card_le_card hsub
  rw [toFinset_card_of_nodup hnodup, length_map, Nat.card_Icc] at hcard
  omega

theorem SnapOf.load {f : File} {d : Dir} (hsg : o.Reads (sgs (f.id + 1))) (h : SnapOf sgs log f)
    (hfair : FairLog empty log) (hid : f.id < 2 ^ 64) (hfile : d.file true f.id = some f.data) :
    ∃ m q, loadSnapshot o f = .ok m ∧ Indexed m ∧ Shows (Sees o.signer o.offload d) m q ∧ q.Stored ∧
      q.reborn = (empty.replay (log.take f.id)).reborn := by
  obtain ⟨q, hdata, hsnap, hseq, hreborn⟩ := h
  have hfair' : FairLog empty (log.take f.id) := by
    rw [← take_append_drop f.id log, fairLog_append] at hfair
    exact hfair.1
  have hordered : Ordered q := ordered_of_fair hfair' hreborn
  have hstored : (⟨q.recs.map Record.stored, q.seq⟩ : Queue).reborn = q.reborn := by
    refine congrArg₂ Queue.mk ?_ rfl
    rw [map_map]
    exact map_congr_left fun r _ => Record.reborn_stored r
  have hordered' : Ordered ⟨q.recs.map Record.stored, q.seq⟩ := by
    rw [← ordered_reborn, hstored, ordered_reborn]
    exact hordered
  have hload := loadSnapshot_written hsg hsnap hordered.nodup hid
    (lt_of_le_of_lt hordered.length_le hseq) hseq
  rw [← hdata] at hload
  have hat := recordAt_placedRecs (d := d) hsg.opens
    (encodeHeaderFlags snapMagic f.id (fileFlags (sgs (f.id + 1))))
    (by rw [hfile, hdata, snapData, ← append_assoc]) hsnap
  have hforall := sees_newItems o.offload hat
  rw [map_fst_placedRecs] at hforall
  obtain ⟨hindexed, hshows⟩ := shows_loaded (sight_sees o.signer o.offload d) o.lim hordered' hforall
  refine ⟨_, _, hload, hindexed, hshows, ?_, hstored.trans hreborn⟩
  intro r hr
  obtain ⟨x, -, rfl⟩ := mem_map.mp hr
  exact Record.stored_stored x

theorem Layout.Ok.load (h : l.Ok sgs log) (hsgs : ∀ n, l.base < n → o.Reads (sgs n))
    (aside : List Bytes) :
    ∃ m q, loadBase o l.snap = .ok m ∧ Indexed m ∧
      Shows (Sees o.signer o.offload (l.dir sgs aside)) m q ∧ q.Stored ∧
        q.reborn = (empty.replay (log.take l.base)).reborn := by
  cases hsnap : l.snap with
  | none =>
    have hbase : l.base = 0 := by
      unfold Layout.base
      rw [hsnap]
      rfl
    refine ⟨_, empty, rfl, indexed_new o.lim, shows_new (sight_sees _ _ _) o.lim, ?_, ?_⟩
    · exact fun r hr => nomatch hr
    · rw [hbase]
      rfl
  | some f =>
    have hbase : l.base = f.id := by
      unfold Layout.base
      rw [hsnap]
      rfl
    have hle := h.base_le
    have hlsn := h.lsn_lt
    have hfile : (l.dir sgs aside).file true f.id = some f.data := by
      simp [Dir.file, Layout.dir, hsnap]
    rw [hbase]
    exact (h.snap f hsnap).load (hsgs _ (by omega)) h.fair (by omega) hfile

/-- Recovery of the files gives a machine that stands for the queue of the log. -/
theorem Layout.Ok.opened (h : l.Ok sgs log) (hsgs : ∀ n, l.base < n → o.Reads (sgs n))
    (aside : List Bytes) :
    ∃ m, loadBase o l.snap = .ok m ∧
      (openedLog o sgs l.base m l.snap.toList aside l.parts).nextLSN = log.length + 1 ∧
        Indexed (openedLog o sgs l.base m l.snap.toList aside l.parts).m ∧
          Shows (Sees o.signer o.offload (l.dir sgs aside))
            (openedLog o sgs l.base m l.snap.toList aside l.parts).m (empty.replay log).reborn := by
  obtain ⟨m, q, hload, hindexed, hshows, hstored, hreborn⟩ := h.load hsgs aside
  have hin : PartsIn sgs (l.dir sgs aside) (l.base + 1) l.parts :=
    partsIn_segFiles [] rfl (fun _ hf => nomatch hf) h.filled
  have hat := entryAt_placedParts (fun n hn => (hsgs n hn).opens) hin h.parts_readable
  have hsplit : log = log.take l.base ++ l.parts.flatten := by
    rw [h.flatten, take_append_drop]
  have hfair := h.fair
  rw [hsplit] at hfair
  obtain ⟨hindexed', hshows'⟩ := hshows.restored hindexed hstored hreborn hfair hat
    (map_fst_placedParts sgs (l.base + 1) l.parts)
  rw [← hsplit] at hshows'
  refine ⟨m, hload, ?_, hindexed', hshows'⟩
  have hle := h.base_le
  simp only [openedLog, h.flatten, length_drop]
  omega

end Layouts

end Dlq
end GoGuard
