import GoGuard.Dlq.WalCompaction

/-!
# What is left by a crash is recovered

A crash cuts the active segment at some byte, may leave half the header of a new
one, and, when a compaction has renamed its snapshot, any of the files that the
snapshot covers.  Recovery reads the same log in every case: the entries that lie
wholly before the cut (`Wal.whole`), and sets the rest aside (`Wal.dropped`).  It
refuses a log only for what the torn bytes look like (`tailAllowed`).

With this every step of a store keeps `WalOk`, and so does every run.
-/

namespace GoGuard
namespace Dlq

open Lib Machine Queue List

section Definitions

/-- The entries of the active segment. -/
def Wal.active (w : Wal) : List Entry :=
  w.log.drop (w.activeStart - 1)

/-- The number of entries of the active segment that lie wholly before a cut. -/
def Wal.activeWhole (o : WalOptions) (w : Wal) (cut : Nat) : Nat :=
  wholeBefore o.signer w.activeStart (cut - headerSize) w.active

/-- The number of entries of the log that lie wholly before a cut of the active
segment. -/
def Wal.whole (o : WalOptions) (w : Wal) (cut : Nat) : Nat :=
  w.activeStart - 1 + w.activeWhole o cut

/-- The bytes of the frame a cut of the active segment tears. -/
def Wal.torn (o : WalOptions) (w : Wal) (cut : Nat) : Bytes :=
  (((w.segs.getLast?.map File.data).getD []).take cut).drop
    (segData o.signer w.activeStart (w.active.take (w.activeWhole o cut))).length

/-- What recovery sets aside behind a crash. -/
def Wal.dropped (o : WalOptions) (w : Wal) (c : Crash) : Bytes :=
  match c.half with
  | none => w.torn o c.cut
  | some k => (newSegment o w.nextLSN).data.take k

/-- What a crash may do to the active segment: cut it behind its header, or leave
half the header of the next one behind it. -/
def Crash.fits (w : Wal) (c : Crash) : Bool :=
  headerSize ≤ c.cut &&
    (match c.half with
    | none => true
    | some k => k < headerSize && w.activeSize > headerSize && w.activeSize ≤ c.cut)

end Definitions

section Files

variable {sgs : Signing} {start : Nat} {parts : List (List Entry)}

/-- Recovery skips what is covered and reads the segments that are numbered like
the ones behind the snapshot. -/
theorem dropCovered_left {fs : List File} (old : List File)
    (hids : fs.map File.id = (segFiles sgs start parts).map File.id) (hfilled : Filled parts)
    (hne : parts ≠ []) (hold : old.Pairwise fun a b => a.id < b.id)
    (hlt : ∀ g ∈ old, g.id < start) : dropCovered start (sorted (old ++ fs)) = fs := by
  obtain ⟨hpair, hrange, htail⟩ := segFiles_ids sgs start hfilled
  have hfs : fs.Pairwise fun a b => a.id < b.id := by
    have hmap : ((segFiles sgs start parts).map File.id).Pairwise (· < ·) :=
      pairwise_map.mpr hpair
    rw [← hids] at hmap
    exact pairwise_map.mp hmap
  have hge : ∀ f ∈ fs, start ≤ f.id := by
    intro f hf
    have hmem : f.id ∈ (segFiles sgs start parts).map File.id :=
      hids ▸ mem_map_of_mem hf
    obtain ⟨g, hg, hid⟩ := mem_map.mp hmem
    rw [← hid]
    exact (hrange g hg).1
  have hsorted : sorted (old ++ fs) = old ++ fs := by
    refine sorted_of_ascending (pairwise_append.mpr ⟨hold, hfs, ?_⟩)
    exact fun a ha b hb => lt_of_lt_of_le (hlt a ha) (hge b hb)
  obtain ⟨es, rest, rfl⟩ := exists_cons_of_ne_nil hne
  cases fs with
  | nil => cases hids
  | cons f fs =>
    obtain ⟨hfirst, hrest⟩ := List.cons.inj hids
    rw [hsorted]
    refine dropCovered_append hlt hfirst fun g hg => ?_
    have hmem : g.id ∈ (segFiles sgs (start + es.length) rest).map File.id :=
      hrest ▸ mem_map_of_mem hg
    obtain ⟨x, hx, hid⟩ := mem_map.mp hmem
    rw [← hid]
    exact htail x hx

/-- The entries of the segment that a crash leaves half created. -/
def freshPart : Option Nat → List (List Entry)
  | none => []
  | some _ => [[]]

theorem ids_left (o : WalOptions) (sgs : Signing) (start : Nat) (closed : List (List Entry))
    (active : List Entry) (data : Bytes) (half : Option Nat) :
    (segFiles sgs start closed ++
        (⟨start + closed.flatten.length, data⟩ ::
          halfSegment o (start + closed.flatten.length + active.length) half)).map File.id =
      (segFiles sgs start (closed ++ active :: freshPart half)).map File.id := by
  rw [segFiles_append, map_append, map_append]
  cases half <;> rfl

theorem filled_left {closed : List (List Entry)} {active : List Entry} {half : Option Nat}
    (h : Filled (closed ++ [active])) (hhalf : half.isSome = true → active ≠ []) :
    Filled (closed ++ active :: freshPart half) := by
  cases half with
  | none => exact h
  | some k =>
    change Filled (closed ++ [active, []])
    have happend : closed ++ [active, []] = (closed ++ [active]) ++ [[]] := by simp
    rw [happend, filled_concat]
    intro x hx
    rcases mem_append.mp hx with hx | hx
    · exact filled_concat.mp h x hx
    · rw [mem_singleton.mp hx]
      exact hhalf rfl

end Files

section Crashing

variable {o : WalOptions} {sgs : Signing} {w : Wal} {closed : List (List Entry)} {active : List Entry}
variable {c : Crash}

/-- What recovery finds behind a crash: the newest snapshot, and the segments behind
it up to the cut. -/
structure Found (o : WalOptions) (sgs : Signing) (w : Wal) (c : Crash) (active : List Entry)
    (snap : Option File) (closed : List (List Entry)) :
    Prop where
  layout : (⟨snap, closed ++ [active]⟩ : Layout).Ok sgs w.log
  start : w.activeStart = (⟨snap, []⟩ : Layout).base + 1 + closed.flatten.length
  newer : w.snapLSN ≤ (⟨snap, []⟩ : Layout).base
  kept : ∀ f ∈ segFiles sgs ((⟨snap, []⟩ : Layout).base + 1) closed, f ∈ w.segs
  newest : (sorted (w.left o c).snaps).getLast? = snap
  aside : (w.left o c).aside = w.aside
  segs : dropCovered ((⟨snap, []⟩ : Layout).base + 1) (sorted (w.left o c).segs) =
    segFiles sgs ((⟨snap, []⟩ : Layout).base + 1) closed ++
      (⟨w.activeStart, (segData o.signer w.activeStart active).take c.cut⟩ ::
        halfSegment o w.nextLSN c.half)

section

variable (h : WalOk o sgs w closed active)
include h

theorem WalOk.next_eq : w.nextLSN = w.activeStart + active.length := by
  have hlen := h.length_log
  rw [h.next, h.activeStart_eq]
  omega

theorem WalOk.own_active : sgs w.activeStart = o.signer :=
  h.own _ h.activeStart_eq.ge

theorem WalOk.found_plain
    (hhalf : c.half.isSome = true → active ≠ []) (hrenamed : w.renamed c = none) :
    Found o sgs w c active w.snap closed := by
  have hstart := h.activeStart_eq
  have hleft : w.left o c =
      ⟨cutLast c.cut w.segs ++ halfSegment o w.nextLSN c.half, w.snap.toList, w.aside⟩ := by
    unfold Wal.left
    rw [hrenamed]
  refine ⟨h.layout, hstart, le_refl _, ?_, ?_, ?_, ?_⟩
  · intro f hf
    rw [h.segs, segFiles_concat]
    exact mem_append_left _ hf
  · rw [hleft]
    cases w.snap <;> rfl
  · rw [hleft]
  · rw [hleft, h.next_eq, hstart]
    rw [h.segs, segFiles_concat, h.own _ (le_refl _), cutLast_concat, append_assoc]
    have hids := ids_left o sgs (w.snapLSN + 1) closed active
      ((segData o.signer (w.snapLSN + 1 + closed.flatten.length) active).take c.cut) c.half
    exact dropCovered_left [] hids (filled_left h.layout.filled hhalf) (by simp) .nil
      (fun g hg => nomatch hg)

theorem WalOk.found_renamed
    {k : Compaction} {f : File} {refs : List BlobRef} (hhalf : c.half.isSome = true → active ≠ [])
    (hcomp : w.comp = some k) (hcopied : k.copied = some (f, refs))
    (hrenamed : w.renamed c = some (k, f)) :
    Found o sgs w c active (some f) (closed.drop k.old) := by
  have hok := h.comp k hcomp
  obtain ⟨hid, hlayout⟩ := h.compacted hcomp hcopied
  obtain ⟨-, hdrop⟩ := h.segs_split hcomp
  have hlen := hok.flatten_length
  have hstart : w.activeStart = k.last + 1 + (closed.drop k.old).flatten.length := by
    rw [h.activeStart_eq]
    omega
  have hleft : w.left o c =
      ⟨keepSome c.oldSegs (w.segs.take k.old)
          ++ (cutLast c.cut (w.segs.drop k.old) ++ halfSegment o w.nextLSN c.half),
        (if c.oldSnap then w.snap.toList else []) ++ [f], w.aside⟩ := by
    unfold Wal.left
    rw [hrenamed]
  have hbase : (⟨some f, []⟩ : Layout).base = k.last := hid
  refine ⟨hlayout, hbase ▸ hstart, ?_, ?_, ?_, ?_, ?_⟩
  · rw [hbase]
    exact hok.lt.le
  · intro g hg
    refine mem_of_mem_drop (i := k.old) ?_
    rw [hdrop, segFiles_concat]
    exact mem_append_left _ (hbase ▸ hg)
  · rw [hleft]
    have hsorted : sorted ((if c.oldSnap then w.snap.toList else []) ++ [f]) =
        (if c.oldSnap then w.snap.toList else []) ++ [f] := by
      refine sorted_of_ascending (pairwise_append.mpr
        ⟨?_, pairwise_singleton _ _, ?_⟩)
      · cases c.oldSnap <;> cases w.snap <;> simp
      · intro a ha b hb
        rw [mem_singleton.mp hb, hid]
        have hlt := hok.lt
        have hsnap : w.snapLSN = a.id := by
          cases hold : c.oldSnap with
          | false =>
            rw [hold] at ha
            cases ha
          | true =>
            rw [hold] at ha
            unfold Wal.snapLSN
            rw [Option.mem_toList.mp ha]
            rfl
        omega
    rw [hsorted, List.getLast?_append]
    rfl
  · rw [hleft]
  · rw [hbase, hleft, h.next_eq, hstart]
    rw [hdrop, segFiles_concat, h.own _ (by omega), cutLast_concat, append_assoc]
    have hids := ids_left o sgs (k.last + 1) (closed.drop k.old) active
      ((segData o.signer (k.last + 1 + (closed.drop k.old).flatten.length) active).take c.cut)
      c.half
    have hsub := keepSome_sublist c.oldSegs (w.segs.take k.old)
    have hall : w.segs.Pairwise fun a b => a.id < b.id := by
      rw [h.segs]
      exact (segFiles_ids sgs (w.snapLSN + 1) h.layout.filled).1
    refine dropCovered_left _ hids (filled_left hlayout.filled hhalf) (by simp) ?_ ?_
    · exact hall.sublist (hsub.trans (take_sublist _ _))
    · intro g hg
      exact Nat.lt_succ_of_le (h.old_le_last hcomp g (hsub.subset hg)).2

/-- Recovery finds the log behind every crash. -/
theorem WalOk.found (hhalf : c.half.isSome = true → active ≠ []) :
    ∃ snap' closed', Found o sgs w c active snap' closed' := by
  cases hrenamed : w.renamed c with
  | none => exact ⟨_, _, h.found_plain hhalf hrenamed⟩
  | some x =>
    unfold Wal.renamed at hrenamed
    split at hrenamed
    · next last seq old entries f refs hcomp =>
      obtain ⟨hkeep, rfl⟩ := of_guard hrenamed
      refine ⟨_, _, h.found_renamed hhalf hcomp rfl ?_⟩
      unfold Wal.renamed
      rw [hcomp]
      exact if_pos hkeep
    · cases hrenamed

end

theorem Layout.Ok.cut {log : List Entry} {snap : Option File} {j : Nat}
    (h : (⟨snap, closed ++ [active]⟩ : Layout).Ok sgs log) (hj : j ≤ active.length) :
    (⟨snap, closed ++ [active.take j]⟩ : Layout).Ok sgs
      (log.take ((⟨snap, []⟩ : Layout).base + closed.flatten.length + j)) := by
  have hle : (⟨snap, []⟩ : Layout).base ≤ log.length := h.base_le
  have hflat : closed.flatten ++ active = log.drop (⟨snap, []⟩ : Layout).base := by
    have := h.flatten
    simp only [flatten_append, flatten_cons, flatten_nil, append_nil] at this
    exact this
  have hlen := congrArg List.length hflat
  have hparts : (closed ++ [active.take j]).flatten = closed.flatten ++ active.take j := by simp
  refine ⟨by simp, filled_concat.mpr (filled_concat.mp h.filled), ?_, ?_,
    ?_, ?_, ?_, ?_, ?_⟩
  · change (⟨snap, []⟩ : Layout).base ≤ _
    rw [length_take]
    omega
  · change (closed ++ [active.take j]).flatten =
      (log.take _).drop (⟨snap, []⟩ : Layout).base
    have hcount : (⟨snap, []⟩ : Layout).base + closed.flatten.length + j -
        (⟨snap, []⟩ : Layout).base = closed.flatten.length + j := by omega
    rw [drop_take, hcount, ← hflat, take_length_add_append, hparts]
  · have hread := h.readable
    rw [← take_append_drop ((⟨snap, []⟩ : Layout).base + closed.flatten.length + j) log,
      logReadable_append] at hread
    exact hread.1
  · obtain ⟨hclosed, hactive, -⟩ := partsReadable_append.mp h.parts_readable
    exact partsReadable_append.mpr ⟨hclosed, allReadable_take hactive j, trivial⟩
  · have hlsn := h.lsn_lt
    rw [length_take]
    omega
  · have hfair := h.fair
    rw [← take_append_drop ((⟨snap, []⟩ : Layout).base + closed.flatten.length + j) log,
      fairLog_append] at hfair
    exact hfair.1
  · intro f hf
    obtain ⟨q, hdata, hsnap, hseq, hreborn⟩ := h.snap f hf
    have hid : (⟨snap, []⟩ : Layout).base = f.id := by
      rw [show snap = some f from hf]
      rfl
    refine ⟨q, hdata, hsnap, hseq, ?_⟩
    rw [take_take, min_eq_left (by omega)]
    exact hreborn

theorem WalOk.active_eq (h : WalOk o sgs w closed active) : w.active = active := by
  have hflat : closed.flatten ++ active = w.log.drop w.snapLSN := by
    have := h.layout.flatten
    simp only [flatten_append, flatten_cons, flatten_nil, append_nil] at this
    exact this
  unfold Wal.active
  rw [h.activeStart_eq]
  have hstart : w.snapLSN + 1 + closed.flatten.length - 1 =
      w.snapLSN + closed.flatten.length := by omega
  rw [hstart, ← drop_drop, ← hflat, drop_left]

theorem WalOk.take_cut (h : WalOk o sgs w closed active) {cut : Nat} (hcut : headerSize ≤ cut) :
    (segData o.signer w.activeStart active).take cut =
        segData o.signer w.activeStart (active.take (w.activeWhole o cut)) ++ w.torn o cut ∧
      ∃ err, readFrame (w.torn o cut) = .error err := by
  have hread : AllReadable o.signer w.activeStart active := by
    obtain ⟨-, hactive, -⟩ := partsReadable_append.mp h.layout.parts_readable
    change AllReadable (sgs (w.snapLSN + 1 + closed.flatten.length))
      (w.snapLSN + 1 + closed.flatten.length) active at hactive
    rw [h.own _ (le_refl _)] at hactive
    rw [h.activeStart_eq]
    exact hactive
  obtain ⟨torn, err, htake, htorn⟩ := take_segData_cut hread hcut
  have hlast : (w.segs.getLast?.map File.data).getD [] =
      segData o.signer w.activeStart active := by
    rw [h.getLast, h.activeStart_eq]
    rfl
  have hwhole : w.activeWhole o cut =
      wholeBefore o.signer w.activeStart (cut - headerSize) active := by
    unfold Wal.activeWhole
    rw [h.active_eq]
  have heq : w.torn o cut = torn := by
    unfold Wal.torn
    rw [hlast, h.active_eq, hwhole, htake, drop_left]
  rw [heq, hwhole]
  exact ⟨htake, err, htorn⟩

theorem WalOk.whole_le (h : WalOk o sgs w closed active) (cut : Nat) :
    w.activeWhole o cut ≤ active.length := by
  unfold Wal.activeWhole
  rw [h.active_eq]
  exact wholeBefore_le _ _ _ _

theorem EndsAt.le_whole {n k cut : Nat} (hends : EndsAt o.signer w.snapLSN closed active n k)
    (h : WalOk o sgs w closed active) (hcut : k ≤ cut) : n ≤ w.whole o cut := by
  obtain ⟨j, hj, rfl, rfl⟩ := hends
  have hstart := h.activeStart_eq
  rw [length_segData] at hcut
  have hwhole : j ≤ w.activeWhole o cut := by
    unfold Wal.activeWhole
    rw [h.active_eq, hstart]
    exact le_wholeBefore hj (by omega)
  unfold Wal.whole
  omega

theorem WalOk.whole_all (h : WalOk o sgs w closed active) {cut : Nat} (hcut : w.activeSize ≤ cut) :
    w.activeWhole o cut = active.length ∧ w.torn o cut = [] := by
  have hsize := h.activeSize_eq
  rw [← h.activeStart_eq] at hsize
  have hall : w.activeWhole o cut = active.length := by
    refine le_antisymm (h.whole_le cut) ?_
    unfold Wal.activeWhole
    rw [h.active_eq]
    refine le_wholeBefore (le_refl _) ?_
    rw [take_length]
    rw [length_segData] at hsize
    omega
  refine ⟨hall, ?_⟩
  have hlast : (w.segs.getLast?.map File.data).getD [] =
      segData o.signer w.activeStart active := by
    rw [h.getLast, h.activeStart_eq]
    rfl
  unfold Wal.torn
  rw [hlast, hall, h.active_eq, take_length, drop_of_length_le]
  rw [length_take]
  omega

theorem WalOk.take_whole (h : WalOk o sgs w closed active) {cut : Nat} (hcut : w.activeSize ≤ cut) :
    w.log.take (w.whole o cut) = w.log := by
  refine take_of_length_le ?_
  have hall := (h.whole_all hcut).1
  have hlen := h.length_log
  have hstart := h.activeStart_eq
  unfold Wal.whole
  omega

theorem WalOk.whole_le_log (h : WalOk o sgs w closed active) (cut : Nat) :
    w.whole o cut ≤ w.log.length := by
  have hlen := h.length_log
  have hle := h.whole_le cut
  have hstart := h.activeStart_eq
  unfold Wal.whole
  omega

section Recovering

variable {snap : Option File} {closed' : List (List Entry)}

section

variable (h : WalOk o sgs w closed active) (hf : Found o sgs w c active snap closed')
include h hf

theorem Found.reads : ∀ n, (⟨snap, []⟩ : Layout).base < n → o.Reads (sgs n) :=
  fun n hn => h.reads n (lt_of_le_of_lt hf.newer hn)

theorem Found.layout_cut :
    (⟨snap, closed' ++ [active.take (w.activeWhole o c.cut)]⟩ : Layout).Ok sgs
        (w.log.take (w.whole o c.cut)) ∧
      (⟨snap, []⟩ : Layout).base + 1 +
        (closed' ++ [active.take (w.activeWhole o c.cut)]).flatten.length =
          w.whole o c.cut + 1 := by
  have hj := h.whole_le c.cut
  have hstart := hf.start
  have hwhole : (⟨snap, []⟩ : Layout).base + closed'.flatten.length + w.activeWhole o c.cut =
      w.whole o c.cut := by
    unfold Wal.whole
    omega
  refine ⟨hwhole ▸ hf.layout.cut hj, ?_⟩
  simp only [flatten_append, flatten_cons, flatten_nil, append_nil,
    length_append, length_take]
  omega

theorem Found.recover_torn (hcut : headerSize ≤ c.cut) (hhalf : c.half = none)
    {m : Machine} (hload : loadBase o snap = .ok m) :
    (tailAllowed o (w.whole o c.cut + 1) (w.torn o c.cut) = true →
      recover o (w.left o c) = .ok (openedLog o sgs (⟨snap, []⟩ : Layout).base m snap.toList
        (w.aside ++ quarantine (w.torn o c.cut))
        (closed' ++ [active.take (w.activeWhole o c.cut)]))) ∧
      (tailAllowed o (w.whole o c.cut + 1) (w.torn o c.cut) = false →
        ∃ err, recover o (w.left o c) = .error err) := by
  obtain ⟨hlayout, hnext⟩ := hf.layout_cut h
  obtain ⟨htake, err, htorn⟩ := h.take_cut hcut
  have hfiles : dropCovered ((⟨snap, []⟩ : Layout).base + 1) (sorted (w.left o c).segs) =
      tornFiles sgs ((⟨snap, []⟩ : Layout).base + 1) closed'
        (active.take (w.activeWhole o c.cut)) (w.torn o c.cut) := by
    rw [hf.segs, hhalf, htake, tornFiles, ← hf.start, h.own_active]
    rfl
  have hlsn : w.whole o c.cut + 1 < 2 ^ 64 := by
    have hlt := hlayout.lsn_lt
    rw [length_take, min_eq_left (h.whole_le_log c.cut)] at hlt
    exact hlt
  rw [recover_eq hf.newest hload, ← hf.aside, ← hnext]
  exact recoverFrom_torn (hf.reads h) (hf.start ▸ h.own_active) hfiles hlayout.parts_readable
    (hnext ▸ hlsn) htorn

theorem Found.recover_half {k : Nat} (hhalf : c.half = some k)
    (hk : k < headerSize) (hkeep : w.activeSize ≤ c.cut) {m : Machine}
    (hload : loadBase o snap = .ok m) :
    recover o (w.left o c) = .ok (openedLog o sgs (⟨snap, []⟩ : Layout).base m snap.toList
      (w.aside ++ quarantine ((newSegment o w.nextLSN).data.take k))
      (closed' ++ [active.take (w.activeWhole o c.cut)])) := by
  obtain ⟨hlayout, hnext⟩ := hf.layout_cut h
  obtain ⟨hall, -⟩ := h.whole_all (o := o) hkeep
  have hsize := h.activeSize_eq
  rw [← h.activeStart_eq] at hsize
  have hwhole : w.whole o c.cut + 1 = w.nextLSN := by
    have hn := h.next_eq
    have hs := h.activeStart_eq
    unfold Wal.whole
    omega
  have hfiles : dropCovered ((⟨snap, []⟩ : Layout).base + 1) (sorted (w.left o c).segs) =
      halfFiles sgs ((⟨snap, []⟩ : Layout).base + 1)
        (closed' ++ [active.take (w.activeWhole o c.cut)])
        ((newSegment o w.nextLSN).data.take k) := by
    rw [hf.segs, hhalf, take_of_length_le (hsize ▸ hkeep), halfFiles, hnext, hwhole,
      segFiles_concat, ← hf.start, h.own_active, hall, take_length, append_assoc]
    rfl
  have hhdr : ((newSegment o w.nextLSN).data.take k).length < headerSize := by
    rw [length_take]
    omega
  have hlsn : w.whole o c.cut + 1 < 2 ^ 64 := by
    have hlt := hlayout.lsn_lt
    rw [length_take, min_eq_left (h.whole_le_log c.cut)] at hlt
    exact hlt
  have hparts : orFresh (closed' ++ [active.take (w.activeWhole o c.cut)]) =
      closed' ++ [active.take (w.activeWhole o c.cut)] := by
    unfold orFresh
    rw [if_neg (by simp)]
  rw [recover_eq hf.newest hload, ← hf.aside, ← hparts]
  have hown : lastSigner sgs ((⟨snap, []⟩ : Layout).base + 1)
      (closed' ++ [active.take (w.activeWhole o c.cut)]) = o.signer := by
    rw [lastSigner_concat, ← hf.start]
    exact h.own_active
  exact recoverFrom_half (hf.reads h) hown hfiles hlayout.parts_readable (hnext ▸ hlsn) hhdr

end

end Recovering

/-- Recovery of what is left by a crash: the entries wholly before the cut, or a
refusal of what is torn. -/
theorem WalOk.recover_left (h : WalOk o sgs w closed active) (hfits : c.fits w = true) :
    ∃ snap' closed' m, loadBase o snap' = .ok m ∧ Found o sgs w c active snap' closed' ∧
      (⟨snap', closed' ++ [active.take (w.activeWhole o c.cut)]⟩ : Layout).Ok sgs
          (w.log.take (w.whole o c.cut)) ∧
        (tailAllowed o (w.whole o c.cut + 1) (w.torn o c.cut) = true →
          recover o (w.left o c) = .ok (openedLog o sgs (⟨snap', []⟩ : Layout).base m snap'.toList
            (w.aside ++ quarantine (w.dropped o c))
            (closed' ++ [active.take (w.activeWhole o c.cut)]))) ∧
          (tailAllowed o (w.whole o c.cut + 1) (w.torn o c.cut) = false →
            ∃ err, recover o (w.left o c) = .error err) := by
  unfold Crash.fits at hfits
  rw [Bool.and_eq_true, decide_eq_true_eq] at hfits
  obtain ⟨hcut, hhalf⟩ := hfits
  have hne : c.half.isSome = true → active ≠ [] := by
    intro hsome
    obtain ⟨k, hk⟩ := Option.isSome_iff_exists.mp hsome
    rw [hk] at hhalf
    simp only [Bool.and_eq_true, decide_eq_true_eq] at hhalf
    exact h.active_ne hhalf.1.2
  obtain ⟨snap', closed', hfound⟩ := h.found hne
  obtain ⟨m, -, hload, -⟩ := hfound.layout.load (hfound.reads h) []
  refine ⟨snap', closed', m, hload, hfound, (hfound.layout_cut h).1, ?_⟩
  unfold Wal.dropped
  cases hkind : c.half with
  | none => exact hfound.recover_torn h hcut hkind hload
  | some k =>
    rw [hkind] at hhalf
    simp only [Bool.and_eq_true, decide_eq_true_eq] at hhalf
    obtain ⟨⟨hk, -⟩, hkeep⟩ := hhalf
    refine ⟨fun _ => hfound.recover_half h hkind hk hkeep hload, fun hrefused => ?_⟩
    rw [(h.whole_all (o := o) hkeep).2] at hrefused
    simp [tailAllowed] at hrefused

theorem WalOk.recover_left_ok (h : WalOk o sgs w closed active) {x : Opened}
    (hfits : c.fits w = true) (hrecover : recover o (w.left o c) = .ok x) :
    ∃ snap' closed' m, loadBase o snap' = .ok m ∧ Found o sgs w c active snap' closed' ∧
      (⟨snap', closed' ++ [active.take (w.activeWhole o c.cut)]⟩ : Layout).Ok sgs
          (w.log.take (w.whole o c.cut)) ∧
        x = openedLog o sgs (⟨snap', []⟩ : Layout).base m snap'.toList
          (w.aside ++ quarantine (w.dropped o c))
          (closed' ++ [active.take (w.activeWhole o c.cut)]) := by
  obtain ⟨snap', closed', m, hload, hfound, hlayout, hok, herr⟩ := h.recover_left hfits
  refine ⟨snap', closed', m, hload, hfound, hlayout, ?_⟩
  cases hallowed : tailAllowed o (w.whole o c.cut + 1) (w.torn o c.cut) with
  | false =>
    obtain ⟨err, herr⟩ := herr hallowed
    rw [hrecover] at herr
    cases herr
  | true =>
    have hx := hok hallowed
    rw [hrecover] at hx
    exact Except.ok.inj hx

end Crashing

section Running

variable {o : WalOptions} {sgs : Signing} {w w' : Wal} {closed : List (List Entry)} {active : List Entry}

variable {acked : List Nat} {c : Crash} {x : Opened}

theorem walOk_opened {snap : Option File} {m : Machine} {log : List Entry}
    (hsgs : ∀ n, (⟨snap, []⟩ : Layout).base < n → o.Reads (sgs n))
    (hown : ∀ n, (⟨snap, []⟩ : Layout).base + 1 + closed.flatten.length ≤ n → sgs n = o.signer)
    (h : (⟨snap, closed ++ [active]⟩ : Layout).Ok sgs log) (hload : loadBase o snap = .ok m)
    (hseqs : ∀ k, (empty.replay (log.take k)).seq ≤ k) (hacked : ∀ n ∈ acked, n ≤ log.length)
    (aside : List Bytes) :
    WalOk o sgs (.opened (openedLog o sgs (⟨snap, []⟩ : Layout).base m snap.toList aside
      (closed ++ [active])) log acked) closed active := by
  obtain ⟨m', hload', hnext, hindexed, hshows⟩ := h.opened hsgs aside
  obtain rfl : m' = m := Except.ok.inj (hload'.symm.trans hload)
  have hsnap : snap.toList.head? = snap := by cases snap <;> rfl
  have hlen : (⟨snap, []⟩ : Layout).base + closed.flatten.length + active.length =
      log.length := by
    have hflat := congrArg List.length h.flatten
    have hle : (⟨snap, []⟩ : Layout).base ≤ log.length := h.base_le
    simp only [flatten_append, flatten_cons, flatten_nil, append_nil,
      length_append, length_drop] at hflat
    change _ = log.length - (⟨snap, []⟩ : Layout).base at hflat
    omega
  have hbase : (Wal.opened (openedLog o sgs (⟨snap, []⟩ : Layout).base m' snap.toList aside
      (closed ++ [active])) log acked).snapLSN = (⟨snap, []⟩ : Layout).base := by
    simp only [Wal.snapLSN, Wal.opened, openedLog, hsnap]
    rfl
  refine ⟨coreOk_idle hindexed [], hbase ▸ hsgs, hbase ▸ hown, ?_, ?_, hnext, ⟨_, ?_, reborn_reborn _⟩,
    hseqs, ?_, ?_, ?_, hacked⟩
  · simp only [Wal.opened, openedLog, hsnap]
    exact h
  · rw [hbase]
    rfl
  · have hdir : (Wal.opened (openedLog o sgs (⟨snap, []⟩ : Layout).base m' snap.toList aside
        (closed ++ [active])) log acked).dir =
        (⟨snap, closed ++ [active]⟩ : Layout).dir sgs aside := by
      simp only [Wal.dir, Wal.opened, openedLog, Layout.dir, hsnap]
      rfl
    rw [hdir]
    exact hshows.transfer (sight_seen _ _ _) fun it r hr => ⟨hr, by rintro c ⟨⟩⟩
  · rintro c ⟨⟩
  · rw [hbase]
    refine ⟨active.length, le_refl _, hlen.symm, ?_⟩
    have hlast := hown _ (le_refl _)
    simp only [Wal.opened, openedLog, segFiles_concat, hlast, List.getLast?_append,
      take_length]
    rfl
  · rintro n k ⟨⟩

/-- The signing of a store that begins its log. -/
def WalOptions.signing (o : WalOptions) : Signing :=
  fun _ => o.signer

theorem walOk_new (o : WalOptions) : WalOk o o.signing (.new o) [] [] := by
  have hlayout : (⟨none, [] ++ [[]]⟩ : Layout).Ok o.signing [] :=
    ⟨by simp, trivial, le_refl _, rfl, trivial, ⟨trivial, trivial⟩, by norm_num, trivial,
      fun f hf => nomatch hf⟩
  have hopened := walOk_opened (fun _ _ => o.reads_own) (fun _ _ => rfl) hlayout rfl
    (fun k => by simp [empty]) (fun n (hn : n ∈ []) => nomatch hn) []
  have hnew : Wal.new o = .opened (openedLog o o.signing (⟨none, []⟩ : Layout).base
      (newMachine o.lim) (none : Option File).toList [] ([] ++ [[]])) [] [] := by
    rfl
  exact hopened

section

variable (h : WalOk o sgs w closed active)
include h

theorem Crash.fits_of_possible (hposs : c.possible w = true) :
    c.fits w = true ∧ w.synced ≤ c.cut := by
  unfold Crash.possible at hposs
  rw [Bool.and_eq_true, decide_eq_true_eq] at hposs
  obtain ⟨hcut, hhalf⟩ := hposs
  obtain ⟨j, -, -, hsynced⟩ := h.synced
  rw [length_segData] at hsynced
  refine ⟨?_, hcut⟩
  unfold Crash.fits
  rw [Bool.and_eq_true, decide_eq_true_eq]
  exact ⟨by omega, hhalf⟩

theorem WalOk.opened (hfits : c.fits w = true)
    (hrecover : recover o (w.left o c) = .ok x) (hacked : ∀ n ∈ acked, n ≤ w.whole o c.cut) :
    x.nextLSN = w.whole o c.cut + 1 ∧
      ∃ closed', WalOk o sgs (.opened x (w.log.take (w.whole o c.cut)) acked)
        closed' (active.take (w.activeWhole o c.cut)) := by
  obtain ⟨snap', closed', m, hload, hfound, hlayout, rfl⟩ := h.recover_left_ok hfits hrecover
  have hown : ∀ n, (⟨snap', []⟩ : Layout).base + 1 + closed'.flatten.length ≤ n →
      sgs n = o.signer := by
    intro n hn
    refine h.own n ?_
    rw [← h.activeStart_eq, hfound.start]
    exact hn
  have hlen : (w.log.take (w.whole o c.cut)).length = w.whole o c.cut := by
    rw [length_take, min_eq_left (h.whole_le_log c.cut)]
  have hnext : (openedLog o sgs (⟨snap', []⟩ : Layout).base m snap'.toList
      (w.aside ++ quarantine (w.dropped o c))
      (closed' ++ [active.take (w.activeWhole o c.cut)])).nextLSN = w.whole o c.cut + 1 := by
    obtain ⟨m', hload', hnext, -⟩ := hlayout.opened (hfound.reads h)
      (w.aside ++ quarantine (w.dropped o c))
    rw [hlen] at hnext
    exact hnext
  refine ⟨hnext, closed', walOk_opened (hfound.reads h) hown hlayout hload ?_ ?_ _⟩
  · intro k
    rw [take_take]
    exact le_trans (h.seqs _) (min_le_left _ _)
  · intro n hn
    rw [hlen]
    exact hacked n hn

/-- A crash that keeps what was synced, and the store is opened again. -/
theorem WalOk.reopen (hposs : c.possible w = true) (hrecover : recover o (w.left o c) = .ok x) :
    x.nextLSN = w.whole o c.cut + 1 ∧ w.durable ≤ w.whole o c.cut ∧
      ∃ closed' active', WalOk o sgs (.opened x (w.log.take (w.whole o c.cut)) w.acked)
        closed' active' := by
  obtain ⟨hfits, hsynced⟩ := Crash.fits_of_possible h hposs
  have hdurable := h.synced.le_whole h hsynced
  obtain ⟨hnext, closed', hok⟩ :=
    h.opened hfits hrecover fun n hn => le_trans (h.acked n hn) hdurable
  exact ⟨hnext, hdurable, closed', _, hok⟩

/-- Every step keeps the invariant, if what it writes can be read back. -/
theorem WalOk.step {a : WalAct} (hsound : w.Sound o a)
    (hstep : w.step o a = some w') : ∃ closed' active', WalOk o sgs w' closed' active' := by
  cases Wal.turn_of_step hstep with
  | silent _ hcore => exact ⟨_, _, h.silent hcore⟩
  | refused => exact ⟨_, _, h.refused⟩
  | logged hadmits hcore hsize hwait =>
    obtain ⟨hsealed, hlsn⟩ := hsound _ _ hcore hsize
    exact h.write hadmits hcore hwait hsealed hlsn
  | covered => exact ⟨_, _, h⟩
  | captured _ _ hnew hwait =>
    obtain ⟨closed', hcap⟩ := h.capture hnew hwait
    exact ⟨_, _, hcap⟩
  | copied hcomp _ => exact ⟨_, _, h.copy hcomp hsound⟩
  | abandoned => exact ⟨_, _, h.abandon⟩
  | swapped hcomp hcopied hidle => exact ⟨_, _, h.swap hcomp hcopied hidle⟩
  | syncing => exact ⟨_, _, h.syncStart⟩
  | synced hflight => exact ⟨_, _, h.syncDone hflight⟩
  | finished hle => exact ⟨_, _, h.finish hle⟩
  | reopened hposs hrecover =>
    obtain ⟨hnext, -, hok⟩ := h.reopen hposs hrecover
    rw [hnext, Nat.add_sub_cancel]
    exact hok

end

/-- Every run keeps the invariant, if what its steps write can be read back. -/
theorem walOk_run {acts : List WalAct} (hsound : RunAll (Wal.step o) (Wal.Sound o) (.new o) acts)
    (hrun : run (Wal.step o) (.new o) acts = some w) :
    ∃ closed active, WalOk o o.signing w closed active := by
  refine run_invariant_of (Wal.step o)
    (I := fun w => ∃ closed active, WalOk o o.signing w closed active) ?_ hsound ⟨[], [], walOk_new o⟩ hrun
  rintro s a t hok ⟨closed, active, h⟩ hstep
  exact h.step hok hstep

end Running

end Dlq
end GoGuard
