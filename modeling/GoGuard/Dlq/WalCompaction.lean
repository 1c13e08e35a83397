import GoGuard.Dlq.WalInvariant

/-!
# Compaction keeps the store

The three phases of a compaction.  The capture takes the queue of the log so far;
the copy writes it to a snapshot; the swap re-points every item to its copy or
leaves it where it is.  In the directory that still has all files both references
of an item lead to the same record, and what no item refers to can go
(`WalOk.swap`).
-/

namespace GoGuard
namespace Dlq

open Lib Machine Queue List

section Capturing

variable {o : WalOptions} {sgs : Signing} {w : Wal} {closed : List (List Entry)} {active : List Entry}

theorem WalOk.activeSize_gt (h : WalOk o sgs w closed active) (hne : active ≠ []) :
    w.activeSize > headerSize := by
  obtain ⟨e, es, rfl⟩ := exists_cons_of_ne_nil hne
  rw [h.activeSize_eq, length_segData]
  simp only [entryFrames, entryFrame, length_append, length_appendFrame, frameOverhead]
  omega

theorem WalOk.sealed (h : WalOk o sgs w closed active)
    (hwait : ¬ (w.activeSize > headerSize ∧ w.flight.isSome)) :
    ∃ closed', WalOk o sgs (w.sealed o) closed' [] := by
  unfold Wal.sealed
  split
  · next hsize =>
    have hflight : w.flight = none := by
      by_contra hne
      exact hwait ⟨hsize, Option.isSome_iff_ne_none.mpr hne⟩
    exact ⟨_, h.rotate (h.active_ne hsize) hflight⟩
  · next hsize =>
    have hnil : active = [] := by
      by_contra hne
      exact hsize (h.activeSize_gt hne)
    exact ⟨closed, hnil ▸ h⟩

theorem hydrate_snapEntry {sg : Option Signer} {d : Dir} {it : Item} {r : Record}
    (h : hydrate sg d it = some r) : hydrate sg d (SnapEntry.of it).item = some r.settle := by
  obtain ⟨p, hp, rfl⟩ := reading_eq_some h
  have hloc : (SnapEntry.of it).item.loc = it.loc := rfl
  unfold hydrate reading
  rw [hloc, hp]
  rfl

theorem length_segFiles (sgs : Signing) (start : Nat) (parts : List (List Entry)) :
    (segFiles sgs start parts).length = parts.length := by
  induction parts generalizing start with
  | nil => rfl
  | cons es parts ih => rw [segFiles, length_cons, length_cons, ih]

/-- A machine shows the same queue under another relation if the items it has
stand for the same records. -/
theorem Shows.transfer_mem {R R' : Item → Record → Prop} {m : Machine} {q : Queue}
    (hs : Shows R m q) (hR : Sight R') (himp : ∀ it ∈ m.liveItems, ∀ r, R it r → R' it r) :
    Shows R' m q := by
  refine ⟨hR, ?_, hs.seq, hs.bytes⟩
  have hmem : List.Forall₂ (fun it r => it ∈ m.liveItems ∧ R it r) m.liveItems q.recs :=
    (forall₂_and_left _ _).mpr ⟨fun _ hit => hit, hs.recs⟩
  exact hmem.imp fun it r hr => himp it hr.1 r hr.2

theorem WalOk.captured (h : WalOk o sgs w closed []) (hlt : w.snapLSN < w.log.length) :
    WalOk o sgs { w with
      comp := some ⟨w.log.length, w.core.m.seq, w.segs.length - 1,
        w.core.m.liveItems.map SnapEntry.of, none⟩ } closed [] := by
  obtain ⟨q, hshows, hreborn⟩ := h.shown
  have hlen := h.length_log
  have hold : w.segs.length - 1 = closed.length := by
    rw [h.segs, length_segFiles, length_append]
    rfl
  refine ⟨h.core, h.reads, h.own, h.layout, h.segs, h.next, ⟨q, ?_, hreborn⟩, h.seqs, ?_, h.synced, h.flight,
    h.acked⟩
  · refine hshows.transfer_mem (sight_seen _ _ _) ?_
    intro it hit r hr
    refine ⟨hr.1, ?_⟩
    intro c hc
    cases hc
    have hmem : SnapEntry.of it ∈ w.core.m.liveItems.map SnapEntry.of := mem_map_of_mem hit
    exact ⟨.inr ⟨_, hmem, rfl, rfl⟩, .inr (.inr ⟨_, hmem, rfl, rfl⟩)⟩
  · intro c hc
    cases hc
    refine ⟨?_, hold.le, ?_, hlt, ?_, q.recs.map Record.settle, ?_, ?_, ?_⟩
    · intro n hn
      change w.log.length < n at hn
      exact h.own n (by omega)
    · simp only [hold, take_length]
      exact hlen.symm
    · intro hoff e he
      obtain ⟨it, hit, rfl⟩ := mem_map.mp he
      obtain ⟨r, -, hr⟩ := forall₂_mem_left hshows.recs.flip hit
      exact hr.1.disk hoff
    · simp only [forall₂_map_left_iff, forall₂_map_right_iff]
      exact hshows.recs.imp fun it r hr => hydrate_snapEntry hr.1.read
    · simp only [take_length]
      rw [← hreborn, ← reborn_settled q, hshows.seq]
      rfl
    · intro f refs hf
      cases hf

theorem WalOk.capture (h : WalOk o sgs w closed active) (hnew : w.snapLSN < w.nextLSN - 1)
    (hwait : ¬ (w.activeSize > headerSize ∧ w.flight.isSome)) :
    ∃ closed', WalOk o sgs { w.sealed o with
      comp := some ⟨w.nextLSN - 1, w.core.m.seq, (w.sealed o).segs.length - 1,
        w.core.m.liveItems.map SnapEntry.of, none⟩ } closed' [] := by
  obtain ⟨closed', hsealed⟩ := h.sealed hwait
  obtain ⟨hcore, hlog, hsnap⟩ := (Wal.rotated (o := o) (P := fun v => v.core = w.core ∧
    v.log = w.log ∧ v.snapLSN = w.snapLSN) ⟨rfl, rfl, rfl⟩ ⟨rfl, rfl, rfl⟩).1
  have hlast : w.nextLSN - 1 = (w.sealed o).log.length := by
    rw [h.next, hlog]
    rfl
  have hcap := hsealed.captured (by rw [hsnap, ← hlast]; exact hnew)
  have hm : w.core.m = (w.sealed o).core.m := by rw [hcore]
  rw [← hlast] at hcap
  rw [hm]
  exact ⟨closed', hcap⟩

theorem WalOk.abandon (h : WalOk o sgs w closed active) :
    WalOk o sgs { w with comp := none } closed active := by
  obtain ⟨q, hshows, hreborn⟩ := h.shown
  refine ⟨h.core, h.reads, h.own, h.layout, h.segs, h.next, ⟨q, ?_, hreborn⟩, h.seqs, ?_, h.synced, h.flight,
    h.acked⟩
  · exact hshows.transfer (sight_seen _ _ _) fun it r hr => ⟨hr.1, fun c hc => nomatch hc⟩
  · exact fun c hc => nomatch hc

end Capturing

section Copying

variable {o : WalOptions} {sgs : Signing} {w : Wal} {closed : List (List Entry)} {active : List Entry}

theorem mapM_of_forall₂ {α β : Type} {f : α → Option β} {xs : List α} {ys : List β}
    (h : List.Forall₂ (fun x y => f x = some y) xs ys) : xs.mapM f = some ys := by
  induction h with
  | nil => rfl
  | cons hx _ ih =>
    rw [mapM_cons, hx, ih]
    rfl

theorem seq_replay_take (log : List Entry) (k : Nat) :
    (empty.replay (log.take k)).seq ≤ (empty.replay log).seq := by
  have hmono : ∀ (q : Queue) (es : List Entry), q.seq ≤ (q.replay es).seq := by
    intro q es
    induction es generalizing q with
    | nil => exact le_refl _
    | cons e es ih => exact le_trans (seq_le_apply q e) (ih _)
  nth_rewrite 2 [← take_append_drop k log]
  rw [replay_append]
  exact hmono _ _

variable {c : Compaction} {recs : List Record}

theorem WalOk.captured_ordered (h : WalOk o sgs w closed active)
    (hq : (⟨recs, c.seq⟩ : Queue).reborn = (empty.replay (w.log.take c.last)).reborn) :
    Ordered ⟨recs, c.seq⟩ ∧ c.seq < 2 ^ 64 := by
  have hfair := h.layout.fair
  rw [← take_append_drop c.last w.log, fairLog_append] at hfair
  refine ⟨ordered_of_fair hfair.1 hq, ?_⟩
  have hseq : (⟨recs, c.seq⟩ : Queue).reborn.seq =
      (empty.replay (w.log.take c.last)).reborn.seq := congrArg Queue.seq hq
  change c.seq = (empty.replay (w.log.take c.last)).seq at hseq
  have hle := seq_replay_take w.log c.last
  have hlog := h.seq_le
  have hlsn := h.layout.lsn_lt
  omega

theorem WalOk.captured_snappable (h : WalOk o sgs w closed active) (hcomp : w.comp = some c)
    (hsound : w.Sound o .copy)
    (hread : List.Forall₂ (fun e r => hydrate o.signer w.dir e.item = some r) c.entries recs)
    (hq : (⟨recs, c.seq⟩ : Queue).reborn = (empty.replay (w.log.take c.last)).reborn) :
    ∀ r ∈ recs, Snappable o.signer c.last r := by
  intro r hr
  obtain ⟨hordered, hseq⟩ := h.captured_ordered hq
  obtain ⟨e, he, her⟩ := forall₂_mem_left hread hr
  obtain ⟨hattempts, hsealed⟩ := hsound c hcomp e he r her
  refine ⟨⟨lt_of_le_of_lt (hordered.le r hr) hseq, hattempts, ?_⟩, hsealed⟩
  refine lt_of_le_of_lt (le_trans (length_sealBody _ _ _ _ _) hsealed) ?_
  decide

theorem WalOk.copy (h : WalOk o sgs w closed active) (hcomp : w.comp = some c)
    (hsound : w.Sound o .copy) : WalOk o sgs (w.copy o c) closed active := by
  unfold Wal.copy
  split
  · exact h.abandon
  · next recs' hrecs' =>
    have hok := h.comp c hcomp
    obtain ⟨recs, hread, hq, -⟩ := hok.captured
    obtain rfl : recs' = recs := by
      have := mapM_of_forall₂ hread
      rw [hrecs'] at this
      exact Option.some.inj this
    have hsnap := h.captured_snappable hcomp hsound hread hq
    obtain ⟨q, hshows, hreborn⟩ := h.shown
    refine ⟨h.core, h.reads, h.own, h.layout, h.segs, h.next, ⟨q, ?_, hreborn⟩, h.seqs, ?_, h.synced,
      h.flight, h.acked⟩
    · refine hshows.transfer (sight_seen _ _ _) fun it r hr => ⟨hr.1, ?_⟩
      intro k hk
      cases hk
      obtain ⟨hb, hck⟩ := hr.2 c hcomp
      exact ⟨hb, hck⟩
    · intro k hk
      cases hk
      refine ⟨hok.own, hok.old_le, hok.last_eq, hok.lt, hok.kinds, recs', hread, hq, ?_⟩
      intro f refs hf
      cases hf
      exact ⟨rfl, rfl, hsnap⟩

end Copying

section Repointing

variable {o : WalOptions} {d : Dir} {c : Compaction} {e : SnapEntry} {rest : List SnapEntry}
variable {it it' : Item} {r : Record} {ref : BlobRef} {m m' : Machine} {q : Queue}

theorem Shows.exchange {R R' : Item → Record → Prop} (h : Indexed m) (hs : Shows R m q)
    (hR : Sight R') (hit : m.items.get it.record.id = some it) (ht : Touched m m' it it')
    (hother : ∀ x r, x.record.id ≠ it.record.id → R x r → R' x r) (hthis : ∀ r, R it r → R' it' r) :
    Shows R' m' q := by
  have hlive := ht.liveItems h
  refine ⟨hR, ?_, ht.seq.trans hs.seq, ?_⟩
  · have hmap : replaced m.liveItems it (some it') =
        m.liveItems.map fun x => if x.record.id = it.record.id then it' else x := by
      rw [← filterMap_eq_map]
      refine filterMap_congr fun x _ => ?_
      split <;> simp_all
    have hmem : List.Forall₂ (fun x r => x ∈ m.liveItems ∧ R x r) m.liveItems q.recs :=
      (forall₂_and_left _ _).mpr ⟨fun _ hx => hx, hs.recs⟩
    rw [hlive, hmap, forall₂_map_left_iff]
    refine hmem.imp fun x r hx => ?_
    split
    · next hid =>
      have hx' := h.mem_liveItems.mp hx.1
      rw [hid] at hx'
      obtain rfl := Option.some.inj (hx'.symm.trans hit)
      exact hthis r hx.2
    · next hid => exact hother x r hid hx.2
  · rw [hlive, totalSize_replaced h.liveItems_nodup (h.mem_liveItems.mpr hit), ht.bytes,
      hs.bytes]
    rfl

/-- The item when one captured record is re-pointed. -/
def repointItem (e : SnapEntry) (ref : BlobRef) (it : Item) : Item :=
  { it with
    bodyRef := if it.bodyRef = e.bodyRef then ref else it.bodyRef
    ckptRef := if e.ckptRef.valid ∧ it.ckptRef = e.ckptRef then ref else it.ckptRef }

theorem loadRecord_copy (hread : hydrate o.signer d e.item = some r)
    (hat : RecordAt o.signer d ref r.stored) :
    loadRecord o.signer d ref e.record.id = some r.stored := by
  have hid : r.stored.id = e.record.id := (reading_meta hread).1
  obtain ⟨-, hload⟩ := hat
  rw [hid, Record.stored_stored] at hload
  exact hload

theorem Sees.repoint {r' : Record} (h : Sees o.signer true d it r')
    (hid : it.record.id = e.record.id) (hkind : RecordKind e.bodyRef.kind)
    (hread : hydrate o.signer d e.item = some r) (hat : RecordAt o.signer d ref r.stored) :
    Sees o.signer true d (repointItem e ref it) r' := by
  have hcopy := loadRecord_copy hread hat
  obtain ⟨full, cp, hfull, hcp, rfl⟩ := (hydrate_disk (h.disk rfl)).mp h.read
  have hkind₀ : RecordKind e.item.bodyRef.kind := hkind
  obtain ⟨full₀, cp₀, hfull₀, hcp₀, hr⟩ := (hydrate_disk hkind₀).mp hread
  have hpay : r.stored.payload = { full₀.payload with checkpoint := cp₀ } := by
    rw [hr]
    rfl
  have hkind' : RecordKind (repointItem e ref it).bodyRef.kind := by
    change RecordKind (if it.bodyRef = e.bodyRef then ref else it.bodyRef).kind
    split
    · exact hat.1
    · exact h.disk rfl
  -- the checkpoint of the copy is the one the captured reference leads to
  have hckpt : checkpointOf o.signer d (repointItem e ref it) = some cp := by
    unfold checkpointOf at hcp ⊢
    change (if (if e.ckptRef.valid ∧ it.ckptRef = e.ckptRef then ref else it.ckptRef).valid
      then loadCheckpoint o.signer d
        (if e.ckptRef.valid ∧ it.ckptRef = e.ckptRef then ref else it.ckptRef) it.record.id
      else some it.record.checkpoint) = some cp
    split
    · next hsame =>
      obtain ⟨hvalid, heq⟩ := hsame
      have hcp₀' : loadCheckpoint o.signer d e.ckptRef e.record.id = some cp₀ := by
        rw [← hcp₀]
        exact (if_pos hvalid).symm
      rw [heq, if_pos hvalid, hid, hcp₀'] at hcp
      rw [if_pos hat.1.valid, loadCheckpoint_record hat.1, hid, hcopy, ← hcp]
      exact congrArg (fun p : Payload => some p.checkpoint) hpay
    · exact hcp
  refine ⟨?_, fun _ => hkind', fun hoff => (nomatch hoff),
    ⟨h.whole.record, h.whole.fit, h.whole.body, h.whole.ckpt⟩⟩
  by_cases hsame : it.bodyRef = e.bodyRef
  · have hbody : (repointItem e ref it).bodyRef = ref := if_pos hsame
    refine (hydrate_disk hkind').mpr ⟨r.stored, cp, ?_, hckpt, ?_⟩
    · rw [hbody]
      change loadRecord o.signer d ref it.record.id = _
      rw [hid]
      exact hcopy
    · have hfulls : full = full₀ := by
        rw [hsame, hid] at hfull
        exact Option.some.inj (hfull.symm.trans hfull₀)
      rw [hpay, hfulls]
      rfl
  · have hbody : (repointItem e ref it).bodyRef = it.bodyRef := if_neg hsame
    refine (hydrate_disk hkind').mpr ⟨full, cp, ?_, hckpt, rfl⟩
    rw [hbody]
    exact hfull

theorem Known.repoint (h : Known { c with entries := e :: rest } it) (hnew : NewRef c.last ref) :
    Known { c with entries := rest } (repointItem e ref it) := by
  refine ⟨?_, ?_⟩
  · change NewRef c.last (if it.bodyRef = e.bodyRef then ref else it.bodyRef) ∨
      ∃ x ∈ rest, x.record.id = it.record.id ∧
        (if it.bodyRef = e.bodyRef then ref else it.bodyRef) = x.bodyRef
    split
    · exact .inl hnew
    · next hne =>
      rcases h.body with hold | ⟨x, hx, hid, heq⟩
      · exact .inl hold
      · rcases mem_cons.mp hx with rfl | hx
        · exact absurd heq hne
        · exact .inr ⟨x, hx, hid, heq⟩
  · change (if e.ckptRef.valid ∧ it.ckptRef = e.ckptRef then ref else it.ckptRef).valid = false ∨
      NewRef c.last (if e.ckptRef.valid ∧ it.ckptRef = e.ckptRef then ref else it.ckptRef) ∨
        ∃ x ∈ rest, x.record.id = it.record.id ∧
          (if e.ckptRef.valid ∧ it.ckptRef = e.ckptRef then ref else it.ckptRef) = x.ckptRef
    split
    · exact .inr (.inl hnew)
    · next hne =>
      rcases h.ckpt with hold | hold | ⟨x, hx, hid, heq⟩
      · exact .inl hold
      · exact .inr (.inl hold)
      · rcases mem_cons.mp hx with rfl | hx
        · left
          rw [heq]
          exact Bool.eq_false_iff.mpr fun hvalid => hne ⟨hvalid, heq⟩
        · exact .inr (.inr ⟨x, hx, hid, heq⟩)

theorem Known.other (h : Known { c with entries := e :: rest } it)
    (hid : it.record.id ≠ e.record.id) : Known { c with entries := rest } it := by
  have hrest : ∀ x ∈ e :: rest, x.record.id = it.record.id → x ∈ rest := by
    intro x hx hxid
    rcases mem_cons.mp hx with rfl | hx
    · exact absurd hxid.symm hid
    · exact hx
  refine ⟨?_, ?_⟩
  · rcases h.body with hold | ⟨x, hx, hxid, heq⟩
    · exact .inl hold
    · exact .inr ⟨x, hrest x hx hxid, hxid, heq⟩
  · rcases h.ckpt with hold | hold | ⟨x, hx, hxid, heq⟩
    · exact .inl hold
    · exact .inr (.inl hold)
    · exact .inr (.inr ⟨x, hrest x hx hxid, hxid, heq⟩)

theorem Shows.repointOne (hoff : o.offload = true) (h : Indexed m)
    (hs : Shows (Seen o d (some { c with entries := e :: rest })) m q)
    (hkind : RecordKind e.bodyRef.kind) (hread : hydrate o.signer d e.item = some r)
    (hat : RecordAt o.signer d ref r.stored) (hnew : NewRef c.last ref) :
    Indexed (Dlq.repointOne m e ref) ∧
      Shows (Seen o d (some { c with entries := rest })) (Dlq.repointOne m e ref) q := by
  have hother : ∀ x r, x.record.id ≠ e.record.id →
      Seen o d (some { c with entries := e :: rest }) x r →
        Seen o d (some { c with entries := rest }) x r := by
    intro x r hid hx
    refine ⟨hx.1, ?_⟩
    intro k hk
    cases hk
    exact (hx.2 _ rfl).other hid
  unfold Dlq.repointOne
  split
  · next hnone =>
    refine ⟨h, hs.transfer_mem (sight_seen _ _ _) ?_⟩
    intro x hx r hr
    refine hother x r ?_ hr
    intro hid
    rw [← hid, h.mem_liveItems.mp hx] at hnone
    cases hnone
  · next it hit =>
    have hid : it.record.id = e.record.id := (h.live _ it hit).1
    rw [← hid] at hit hother
    have hthis : ∀ r', Seen o d (some { c with entries := e :: rest }) it r' →
        Seen o d (some { c with entries := rest }) (repointItem e ref it) r' := by
      intro r' hr'
      refine ⟨?_, ?_⟩
      · have hsees := hr'.1
        rw [hoff] at hsees ⊢
        exact hsees.repoint hid hkind hread hat
      · intro k hk
        cases hk
        exact (hr'.2 _ rfl).repoint hnew
    have ht : Touched m (m.store (repointItem e ref it)) it (repointItem e ref it) :=
      touched_store rfl rfl
    have hstored : Indexed (m.store (repointItem e ref it)) := h.store hit rfl
    exact ⟨hstored, hs.exchange h (sight_seen _ _ _) hit ht hother hthis⟩

theorem Shows.repoint {recs : List Record} {off : Nat} (hoff : o.offload = true)
    (hread : List.Forall₂ (fun e r => hydrate o.signer d e.item = some r) rest recs)
    (hkinds : ∀ e ∈ rest, RecordKind e.bodyRef.kind)
    (hat : ∀ x ∈ placedRecs o.signer c.last off recs, RecordAt o.signer d x.2 x.1) (h : Indexed m)
    (hs : Shows (Seen o d (some { c with entries := rest })) m q) :
    Indexed (Dlq.repoint m (rest.zip ((placedRecs o.signer c.last off recs).map Prod.snd))) ∧
      Shows (Seen o d (some { c with entries := [] }))
        (Dlq.repoint m (rest.zip ((placedRecs o.signer c.last off recs).map Prod.snd))) q := by
  induction hread generalizing off m with
  | nil => exact ⟨h, hs⟩
  | @cons e r rest recs hone _ ih =>
    have hnew : NewRef c.last
        (snapRef o.signer.isSome c.last off (snapFrame o.signer c.last r).length) :=
      .inr ⟨rfl, rfl⟩
    obtain ⟨h', hs'⟩ := Shows.repointOne hoff h hs (hkinds e mem_cons_self) hone
      (hat _ mem_cons_self) hnew
    exact ih (fun x hx => hkinds x (mem_cons_of_mem _ hx))
      (fun x hx => hat x (mem_cons_of_mem _ hx)) h' hs'

end Repointing

section Swapping

variable {o : WalOptions} {sgs : Signing} {w : Wal} {closed : List (List Entry)} {active : List Entry}
variable {c : Compaction} {f : File} {refs : List BlobRef}

variable {base : Nat} {d d' : Dir} {ref : BlobRef} {sg : Option Signer}

theorem CompOk.flatten_length {log : List Entry} (h : CompOk o sgs base d log closed c) :
    c.last + (closed.drop c.old).flatten.length = base + closed.flatten.length := by
  have hlast := h.last_eq
  have hsplit : (closed.take c.old).flatten.length + (closed.drop c.old).flatten.length =
      closed.flatten.length := by
    rw [← length_append, ← flatten_append, take_append_drop]
  omega

section

variable (h : WalOk o sgs w closed active) (hcomp : w.comp = some c)
include h hcomp

/-- The files a compaction leaves hold the log. -/
theorem WalOk.compacted (hcopied : c.copied = some (f, refs)) :
    f.id = c.last ∧ (⟨some f, closed.drop c.old ++ [active]⟩ : Layout).Ok sgs w.log := by
  have hok := h.comp c hcomp
  obtain ⟨recs, -, hq, hfile⟩ := hok.captured
  obtain ⟨rfl, -, hsnap⟩ := hfile f refs hcopied
  obtain ⟨-, hseq⟩ := h.captured_ordered hq
  have hl := h.layout
  have hlen := h.length_log
  have hflat := hok.flatten_length
  have hlast := hok.last_eq
  have hparts : (closed ++ [active]).flatten =
      (closed.take c.old).flatten ++ (closed.drop c.old ++ [active]).flatten := by
    rw [← flatten_append, ← append_assoc, take_append_drop]
  have hsplit : w.log.drop w.snapLSN =
      (closed.take c.old).flatten ++ (closed.drop c.old ++ [active]).flatten :=
    hl.flatten.symm.trans hparts
  refine ⟨rfl, by simp, ?_, ?_, ?_, hl.readable, ?_, hl.lsn_lt, hl.fair, ?_⟩
  · rw [filled_concat]
    exact fun x hx => filled_concat.mp hl.filled x (mem_of_mem_drop hx)
  · change c.last ≤ w.log.length
    omega
  · change (closed.drop c.old ++ [active]).flatten = w.log.drop c.last
    rw [hlast, ← drop_drop, hsplit, drop_left]
  · have hread : PartsReadable sgs (w.snapLSN + 1) (closed ++ [active]) := hl.parts_readable
    have hstart : w.snapLSN + 1 + (closed.take c.old).flatten.length = c.last + 1 := by omega
    rw [← take_append_drop c.old closed, append_assoc, partsReadable_append,
      hstart] at hread
    exact hread.2
  · intro g hg
    cases hg
    refine ⟨⟨recs, c.seq⟩, ?_, ?_, hseq, hq⟩
    · simp only [hok.own _ (Nat.lt_succ_self c.last)]
    · simp only [hok.own _ (Nat.lt_succ_self c.last)]
      exact hsnap

theorem WalOk.segs_split :
    w.segs.take c.old = segFiles sgs (w.snapLSN + 1) (closed.take c.old) ∧
      w.segs.drop c.old = segFiles sgs (c.last + 1) (closed.drop c.old ++ [active]) := by
  have hok := h.comp c hcomp
  have hle := hok.old_le
  have hlast := hok.last_eq
  have hstart : w.snapLSN + 1 + (closed.take c.old).flatten.length = c.last + 1 := by omega
  have hsplit : w.segs = segFiles sgs (w.snapLSN + 1) (closed.take c.old) ++
      segFiles sgs (c.last + 1) (closed.drop c.old ++ [active]) := by
    rw [h.segs, ← hstart, ← segFiles_append, ← append_assoc, take_append_drop]
  have hlength : (segFiles sgs (w.snapLSN + 1) (closed.take c.old)).length = c.old := by
    rw [length_segFiles, length_take]
    omega
  refine ⟨?_, ?_⟩
  · rw [hsplit, take_append_of_le_length hlength.ge, take_of_length_le hlength.le]
  · rw [hsplit, drop_append_of_le_length hlength.ge, drop_of_length_le hlength.le,
      nil_append]

theorem WalOk.old_le_last : ∀ g ∈ w.segs.take c.old, w.snapLSN < g.id ∧ g.id ≤ c.last := by
  have hok := h.comp c hcomp
  rw [(h.segs_split hcomp).1]
  have hlast := hok.last_eq
  have hall : ∀ x ∈ closed.take c.old, x ≠ [] :=
    fun x hx => filled_concat.mp h.layout.filled x (mem_of_mem_take hx)
  intro g hg
  have hrange := segFiles_lt sgs (w.snapLSN + 1) hall g hg
  omega

theorem WalOk.find_snap : w.snap.toList.find? (fun g => decide (g.id = c.last)) = none := by
  refine List.find?_eq_none.mpr fun g hg => ?_
  have hlt := (h.comp c hcomp).lt
  have hbase : w.snapLSN = g.id := by
    unfold Wal.snapLSN
    rw [Option.mem_toList.mp hg]
    rfl
  simp only [decide_eq_true_eq]
  omega

end

/-- The directory in which a compaction has renamed its snapshot. -/
def Wal.withSnap (w : Wal) (f : File) : Dir :=
  ⟨w.segs, w.snap.toList ++ [f], w.aside⟩

theorem WalOk.file_swapped (h : WalOk o sgs w closed active) (hcomp : w.comp = some c)
    (hnew : NewRef c.last ref) :
    (⟨w.segs.drop c.old, [f], w.aside⟩ : Dir).file ref.snap ref.file =
      (w.withSnap f).file ref.snap ref.file := by
  unfold Dir.file Wal.withSnap
  rcases hnew with ⟨hsnap, hlt⟩ | ⟨hsnap, hfile⟩
  · rw [hsnap]
    simp only [Bool.false_eq_true, if_false]
    nth_rewrite 2 [← take_append_drop c.old w.segs]
    have hnone : (w.segs.take c.old).find? (fun g => decide (g.id = ref.file)) = none := by
      refine List.find?_eq_none.mpr fun g hg => ?_
      have := (h.old_le_last hcomp g hg).2
      simp only [decide_eq_true_eq]
      omega
    rw [List.find?_append, hnone, Option.none_or]
  · rw [hsnap]
    simp only [if_true]
    rw [hfile, List.find?_append, h.find_snap hcomp, Option.none_or]

theorem loadFrame_congr (h : d'.file ref.snap ref.file = d.file ref.snap ref.file) :
    loadFrame sg d' ref = loadFrame sg d ref := by
  unfold loadFrame readAt
  rw [h]

theorem hydrate_of_files {it : Item} {r : Record} (hkind : RecordKind it.bodyRef.kind)
    (hbody : d'.file it.bodyRef.snap it.bodyRef.file = d.file it.bodyRef.snap it.bodyRef.file)
    (hckpt : it.ckptRef.valid = false ∨
      d'.file it.ckptRef.snap it.ckptRef.file = d.file it.ckptRef.snap it.ckptRef.file)
    (h : hydrate sg d it = some r) :
    hydrate sg d' it = some r := by
  obtain ⟨full, cp, hfull, hcp, hr⟩ := (hydrate_disk hkind).mp h
  refine (hydrate_disk hkind).mpr ⟨full, cp, ?_, ?_, hr⟩
  · unfold loadRecord at hfull ⊢
    rw [loadFrame_congr hbody]
    exact hfull
  · rw [← hcp]
    unfold checkpointOf
    rcases hckpt with hinvalid | hckpt
    · rw [hinvalid]
      rfl
    · unfold loadCheckpoint loadRecord
      rw [loadFrame_congr hckpt]

theorem EndsAt.of_length {base' n k : Nat} {closed' : List (List Entry)}
    (h : EndsAt sg base closed active n k)
    (hlen : base' + closed'.flatten.length = base + closed.flatten.length) :
    EndsAt sg base' closed' active n k := by
  obtain ⟨j, hj, hn, hk⟩ := h
  refine ⟨j, hj, by omega, ?_⟩
  have hstart : base' + 1 + closed'.flatten.length = base + 1 + closed.flatten.length := by omega
  rw [hstart]
  exact hk

/-- The machine behind the swap stands for the same queue, read from the files that
are left. -/
theorem WalOk.shows_swapped (h : WalOk o sgs w closed active) (hcomp : w.comp = some c)
    (hcopied : c.copied = some (f, refs)) {q : Queue}
    (hs : Shows (Seen o w.dir w.comp) w.core.m q) :
    Indexed (w.swap o c f refs).core.m ∧
      Shows (Seen o (w.swap o c f refs).dir none) (w.swap o c f refs).core.m q := by
  have hok := h.comp c hcomp
  obtain ⟨recs, hread, -, hfile⟩ := hok.captured
  obtain ⟨hf, hrefs, hsnap⟩ := hfile f refs hcopied
  rw [hcomp] at hs
  cases hoff : o.offload with
  | false =>
    have hm : (w.swap o c f refs).core.m = w.core.m := by
      simp only [Wal.swap, hoff, Bool.false_eq_true, if_false]
    rw [hm]
    refine ⟨h.core.indexed, hs.transfer (sight_seen _ _ _) ?_⟩
    rintro it r ⟨hsees, -⟩
    obtain ⟨hbody, hckpt⟩ := hsees.held hoff
    refine ⟨⟨?_, hsees.disk, hsees.held, hsees.whole⟩, by rintro k ⟨⟩⟩
    have hr := hsees.read
    rw [hydrate_held hbody hckpt] at hr ⊢
    exact hr
  | true =>
    have hm : (w.swap o c f refs).core.m = repoint w.core.m (c.entries.zip refs) := by
      simp only [Wal.swap, hoff, if_true]
    have hkept : Dir.Kept w.dir (w.withSnap f) :=
      kept_of_grow (FilesGrow.refl _) (filesGrow_append _ _)
    -- the copies are in the snapshot
    have hnone := h.find_snap hcomp
    have hdata : (w.withSnap f).file true c.last =
        some (encodeHeaderFlags snapMagic c.last (fileFlags o.signer)
          ++ snapFrames o.signer c.last recs
          ++ snapFooter o.signer c.last recs.length c.seq) := by
      unfold Dir.file Wal.withSnap
      rw [hf]
      simp only [if_true, List.find?_append, hnone, Option.none_or, List.find?_cons,
        decide_true, Option.map_some, snapData, append_assoc]
    have hat := recordAt_placedRecs (.inl rfl) _ hdata hsnap
    have hread' : List.Forall₂ (fun e r => hydrate o.signer (w.withSnap f) e.item = some r)
        c.entries recs := hread.imp fun _ _ hr => hkept.hydrate hr
    have hs' : Shows (Seen o (w.withSnap f) (some { c with entries := c.entries })) w.core.m q :=
      hs.transfer (sight_seen _ _ _) fun it r hr => ⟨hr.1.mono hkept, hr.2⟩
    obtain ⟨hindexed, hshows⟩ := Shows.repoint hoff hread' (hok.kinds hoff) hat
      h.core.indexed hs'
    rw [hm, hrefs]
    refine ⟨hindexed, hshows.transfer (sight_seen _ _ _) ?_⟩
    rintro it r ⟨hsees, hknown⟩
    obtain ⟨hbody, hckpt⟩ := hknown _ rfl
    have hbody' : NewRef c.last it.bodyRef :=
      hbody.resolve_right (by rintro ⟨e, ⟨⟩, -⟩)
    have hckpt' : it.ckptRef.valid = false ∨ NewRef c.last it.ckptRef := by
      rcases hckpt with hinvalid | hnew | ⟨e, he, -⟩
      · exact .inl hinvalid
      · exact .inr hnew
      · cases he
    refine ⟨⟨?_, hsees.disk, hsees.held, hsees.whole⟩, by rintro k ⟨⟩⟩
    refine hydrate_of_files (hsees.disk hoff) ?_ ?_ hsees.read
    · exact h.file_swapped hcomp hbody'
    · exact hckpt'.imp id fun hnew => h.file_swapped hcomp hnew

theorem WalOk.swap (h : WalOk o sgs w closed active) (hcomp : w.comp = some c)
    (hcopied : c.copied = some (f, refs)) (hidle : w.core.commit = none) :
    WalOk o sgs (w.swap o c f refs) (closed.drop c.old) active := by
  obtain ⟨q, hs, hreborn⟩ := h.shown
  obtain ⟨hindexed, hshows⟩ := h.shows_swapped hcomp hcopied hs
  obtain ⟨hid, hlayout⟩ := h.compacted hcomp hcopied
  have hlen := (h.comp c hcomp).flatten_length
  have hbase : (w.swap o c f refs).snapLSN = c.last := hid
  have hown : ∀ n, c.last + 1 + (closed.drop c.old).flatten.length ≤ n → sgs n = o.signer :=
    fun n hn => h.own n (by omega)
  have hreads : ∀ n, c.last < n → o.Reads (sgs n) :=
    fun n hn => .inl ((h.comp c hcomp).own n hn)
  refine ⟨?_, hbase ▸ hreads, hbase ▸ hown, hlayout, ?_, h.next, ⟨q, hshows, hreborn⟩, h.seqs, ?_, ?_,
    ?_, h.acked⟩
  · have hcore := coreOk_idle hindexed (w.swap o c f refs).core.picked
    have hnone : (w.swap o c f refs).core.commit = none := hidle
    rw [← hnone] at hcore
    exact hcore
  · rw [hbase]
    exact (h.segs_split hcomp).2
  · exact fun k hk => nomatch hk
  · rw [hbase]
    exact h.synced.of_length hlen
  · intro n k hnk
    rw [hbase]
    exact (h.flight n k hnk).of_length hlen

end Swapping

end Dlq
end GoGuard
