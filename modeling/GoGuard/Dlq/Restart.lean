import GoGuard.Dlq.StoreRefine

/-!
# Loading a snapshot and ending a replay

A restarted store begins with an empty machine, inserts the records of its
snapshot, replays the log behind it and ends the leases of the process that is
gone.  Here is what the first and the last step do to the queue the machine
shows; the replay itself is `Shows.applyEntry`.
-/

namespace GoGuard
namespace Dlq

open Lib Machine List

namespace Queue

theorem foldl_push {q : Queue} {recs : List Record} (hasc : Ascending Record.seq recs)
    (hseq : ∀ r ∈ recs, q.seq < r.seq) (hnodup : ((q.recs ++ recs).map Record.id).Nodup) :
    (recs.foldl push q).recs = q.recs ++ recs ∧
      ((recs.foldl push q).seq = q.seq ∨ ∃ r ∈ recs, (recs.foldl push q).seq = r.seq) := by
  induction recs generalizing q with
  | nil => exact ⟨(append_nil _).symm, .inl rfl⟩
  | cons r recs ih =>
    obtain ⟨hlt, hasc⟩ := pairwise_cons.mp hasc
    have hnew : ¬ ∃ x ∈ q.recs, x.id = r.id := by
      rintro ⟨x, hx, hid⟩
      rw [map_append, nodup_append] at hnodup
      exact hnodup.2.2 x.id (mem_map_of_mem hx) r.id (by simp) hid
    have hpush : q.push r = ⟨q.recs ++ [r], r.seq⟩ := by
      unfold push
      rw [if_neg hnew, if_pos (hseq r mem_cons_self)]
    rw [foldl_cons, hpush]
    obtain ⟨hrecs, hlast⟩ := ih (q := ⟨q.recs ++ [r], r.seq⟩) hasc (fun x hx => hlt x hx)
      (by simpa using hnodup)
    refine ⟨by simpa using hrecs, .inr ?_⟩
    rcases hlast with hlast | ⟨x, hx, hlast⟩
    · exact ⟨r, mem_cons_self, hlast⟩
    · exact ⟨x, mem_cons_of_mem _ hx, hlast⟩

/-- The Seq of a footer. -/
def raise (q : Queue) (seq : Nat) : Queue :=
  { q with seq := if seq > q.seq then seq else q.seq }

theorem Ordered.reload {q : Queue} (h : Ordered q) :
    (q.recs.foldl Queue.push empty).raise q.seq = q := by
  have hnodup : ((empty.recs ++ q.recs).map Record.id).Nodup := h.nodup
  obtain ⟨hrecs, hseq⟩ := foldl_push h.asc h.pos hnodup
  have hle : (q.recs.foldl Queue.push empty).seq ≤ q.seq := by
    rcases hseq with hseq | ⟨r, hr, hseq⟩
    · rw [hseq]
      exact Nat.zero_le _
    · rw [hseq]
      exact h.le r hr
  have hmax : (if q.seq > (q.recs.foldl Queue.push empty).seq then q.seq
      else (q.recs.foldl Queue.push empty).seq) = q.seq := by
    split
    · rfl
    · omega
  unfold raise
  rw [hrecs, hmax]
  rfl

theorem ordered_of_fair {es : List Entry} {q : Queue} (hfair : FairLog empty es)
    (hq : q.reborn = (empty.replay es).reborn) : Ordered q := by
  rw [← ordered_reborn, hq, ordered_reborn]
  exact ordered_empty.replay hfair

end Queue

section Loading

variable {R : Item → Record → Prop} {offload : Bool}
variable {m : Machine} {q : Queue}

theorem Shows.loadRecords {recs : List (Record × BlobRef)} {recs₀ : List Record} (h : Indexed m)
    (hs : Shows R m q)
    (hfind : List.Forall₂ (fun x r₀ => R (newItem offload x.1 x.2) r₀) recs recs₀)
    (hasc : Ascending Record.seq recs₀) (hseq : ∀ r ∈ recs₀, q.seq < r.seq) :
    Indexed (loadRecords offload m recs) ∧
      Shows R (loadRecords offload m recs) (recs₀.foldl Queue.push q) := by
  unfold Dlq.loadRecords
  induction hfind generalizing m q with
  | nil => exact ⟨h, hs⟩
  | @cons x r₀ recs recs₀ hread _ ih =>
    obtain ⟨hlt, hasc⟩ := pairwise_cons.mp hasc
    have hnew := hseq r₀ mem_cons_self
    have hseq₀ : r₀.seq = x.1.seq :=
      (hs.sight.same hread).2.1.trans (newItem_meta offload x.1 x.2).1
    refine ih (Indexed.insertRecord h (.inr ?_)) (hs.insertRecord h hread) hasc ?_
    · rw [hs.seq, ← hseq₀]
      exact hnew
    · intro r hr
      have hle : (q.push r₀).seq ≤ r₀.seq := by
        unfold Queue.push
        split
        · exact hnew.le
        · exact le_refl _
      exact lt_of_le_of_lt hle (hlt r hr)

theorem Shows.raiseSeq (hs : Shows R m q) (seq : Nat) : Shows R (raiseSeq m seq) (q.raise seq) := by
  refine ⟨hs.sight, hs.recs, ?_, hs.bytes⟩
  unfold Dlq.raiseSeq Queue.raise
  rw [hs.seq]

theorem Indexed.raiseSeq (h : Indexed m) (seq : Nat) : Indexed (raiseSeq m seq) := by
  have hle : m.seq ≤ (Dlq.raiseSeq m seq).seq := by
    unfold Dlq.raiseSeq
    simp only
    split
    · next hlt => exact hlt.le
    · exact le_refl _
  refine h.frame rfl hle ?_ ?_ ?_ ?_ ?_
  · exact fun _ => rfl
  · exact fun _ => rfl
  · exact fun d g hg => ⟨g, hg, rfl, rfl⟩
  · exact fun _ => rfl
  · exact fun _ => rfl

/-- A machine that loads a snapshot of a queue shows the queue. -/
theorem shows_loaded {recs : List (Record × BlobRef)} (hR : Sight R) (lim : Limits)
    (ho : Queue.Ordered q)
    (hfind : List.Forall₂ (fun x r₀ => R (newItem offload x.1 x.2) r₀) recs q.recs) :
    Indexed (raiseSeq (loadRecords offload (newMachine lim) recs) q.seq) ∧
      Shows R (raiseSeq (loadRecords offload (newMachine lim) recs) q.seq) q := by
  obtain ⟨hindexed, hshows⟩ :=
    (shows_new hR lim).loadRecords (indexed_new lim) hfind ho.asc ho.pos
  refine ⟨Indexed.raiseSeq hindexed q.seq, ?_⟩
  have hq := hshows.raiseSeq q.seq
  rw [ho.reload] at hq
  exact hq

end Loading

section Ending

variable {R : Item → Record → Prop}
variable {m : Machine} {q : Queue} {it : Item}

theorem metaOnly_settle : MetaOnly Record.settle :=
  fun _ _ => ⟨rfl, rfl, rfl⟩

theorem touched_endReplayOne (hit : m.items.get it.record.id = some it) :
    ∃ it', Touched m (m.endReplayOne it.ptr) it it' ∧ Revised Record.settle it it' := by
  have hget : m.items.get it.ptr.id = some it := hit
  unfold endReplayOne
  rw [hget]
  simp only
  split
  · next hleased =>
    obtain ⟨grp, h⟩ := touched_moveUpdate it hit rfl rfl .pending it.record.blockedOn
      Item.unlease (fun _ => rfl) (fun _ => rfl)
    refine ⟨_, h, ⟨?_, rfl, rfl, rfl, rfl, fun hfit => hfit⟩⟩
    unfold Record.settle
    rw [if_pos hleased]
    rfl
  · next hfree =>
    refine ⟨it, touched_aside hit rfl rfl rfl rfl rfl, ⟨?_, rfl, rfl, rfl, rfl, fun h => h⟩⟩
    unfold Record.settle
    rw [if_neg hfree]

theorem Indexed.endReplayOne (h : Indexed m) (p : Ptr) : Indexed (m.endReplayOne p) := by
  unfold Machine.endReplayOne
  split
  · exact h
  · next it hit =>
    split
    · have hmove := IndexedBut.move h (h.get_ptr hit) rfl .pending it.record.blockedOn
      exact hmove.update _ fun _ => rfl
    · exact h

theorem Shows.endReplayOne (h : Indexed m) (hs : Shows R m q) {p : Ptr} (hp : p ∈ m.order) :
    Shows R (m.endReplayOne p) (q.touch p.id fun r => some r.settle) := by
  obtain ⟨it, hit, rfl⟩ := h.ptr p hp
  have hit' := h.get_ptr hit
  obtain ⟨it', ht, hrev⟩ := touched_endReplayOne hit'
  exact hs.revise h hit' ht metaOnly_settle hrev

theorem order_endReplayOne (h : Indexed m) (p : Ptr) : (m.endReplayOne p).order = m.order := by
  cases hit : m.items.get p.id with
  | none =>
    unfold endReplayOne
    rw [hit]
  | some it =>
    obtain ⟨it', ht, -⟩ := touched_endReplayOne (h.get_ptr hit)
    have hid : it.ptr.id = p.id := (h.live _ it hit).1
    have hone : m.endReplayOne p = m.endReplayOne it.ptr := by
      unfold endReplayOne
      rw [hid]
    rw [hone]
    exact ht.order

theorem Shows.settleAll (h : Indexed m) (hs : Shows R m q) :
    q.touchAll ((m.order.map Ptr.id).map fun id => (id, fun r => some r.settle)) =
      q.settled := by
  rw [Queue.touchAll_settle]
  refine congrArg₂ Queue.mk (map_congr_left fun r hr => ?_) rfl
  obtain ⟨it, hit, -⟩ := hs.item h hr
  obtain ⟨hid, hmem⟩ := h.live _ it hit
  exact if_pos (mem_map.mpr ⟨it.ptr, hmem, hid⟩)

theorem Shows.endReplay (h : Indexed m) (hs : Shows R m q) :
    Indexed m.endReplay ∧ Shows R m.endReplay q.settled := by
  have hfold : ∀ ps : List Ptr, (∀ p ∈ ps, p ∈ m.order) →
      Indexed (ps.foldl Machine.endReplayOne m) ∧
        Shows R (ps.foldl Machine.endReplayOne m)
          (q.touchAll ((ps.map Ptr.id).map fun id => (id, fun r => some r.settle))) := by
    intro ps
    induction ps generalizing m q with
    | nil => exact fun _ => ⟨h, hs⟩
    | cons p ps ih =>
      intro hps
      refine ih (Indexed.endReplayOne h p) (hs.endReplayOne h (hps p mem_cons_self)) ?_
      intro x hx
      rw [order_endReplayOne h]
      exact hps x (mem_cons_of_mem _ hx)
  obtain ⟨hindexed, hshows⟩ := hfold m.order fun _ hp => hp
  refine ⟨hindexed, ?_⟩
  rw [hs.settleAll h] at hshows
  exact hshows

end Ending

end Dlq
end GoGuard
