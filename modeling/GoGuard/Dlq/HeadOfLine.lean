import GoGuard.Dlq.Restart

/-!
# Head-of-line exclusivity per order key

A store over its whole life: calls and leases, snapshots, and restarts that find
any part of the log that reaches at least to the snapshot they load.  The log
keeps beside each entry what it told about records when it was logged, and a
restart forgets what it does not find.  In every state, mid-replay included, at
most one record of an order key is leased, and it is the first; and the history
is in order.

Payloads do not matter here, so the queue the machine shows is one without them,
and where frames land is left open.
-/

namespace GoGuard
namespace Dlq

open Lib Machine Queue List

section Model

/-- What an entry does to records, told in the machine before it. -/
def Machine.events (m : Machine) : Entry → List Event
  | .append r =>
    if (m.items.get r.id).isSome then [] else [.inserted ⟨r.id, r.seq⟩ r.orderKey]
  | .lease ids =>
    ids.flatMap fun id =>
      (m.items.get id).toList.map fun it => .granted it.ptr it.record.orderKey
  | .ack id =>
    (m.items.get id).toList.map fun it => .removed it.ptr it.record.orderKey
  | .discard id =>
    ((m.items.get id).toList.filter fun it => it.record.state = .parked).map fun it =>
      .removed it.ptr it.record.orderKey
  | _ => []

/-- An entry as the log holds it, and what it told. -/
structure LogLine where
  entry : Entry
  events : List Event
deriving DecidableEq

/-- A snapshot: the records behind the first `upTo` entries, and the Seq of its
footer. -/
structure Snapshot where
  upTo : Nat
  recs : List Record
  seq : Nat
deriving DecidableEq

/-- A store, its log and its snapshots.  `todo` are the entries a restart has
still to replay. -/
structure Life where
  core : Core
  log : List LogLine
  snaps : List Snapshot
  todo : Option (List Entry)
deriving DecidableEq

def Life.new (lim : Limits) : Life where
  core := .new lim
  log := []
  snaps := []
  todo := none

inductive LifeAct where
  /-- a step of the store; an entry lands at `ref` -/
  | core (a : CoreAct) (ref : BlobRef)
  /-- a compaction captures the records; `pays` are the payloads read for them -/
  | snapshot (pays : List Payload)
  /-- a restart that finds the first `kept` entries and a snapshot, if any -/
  | restart (kept : Nat) (snap : Option Snapshot) (refs : List BlobRef)
  | replayOne (ref : BlobRef)
  | endReplay
deriving DecidableEq

/-- The record a snapshot holds for an item: its lease has ended. -/
def snapped (it : Item) (p : Payload) : Record :=
  (it.record.withPayload p).settle.stored

/-- The machine a restart begins its replay with. -/
def restarted (offload : Bool) (lim : Limits) (snap : Option Snapshot) (refs : List BlobRef) :
    Machine :=
  match snap with
  | none => newMachine lim
  | some sn => raiseSeq (loadRecords offload (newMachine lim) (sn.recs.zip refs)) sn.seq

/-- The entries a snapshot covers. -/
def covered (snap : Option Snapshot) : Nat :=
  (snap.map Snapshot.upTo).getD 0

/-- A snapshot a restart may load. -/
def loadable (s : Life) (kept : Nat) (refs : List BlobRef) (snap : Option Snapshot) : Bool :=
  match snap with
  | none => true
  | some sn => sn ∈ s.snaps && sn.upTo ≤ kept && refs.length = sn.recs.length

def Life.step (offload : Bool) (lim : Limits) (s : Life) : LifeAct → Option Life
  | .core a ref =>
    if s.todo ≠ none then none
    else
      match s.core.step offload (fun _ => ref) a with
      | none => none
      | some (c, none) => some { s with core := c }
      | some (c, some e) =>
        some { s with core := c, log := s.log ++ [⟨e.stored, s.core.m.events e⟩] }
  | .snapshot pays =>
    if s.todo = none ∧ pays.length = s.core.m.liveItems.length then
      some { s with
        snaps := s.snaps ++
          [⟨s.log.length, List.zipWith snapped s.core.m.liveItems pays, s.core.m.seq⟩] }
    else none
  | .restart kept snap refs =>
    if kept ≤ s.log.length ∧ loadable s kept refs snap then
      some
        { core := ⟨restarted offload lim snap refs, [], none⟩
          log := s.log.take kept
          snaps := s.snaps.filter (·.upTo ≤ kept)
          todo := some (((s.log.take kept).drop (covered snap)).map LogLine.entry) }
    else none
  | .replayOne ref =>
    match s.todo with
    | some (e :: es) =>
      some { s with
        core := { s.core with m := applyEntry offload s.core.m ref e }
        todo := some es }
    | _ => none
  | .endReplay =>
    match s.todo with
    | some [] =>
      some { s with
        core := { s.core with m := s.core.m.endReplay }
        todo := none }
    | _ => none

/-- What the log tells. -/
def Life.history (s : Life) : List Event :=
  s.log.flatMap LogLine.events

end Model

section Bare

/-- Nothing is read back. -/
def noPayload : Payload := ⟨none, none, [], none⟩

/-- The record an item stands for, without its payload. -/
def Bare (it : Item) (r : Record) : Prop :=
  reading (fun _ => some noPayload) it = some r

theorem sight_bare : Sight Bare :=
  sight_reading _

def Record.bare (r : Record) : Record :=
  r.withPayload noPayload

/-- An entry without payloads. -/
def Entry.bare : Entry → Entry
  | .append r => .append r.bare
  | .checkpoint id _ => .checkpoint id none
  | .requeue id true _ => .requeue id true none
  | e => e

theorem finds_bare (offload : Bool) (ref : BlobRef) (e : Entry) :
    Finds Bare offload ref e e.bare := by
  have hckpt : ∀ id cp, FindsCheckpoint Bare offload ref id cp none := by
    intro id cp it it' r _ hwith hr
    obtain ⟨p, hp, rfl⟩ := reading_eq_some hr
    cases hp
    unfold Bare reading
    rw [hwith.record]
    rfl
  cases e with
  | append r =>
    refine ⟨r.bare, rfl, ?_⟩
    cases offload <;> rfl
  | checkpoint id cp => exact ⟨none, rfl, hckpt id cp⟩
  | requeue id replace cp =>
    cases replace with
    | false => rfl
    | true => exact ⟨none, rfl, hckpt id cp⟩
  | _ => rfl

theorem Entry.stored_bare (e : Entry) : e.stored.bare = e.bare.stored := by
  cases e with
  | requeue id replace cp => cases replace <;> rfl
  | _ => rfl

theorem Shows.events {m : Machine} {q : Queue} (h : Indexed m) (hs : Shows Bare m q) (e : Entry) :
    m.events e = q.events e.bare := by
  have hmap : ∀ (f : Item → Event) (g : Record → Event) (l : List Item) (l' : List Record),
      (∀ it r, Bare it r → f it = g r) → List.Forall₂ Bare l l' → l.map f = l'.map g := by
    intro f g l l' hfg hl
    induction hl with
    | nil => rfl
    | cons hr _ ih => rw [map_cons, map_cons, hfg _ _ hr, ih]
  have hptr : ∀ it r, Bare it r →
      it.ptr = (⟨r.id, r.seq⟩ : Ptr) ∧ it.record.orderKey = r.orderKey := by
    intro it r hr
    obtain ⟨hid, hseq, hkey, -⟩ := hs.sight.same hr
    exact ⟨by rw [hid, hseq]; rfl, hkey.symm⟩
  cases e with
  | append r =>
    have hknown : (m.items.get r.id).isSome = true ↔ ∃ x ∈ q.recs, x.id = r.bare.id := by
      constructor
      · intro hsome
        obtain ⟨it, hit⟩ := Option.isSome_iff_exists.mp hsome
        obtain ⟨x, hx, hr⟩ := hs.record h (h.get_ptr hit)
        exact ⟨x, hx, (hs.sight.same hr).1.trans (h.live _ it hit).1⟩
      · rintro ⟨x, hx, hid⟩
        obtain ⟨it, hit, -⟩ := hs.item h hx
        rw [hid] at hit
        exact Option.isSome_iff_exists.mpr ⟨it, hit⟩
    exact if_congr hknown rfl rfl
  | lease ids =>
    refine flatMap_congr fun id _ => hmap _ _ _ _ ?_ (hs.found h id)
    intro it r hr
    rw [(hptr it r hr).1, (hptr it r hr).2]
  | ack id =>
    refine hmap _ _ _ _ ?_ (hs.found h id)
    intro it r hr
    rw [(hptr it r hr).1, (hptr it r hr).2]
  | discard id =>
    simp only [Machine.events, Entry.bare, Queue.events]
    have hparked : List.Forall₂ Bare
        ((m.items.get id).toList.filter fun it => it.record.state = .parked)
        ((q.recs.filter fun r => r.id = id).filter fun r => r.state = .parked) := by
      refine rel_filter (fun it r hr => ?_) (hs.found h id)
      simp only [decide_eq_true_eq, (hs.sight.same hr).2.2.2]
    have hand : (q.recs.filter fun r => r.id = id ∧ r.state = .parked) =
        (q.recs.filter fun r => r.id = id).filter fun r => r.state = .parked := by
      rw [filter_filter]
      refine filter_congr fun r _ => ?_
      rw [Bool.decide_and, Bool.and_comm]
    rw [hand]
    refine hmap _ _ _ _ ?_ hparked
    intro it r hr
    rw [(hptr it r hr).1, (hptr it r hr).2]
  | requeue id replace cp => cases replace <;> rfl
  | checkpoint id cp => rfl
  | nack id stamp next errText blockedOn refund => rfl
  | release id => rfl
  | park id stamp reason => rfl

end Bare

section Invariant

/-- The log without payloads. -/
def bareLog (log : List LogLine) : List Entry :=
  log.map fun x => x.entry.bare

/-- The queue a snapshot holds is the one its part of the log makes. -/
structure SnapOk (log : List LogLine) (sn : Snapshot) : Prop where
  le : sn.upTo ≤ log.length
  free : ∀ r ∈ sn.recs, r.state ≠ .leased
  queue : (⟨sn.recs.map Record.bare, sn.seq⟩ : Queue).reborn =
    (empty.replay (bareLog (log.take sn.upTo))).reborn

/-- What holds in every state of a store's life.  The machine shows a queue that
the part of the log it has taken in makes, up to what a restart changes. -/
structure LifeOk (s : Life) : Prop where
  core : CoreOk s.core
  idle : s.todo ≠ none → s.core.commit = none
  stored : ∀ x ∈ s.log, x.entry.stored = x.entry
  fair : FairLog empty (bareLog s.log)
  told : ∀ k, (s.log.take k).flatMap LogLine.events = empty.history (bareLog (s.log.take k))
  shown : ∃ q done, bareLog s.log = done ++ (s.todo.getD []).map Entry.bare ∧
    Shows Bare s.core.m q ∧ LeasedHeads q ∧ q.reborn = (empty.replay done).reborn
  snaps : ∀ sn ∈ s.snaps, SnapOk s.log sn

theorem lifeOk_new (lim : Limits) :
    LifeOk (.new lim) where
  core := coreOk_new lim
  idle h := absurd rfl h
  stored x hx := by cases hx
  fair := trivial
  told k := by
    simp only [Life.new, take_nil]
    rfl
  shown := by
    refine ⟨empty, [], rfl, shows_new sight_bare lim, ?_, rfl⟩
    intro r hr
    cases hr
  snaps sn hsn := by cases hsn

theorem bareLog_append (log log' : List LogLine) :
    bareLog (log ++ log') = bareLog log ++ bareLog log' := by
  exact map_append

variable {s : Life} {offload : Bool} {ref : BlobRef} {a : CoreAct} {c : Core} {e : Entry}
  {items : List Item} {pays : List Payload} {log : List LogLine} {refs : List BlobRef} {kept : Nat}
  {snap : Option Snapshot}

theorem LifeOk.logged (h : LifeOk s) (hlive : s.todo = none)
    (hstep : s.core.step offload (fun _ => ref) a = some (c, some e)) :
    LifeOk { s with core := c, log := s.log ++ [⟨e.stored, s.core.m.events e⟩] } := by
  obtain ⟨hcore, heff⟩ := core_step h.core hstep
  obtain ⟨q, done, hdone, hshows, hheads, hreborn⟩ := h.shown
  rw [hlive, Option.getD_none, map_nil, append_nil] at hdone
  subst hdone
  obtain ⟨hfair, hshows'⟩ := hshows.logged h.core.indexed heff (finds_bare offload ref e)
  have hordered : Ordered q := ordered_of_fair h.fair hreborn
  -- what the log holds is the stored form of the entry
  have hbare : bareLog [⟨e.stored, s.core.m.events e⟩] = [e.bare.stored] := by
    simp only [bareLog, map_cons, map_nil, Entry.stored_bare]
  have hfair' : (empty.replay (bareLog s.log)).Fair e.bare.stored := hfair.restart hreborn.symm
  have hevents : s.core.m.events e = (empty.replay (bareLog s.log)).events e.bare.stored := by
    rw [hshows.events h.core.indexed, events_restart hreborn.symm]
  refine ⟨hcore, ?_, ?_, ?_, ?_, ?_, ?_⟩
  · exact fun hbusy => absurd hlive hbusy
  · intro x hx
    rcases mem_append.mp hx with hx | hx
    · exact h.stored x hx
    · rw [mem_singleton.mp hx]
      exact Entry.stored_stored e
  · rw [bareLog_append, hbare, fairLog_append]
    exact ⟨h.fair, hfair', trivial⟩
  · intro k
    rcases Nat.lt_or_ge s.log.length k with hlt | hge
    · -- the whole log, the new line included
      rw [take_of_length_le (by simpa using hlt), flatMap_append, bareLog_append,
        history_append, hbare]
      have hall := h.told s.log.length
      rw [take_length] at hall
      rw [hall]
      simp [history, hevents]
    · rw [take_append_of_le_length hge]
      exact h.told k
  · refine ⟨q.apply e.bare, bareLog s.log ++ [e.bare.stored], ?_, hshows', ?_, ?_⟩
    · rw [bareLog_append, hbare, hlive]
      simp
    · exact hheads.apply hordered hfair
    · rw [replay_append, replay_cons, replay_nil]
      exact (reborn_apply hreborn.symm e.bare).symm
  · intro sn hsn
    obtain ⟨hle, hfree, hqueue⟩ := h.snaps sn hsn
    refine ⟨?_, hfree, ?_⟩
    · rw [length_append]
      omega
    · rw [take_append_of_le_length hle]
      exact hqueue

theorem LifeOk.silent (h : LifeOk s) (hlive : s.todo = none)
    (hstep : s.core.step offload (fun _ => ref) a = some (c, none)) :
    LifeOk { s with core := c } := by
  obtain ⟨hcore, heff⟩ := core_step h.core hstep
  obtain ⟨q, done, hdone, hshows, hheads, hreborn⟩ := h.shown
  refine ⟨hcore, fun hbusy => absurd hlive hbusy, h.stored, h.fair, h.told, ?_, h.snaps⟩
  exact ⟨q, done, hdone, heff Bare q hshows, hheads, hreborn⟩

/-- The records of a snapshot are the queue as a restart leaves it. -/
theorem map_bare_zipWith_snapped {recs : List Record} (hrecs : List.Forall₂ Bare items recs)
    (hlen : pays.length = items.length) :
    (List.zipWith snapped items pays).map Record.bare = recs.map Record.reborn := by
  induction hrecs generalizing pays with
  | nil => rfl
  | @cons it r items recs hr _ ih =>
    cases pays with
    | nil => cases hlen
    | cons p pays =>
      obtain ⟨p', hp', rfl⟩ := reading_eq_some hr
      cases hp'
      rw [zipWith_cons_cons, map_cons, map_cons, ih (Nat.succ.inj hlen)]
      rfl

theorem snapped_not_leased {r : Record} (hr : r ∈ List.zipWith snapped items pays) :
    r.state ≠ .leased := by
  obtain ⟨i, hi, rfl⟩ := mem_iff_getElem.mp hr
  rw [getElem_zipWith]
  unfold snapped Record.stored Record.settle
  split
  · intro heq
    cases heq
  · next hstate => exact hstate

theorem LifeOk.snapshot (h : LifeOk s) (hlive : s.todo = none)
    (hlen : pays.length = s.core.m.liveItems.length) :
    LifeOk { s with
      snaps := s.snaps ++
        [⟨s.log.length, List.zipWith snapped s.core.m.liveItems pays, s.core.m.seq⟩] } := by
  refine ⟨h.core, h.idle, h.stored, h.fair, h.told, h.shown, ?_⟩
  intro sn hsn
  rcases mem_append.mp hsn with hsn | hsn
  · exact h.snaps sn hsn
  · rw [mem_singleton.mp hsn]
    obtain ⟨q, done, hdone, hshows, -, hreborn⟩ := h.shown
    rw [hlive, Option.getD_none, map_nil, append_nil] at hdone
    refine ⟨le_refl _, fun r hr => snapped_not_leased hr, ?_⟩
    simp only
    rw [map_bare_zipWith_snapped hshows.recs hlen, hshows.seq, take_length, hdone,
      ← hreborn]
    exact q.reborn_reborn

theorem fairLog_take (hfair : FairLog empty (bareLog log)) (k : Nat) :
    FairLog empty (bareLog (log.take k)) := by
  rw [← take_append_drop k log, bareLog_append, fairLog_append] at hfair
  exact hfair.1

/-- The queue of a snapshot. -/
def Snapshot.queue (sn : Snapshot) : Queue :=
  ⟨sn.recs.map Record.bare, sn.seq⟩

theorem SnapOk.shows {sn : Snapshot} (h : SnapOk log sn) (hfair : FairLog empty (bareLog log))
    (hlen : refs.length = sn.recs.length) (offload : Bool) (lim : Limits) :
    Indexed (restarted offload lim (some sn) refs) ∧
      Shows Bare (restarted offload lim (some sn) refs) sn.queue := by
  have hordered : Ordered sn.queue := ordered_of_fair (fairLog_take hfair sn.upTo) h.queue
  refine shows_loaded sight_bare lim hordered ?_
  have hfind : ∀ (recs : List Record) (refs : List BlobRef), refs.length = recs.length →
      List.Forall₂ (fun x r₀ => Bare (newItem offload x.1 x.2) r₀) (recs.zip refs)
        (recs.map Record.bare) := by
    intro recs
    induction recs with
    | nil =>
      intro refs _
      exact .nil
    | cons r recs ih =>
      intro refs hlen
      cases refs with
      | nil => cases hlen
      | cons ref refs =>
        refine .cons ?_ (ih refs (Nat.succ.inj hlen))
        cases offload <;> rfl
  exact hfind sn.recs refs hlen

theorem leasedHeads_of_free {q : Queue} (hfree : ∀ r ∈ q.recs, r.state ≠ .leased) :
    LeasedHeads q := by
  intro r hr hleased
  exact absurd hleased (hfree r hr)

theorem LifeOk.restarted (h : LifeOk s) (hload : loadable s kept refs snap = true)
    (offload : Bool) (lim : Limits) :
    covered snap ≤ kept ∧ Indexed (restarted offload lim snap refs) ∧
      ∃ q, Shows Bare (restarted offload lim snap refs) q ∧ LeasedHeads q ∧
        q.reborn = (empty.replay (bareLog (s.log.take (covered snap)))).reborn := by
  cases snap with
  | none =>
    refine ⟨Nat.zero_le _, indexed_new lim, empty, shows_new sight_bare lim, ?_, rfl⟩
    intro r hr
    cases hr
  | some sn =>
    simp only [loadable, Bool.and_eq_true, decide_eq_true_eq] at hload
    obtain ⟨⟨hsn, hle⟩, hlen⟩ := hload
    have hok := h.snaps sn hsn
    obtain ⟨hindexed, hshows⟩ := hok.shows h.fair hlen offload lim
    refine ⟨hle, hindexed, sn.queue, hshows, leasedHeads_of_free ?_, hok.queue⟩
    intro r hr
    obtain ⟨x, hx, rfl⟩ := mem_map.mp hr
    exact hok.free x hx

theorem LifeOk.restart (h : LifeOk s) (hload : loadable s kept refs snap = true)
    (offload : Bool) (lim : Limits) :
    LifeOk
      { core := ⟨Dlq.restarted offload lim snap refs, [], none⟩
        log := s.log.take kept
        snaps := s.snaps.filter (·.upTo ≤ kept)
        todo := some (((s.log.take kept).drop (covered snap)).map LogLine.entry) } := by
  obtain ⟨hle, hindexed, q, hshows, hheads, hreborn⟩ := h.restarted hload offload lim
  refine ⟨coreOk_idle hindexed [], fun _ => rfl, ?_, fairLog_take h.fair kept, ?_, ?_, ?_⟩
  · intro x hx
    exact h.stored x (mem_of_mem_take hx)
  · intro k
    simp only [take_take]
    exact h.told _
  · refine ⟨q, bareLog (s.log.take (covered snap)), ?_, hshows, hheads, hreborn⟩
    have hcut : (s.log.take kept).take (covered snap) = s.log.take (covered snap) := by
      rw [take_take, min_eq_left hle]
    simp only [Option.getD_some, map_map]
    rw [← hcut]
    nth_rewrite 1 [← take_append_drop (covered snap) (s.log.take kept)]
    rw [bareLog_append]
    rfl
  · intro sn hsn
    obtain ⟨hsn, hkept⟩ := mem_filter.mp hsn
    simp only [decide_eq_true_eq] at hkept
    obtain ⟨hle', hfree, hqueue⟩ := h.snaps sn hsn
    refine ⟨?_, hfree, ?_⟩
    · rw [length_take]
      omega
    · rw [take_take, min_eq_left hkept]
      exact hqueue

theorem LifeOk.replayOne {es : List Entry} (h : LifeOk s) (htodo : s.todo = some (e :: es))
    (offload : Bool) (ref : BlobRef) :
    LifeOk { s with
      core := { s.core with m := applyEntry offload s.core.m ref e }
      todo := some es } := by
  obtain ⟨q, done, hdone, hshows, hheads, hreborn⟩ := h.shown
  rw [htodo, Option.getD_some, map_cons] at hdone
  have hfair := h.fair
  rw [hdone, fairLog_append] at hfair
  obtain ⟨hfairdone, hfaire, -⟩ := hfair
  -- the entry comes from the log, so it is as the log holds it
  have hstored : e.bare.stored = e.bare := by
    have hmem : e.bare ∈ bareLog s.log := by
      rw [hdone]
      exact mem_append_right _ mem_cons_self
    obtain ⟨x, hx, hxe⟩ := mem_map.mp hmem
    rw [← hxe, ← Entry.stored_bare, h.stored x hx]
  have hfairq : q.Fair e.bare := by
    rw [← hstored]
    exact hfaire.restart hreborn
  have hfind := finds_bare offload ref e
  have hnone : s.core.commit = none := h.idle (by rw [htodo]; exact Option.some_ne_none _)
  refine ⟨⟨Indexed.applyFair h.core.indexed hshows hfind hfairq, ?_⟩, fun _ => hnone,
    h.stored, h.fair, h.told, ?_, h.snaps⟩
  · intro c hc
    rw [hnone] at hc
    cases hc
  · refine ⟨q.apply e.bare, done ++ [e.bare], ?_, hshows.applyEntry h.core.indexed hfind, ?_, ?_⟩
    · rw [hdone]
      simp
    · exact hheads.apply (ordered_of_fair hfairdone hreborn) hfairq
    · rw [replay_append, replay_cons, replay_nil]
      have happly := reborn_apply hreborn e.bare
      rw [hstored] at happly
      exact happly

theorem LifeOk.endReplay (h : LifeOk s) (htodo : s.todo = some []) :
    LifeOk { s with core := { s.core with m := s.core.m.endReplay }, todo := none } := by
  obtain ⟨q, done, hdone, hshows, -, hreborn⟩ := h.shown
  obtain ⟨hindexed, hshows'⟩ := hshows.endReplay h.core.indexed
  have hnone : s.core.commit = none := h.idle (by rw [htodo]; exact Option.some_ne_none _)
  refine ⟨⟨hindexed, ?_⟩, fun hbusy => absurd rfl hbusy, h.stored, h.fair, h.told, ?_, h.snaps⟩
  · intro c hc
    rw [hnone] at hc
    cases hc
  · refine ⟨q.settled, done, ?_, hshows', leasedHeads_of_free ?_, ?_⟩
    · rw [hdone, htodo]
      rfl
    · intro r hr
      obtain ⟨x, -, rfl⟩ := mem_map.mp hr
      cases hstate : x.state <;> simp [Record.settle, hstate]
    · rw [reborn_settled]
      exact hreborn

theorem lifeOk_step {lim : Limits} {t : Life} {a : LifeAct} (h : LifeOk s)
    (hstep : s.step offload lim a = some t) : LifeOk t := by
  cases a with
  | core a ref =>
    obtain ⟨hbusy, hstep⟩ := of_unless hstep
    have hlive : s.todo = none := not_not.mp hbusy
    split at hstep
    · cases hstep
    · next c hcore =>
      cases hstep
      exact h.silent hlive hcore
    · next c e hcore =>
      cases hstep
      exact h.logged hlive hcore
  | snapshot pays =>
    obtain ⟨hguard, rfl⟩ := of_guard hstep
    exact h.snapshot hguard.1 hguard.2
  | restart kept snap refs =>
    obtain ⟨hguard, rfl⟩ := of_guard hstep
    exact h.restart hguard.2 offload lim
  | replayOne ref =>
    simp only [Life.step] at hstep
    split at hstep
    · next e es htodo =>
      cases hstep
      exact h.replayOne htodo offload ref
    · cases hstep
  | endReplay =>
    simp only [Life.step] at hstep
    split at hstep
    · next htodo =>
      cases hstep
      exact h.endReplay htodo
    · cases hstep

end Invariant

section Exclusivity

/-- A leased record with an order key is the first of its key. -/
theorem LifeOk.first_of_key {s : Life} {it x : Item} (h : LifeOk s) (hit : it ∈ s.core.m.liveItems)
    (hleased : it.record.state = .leased) (hkey : it.record.orderKey ≠ [])
    (hx : x ∈ s.core.m.liveItems) (hsame : x.record.orderKey = it.record.orderKey) :
    it.record.seq ≤ x.record.seq := by
  obtain ⟨q, done, -, hshows, hheads, -⟩ := h.shown
  have hindexed := h.core.indexed
  obtain ⟨r, hr, hitr⟩ := hshows.record hindexed (hindexed.mem_liveItems.mp hit)
  obtain ⟨y, hy, hxy⟩ := hshows.record hindexed (hindexed.mem_liveItems.mp hx)
  obtain ⟨-, hseq, hkeyr, hstate⟩ := hshows.sight.same hitr
  obtain ⟨-, hseq', hkeyy, -⟩ := hshows.sight.same hxy
  have hmin := (hheads r hr (hstate.trans hleased)).resolve_left (hkeyr ▸ hkey)
  rw [← hseq, ← hseq']
  refine hmin y hy ?_
  rw [hkeyy, hkeyr, hsame]

theorem LifeOk.history_inOrder {s : Life} (h : LifeOk s) : InOrder s.history := by
  have htold := h.told s.log.length
  rw [take_length] at htold
  unfold Life.history
  rw [htold]
  have hhist := histOk_empty.replay ordered_empty h.fair
  exact hhist.inOrder

/-- In every state of a store's life, live or mid-replay, a leased record with an
order key has the smallest Seq of all records with the key and no other record
with the key is leased; and the records of a key are granted in Seq order, each
after every earlier one was removed by an Ack or a Discard. -/
theorem head_of_line_exclusive (offload : Bool) (lim : Limits) (acts : List LifeAct) (s : Life)
    (hrun : run (Life.step offload lim) (.new lim) acts = some s) :
    (∀ it ∈ s.core.m.liveItems, it.record.state = .leased → it.record.orderKey ≠ [] →
      ∀ x ∈ s.core.m.liveItems, x.record.orderKey = it.record.orderKey →
        it.record.seq ≤ x.record.seq ∧ (x.record.state = .leased → x = it)) ∧
    (∀ it, it ∈ s.core.m.liveItems ↔ s.core.m.items.get it.record.id = some it) ∧
    InOrder s.history := by
  have h : LifeOk s :=
    run_invariant _ (fun _ _ _ h hstep => lifeOk_step h hstep) (lifeOk_new lim) hrun
  have hindexed := h.core.indexed
  refine ⟨?_, fun it => hindexed.mem_liveItems, h.history_inOrder⟩
  intro it hit hleased hkey x hx hsame
  have hle := h.first_of_key hit hleased hkey hx hsame
  refine ⟨hle, fun hleased' => ?_⟩
  have hge := h.first_of_key hx hleased' (hsame ▸ hkey) hit hsame.symm
  -- two records with one Seq are one
  have hx' := hindexed.mem_liveItems.mp hx
  have hit' := hindexed.mem_liveItems.mp hit
  have hptr : x.ptr = it.ptr :=
    hindexed.seq_inj (hindexed.live _ x hx').2 (hindexed.live _ it hit').2 (le_antisymm hge hle)
  have hid : x.record.id = it.record.id := congrArg Ptr.id hptr
  rw [hid] at hx'
  exact Option.some.inj (hx'.symm.trans hit')

/-- Two records of one key; the first is leased and acked, the log is read back
after a restart, and the second is leased. -/
def demoLife : List LifeAct :=
  [.core (.call (.append (demoRecord "a" 0 "k" "db" 0)) 100) .zero,
    .core (.call (.append (demoRecord "b" 0 "k" "db" 0)) 110) .zero,
    .core (.leaseNow [str "db"] 200 ⟨[], [], 5, 1000⟩ [str "t"]) .zero,
    .core (.call (.ack (str "a") (str "t")) 210) .zero,
    .restart 4 none [],
    .replayOne .zero, .replayOne .zero, .replayOne .zero, .replayOne .zero, .endReplay,
    .core (.leaseNow [str "db"] 300 ⟨[], [], 5, 1000⟩ [str "u"]) .zero]

theorem head_of_line_exclusive_demo :
    ∃ s, run (Life.step false ⟨0, 0, 0⟩) (.new ⟨0, 0, 0⟩) demoLife = some s ∧
      s.history =
        [.inserted ⟨str "a", 1⟩ (str "k"), .inserted ⟨str "b", 2⟩ (str "k"),
          .granted ⟨str "a", 1⟩ (str "k"), .removed ⟨str "a", 1⟩ (str "k"),
          .granted ⟨str "b", 2⟩ (str "k")] ∧
      InOrder s.history := by
  obtain ⟨s, hrun, hs⟩ : ∃ s, run (Life.step false ⟨0, 0, 0⟩) (.new ⟨0, 0, 0⟩) demoLife = some s ∧
      s.history = [.inserted ⟨str "a", 1⟩ (str "k"), .inserted ⟨str "b", 2⟩ (str "k"),
        .granted ⟨str "a", 1⟩ (str "k"), .removed ⟨str "a", 1⟩ (str "k"),
        .granted ⟨str "b", 2⟩ (str "k")] := by
    decide +kernel
  exact ⟨s, hrun, hs, (head_of_line_exclusive false ⟨0, 0, 0⟩ demoLife s hrun).2.2⟩

end Exclusivity

end Dlq
end GoGuard
