import GoGuard.Dlq.HeadOfLine

/-!
# Fencing, and how a record leaves the store

A run of a store with the leases it hands out written down beside it: `trace`
holds every grant, everything that ends a lease before its record is gone (a
Nack, a Release, a Park) and every reopening of the log.  A call that names a
lease takes effect only with the token of a grant that is the last thing `trace`
says of its record, and a record leaves the store only by such an Ack or by a
Discard while it is parked.

A store in memory is the case of a run without snapshots and reopenings whose
leases are all of the one-step kind.
-/

namespace GoGuard
namespace Dlq

open Lib Machine Queue List

section Model

/-- What happens to the lease of a record. -/
inductive LeaseEvent where
  | granted (p : Ptr) (token : Bytes)
  | ended (p : Ptr)
  | reopened
deriving DecidableEq

/-- After the event an older lease of the record is not good any more. -/
def LeaseEvent.Revokes (p : Ptr) : LeaseEvent → Prop
  | .granted p' _ => p' = p
  | .ended p' => p' = p
  | .reopened => True

/-- The token is that of the last grant of the record, and no Nack, Release, Park
or reopening came after it. -/
def Issued (trace : List LeaseEvent) (p : Ptr) (token : Bytes) : Prop :=
  ∃ before after, trace = before ++ .granted p token :: after ∧ ∀ e ∈ after, ¬ e.Revokes p

/-- The identifier and the token of a call that names a lease. -/
def Call.fence : Call → Option (Bytes × Bytes)
  | .checkpoint id token _ => some (id, token)
  | .ack id token => some (id, token)
  | .release id token => some (id, token)
  | .nack id token _ => some (id, token)
  | .park id token _ => some (id, token)
  | _ => none

/-- The lease a call that succeeds ends, its record staying in the store. -/
def Call.endedLease (m : Machine) : Call → List LeaseEvent
  | .release id _ => (m.items.get id).toList.map fun it => .ended it.ptr
  | .nack id _ _ => (m.items.get id).toList.map fun it => .ended it.ptr
  | .park id _ _ => (m.items.get id).toList.map fun it => .ended it.ptr
  | _ => []

/-- The leases handed out under their tokens. -/
def grants (picked : List (Ptr × Bytes)) : List LeaseEvent :=
  picked.map fun x => .granted x.1 x.2

/-- What a step of the store does to leases. -/
def CoreAct.leaseEvents (offload : Bool) (refOf : Entry → BlobRef) (s : Core) :
    CoreAct → List LeaseEvent
  | .call c now =>
    match c.exec offload refOf s.m now with
    | .error _ => []
    | .ok _ => c.endedLease s.m
  | .parkBad =>
    match s.commit with
    | some ⟨_, _, p :: _, _⟩ => [.ended p]
    | _ => []
  | .grant tokens =>
    match s.commit with
    | some c => grants (c.good.zip tokens)
    | none => []
  | .leaseNow ord now req tokens => grants ((s.m.selectLease ord now req).2.zip tokens)
  | _ => []

/-- A store over its whole life, and what happened to its leases. -/
structure Session where
  life : Life
  trace : List LeaseEvent
deriving DecidableEq

def Session.new (lim : Limits) : Session where
  life := .new lim
  trace := []

inductive SessionAct where
  | core (a : CoreAct) (ref : BlobRef)
  | snapshot (pays : List Payload)
  /-- the store is opened again and replays its log; `found` are the frames -/
  | reopen (kept : Nat) (snap : Option Snapshot) (refs found : List BlobRef)
deriving DecidableEq

/-- Opening the log again, up to the end of the replay. -/
def Life.reopen (offload : Bool) (lim : Limits) (s : Life)
    (kept : Nat) (snap : Option Snapshot) (refs found : List BlobRef) : Option Life :=
  run (Life.step offload lim) s
    (.restart kept snap refs :: (found.map LifeAct.replayOne ++ [.endReplay]))

def Session.step (offload : Bool) (lim : Limits) (s : Session) :
    SessionAct → Option Session
  | .core a ref =>
    (s.life.step offload lim (.core a ref)).map fun life =>
      ⟨life, s.trace ++ a.leaseEvents offload (fun _ => ref) s.life.core⟩
  | .snapshot pays =>
    (s.life.step offload lim (.snapshot pays)).map fun life => { s with life := life }
  | .reopen kept snap refs found =>
    (s.life.reopen offload lim kept snap refs found).map fun life =>
      ⟨life, s.trace ++ [.reopened]⟩

/-- The record is in the store. -/
def Machine.Live (m : Machine) (p : Ptr) : Prop :=
  ∃ it, m.items.get p.id = some it ∧ it.ptr = p

/-- The ways a record leaves the store.  The last one is the loss of the end of
the log, where the Append of the record was; a reopening that finds the whole log
has no such line. -/
def Leaves (s : Session) (p : Ptr) : SessionAct → Prop
  | .core (.call (.ack id token) _) _ => id = p.id ∧ Issued s.trace p token
  | .core (.call (.discard id) _) _ =>
    id = p.id ∧ ∃ it, s.life.core.m.items.get id = some it ∧ it.ptr = p ∧
      it.record.state = .parked
  | .reopen kept _ _ _ =>
    ∃ line ∈ s.life.log.drop kept, ∃ r, line.entry = .append r ∧ p = ⟨r.id, r.seq⟩
  | _ => False

end Model

section Trace

variable {trace more : List LeaseEvent} {p : Ptr} {token : Bytes}

theorem Issued.append (h : Issued trace p token) (hmore : ∀ e ∈ more, ¬ e.Revokes p) :
    Issued (trace ++ more) p token := by
  obtain ⟨before, after, rfl, hafter⟩ := h
  refine ⟨before, after ++ more, by simp, ?_⟩
  intro e he
  exact (mem_append.mp he).elim (hafter e) (hmore e)

theorem issued_granted (trace : List LeaseEvent) (p : Ptr) (token : Bytes) :
    Issued (trace ++ [.granted p token]) p token :=
  ⟨trace, [], rfl, fun _ he => nomatch he⟩

end Trace

section Holding

variable {trace more : List LeaseEvent} {offload : Bool}
variable {m m' : Machine} {it it' : Item}

/-- The token of every leased record was issued for it and is still good. -/
def Holding (trace : List LeaseEvent) (m : Machine) : Prop :=
  ∀ id it, m.items.get id = some it → it.record.state = .leased → Issued trace it.ptr it.token

theorem Holding.aside (hh : Holding trace m) (hitems : m'.items = m.items) : Holding trace m' := by
  unfold Holding
  rw [hitems]
  exact hh

section

variable (h : Indexed m) (hh : Holding trace m)
include h hh

theorem Holding.touched (ht : Touched m m' it it')
    (hmore : ∀ e ∈ more, ∀ p, e.Revokes p → p = it.ptr)
    (hnew : it'.record.state = .leased → Issued (trace ++ more) it'.ptr it'.token) :
    Holding (trace ++ more) m' := by
  intro id x hx hleased
  rw [ht.get] at hx
  split at hx
  · cases hx
    exact hnew hleased
  · next hne =>
    refine (hh id x hx hleased).append ?_
    intro e he hrevokes
    have hptr := hmore e he _ hrevokes
    have hid : x.record.id = it.record.id := congrArg Ptr.id hptr
    exact hne ((h.live id x hx).1.symm.trans hid)

theorem Holding.freed (ht : Touched m m' it it')
    (hfree : it'.record.state ≠ .leased) : Holding (trace ++ [.ended it.ptr]) m' := by
  refine hh.touched h ht ?_ fun hleased => absurd hleased hfree
  intro e he p hrevokes
  rw [mem_singleton.mp he] at hrevokes
  exact hrevokes.symm

theorem Holding.kept (hit : m.items.get it.record.id = some it) (ht : Touched m m' it it')
    (hsame : it'.record.state = .leased →
      it.record.state = .leased ∧ it'.ptr = it.ptr ∧ it'.token = it.token) :
    Holding trace m' := by
  have hkept : Holding (trace ++ []) m' := by
    refine hh.touched h ht (fun _ he => nomatch he) fun hleased => ?_
    obtain ⟨hold, hptr, htoken⟩ := hsame hleased
    rw [hptr, htoken, append_nil]
    exact hh _ it hit hold
  rwa [append_nil] at hkept

theorem Holding.reserve (hit : m.items.get it.record.id = some it) : Holding trace (m.reserve it) :=
  hh.kept h hit (touched_store rfl rfl) fun hleased => ⟨hleased, rfl, rfl⟩

theorem Holding.unreserve
    (hit : m.items.get it.record.id = some it) : Holding trace (m.unreserve it) := by
  have hstored : Holding trace (m.store { it with reserved := false }) :=
    hh.kept h hit (touched_store rfl rfl) fun hleased => ⟨hleased, rfl, rfl⟩
  unfold Machine.unreserve
  split
  · exact hh
  · split
    · exact hstored
    · intro id x hx
      rw [get_clearWake] at hx
      exact hstored id x hx

theorem Holding.pickLease (ord : List Bytes) (now : Time) (req : LeaseRequest) :
    Holding trace (pickLease m ord now req).1 :=
  (foldl_withPtr_keeps (P := fun m => Indexed m ∧ Holding trace m) And.left
    (fun h hit => ⟨h.1.reserve hit, h.2.reserve h.1 hit⟩)
    ⟨h.selectLease ord now req, hh.aside (selectLease_aside m ord now req).2.1⟩ _).2

theorem Holding.releaseCands (cands : List Cand) : Holding trace (releaseCands m cands) :=
  (foldl_withPtr_keeps (P := fun m => Indexed m ∧ Holding trace m) And.left
    (fun h hit => ⟨h.1.unreserve hit, h.2.unreserve h.1 hit⟩) ⟨h, hh⟩ cands).2

end

theorem ptr_lease {it' : Item} (hrev : Revised Record.lease it it') : it'.ptr = it.ptr := by
  unfold Item.ptr
  rw [hrev.record]
  rfl

theorem Holding.grantOne (h : Indexed m) (hh : Holding trace m)
    (hit : m.items.get it.record.id = some it) (token : Bytes) (expires : Time) :
    Holding (trace ++ [.granted it.ptr token]) (m.grantOne it token expires) := by
  obtain ⟨it', ht, hrev, htoken⟩ := touched_grantOne hit token expires
  refine hh.touched h ht ?_ fun _ => ?_
  · intro e he p hrevokes
    rw [mem_singleton.mp he] at hrevokes
    exact hrevokes.symm
  · rw [ptr_lease hrev, htoken]
    exact issued_granted trace it.ptr token

theorem live_grantOne {p : Ptr} (hlive : m.Live p) (hit : m.items.get it.record.id = some it)
    (token : Bytes) (expires : Time) : (m.grantOne it token expires).Live p := by
  obtain ⟨it', ht, hrev, -⟩ := touched_grantOne hit token expires
  obtain ⟨x, hx, rfl⟩ := hlive
  by_cases hid : x.ptr.id = it.record.id
  · rw [hid] at hx
    obtain rfl := Option.some.inj (hx.symm.trans hit)
    exact ⟨it', by rw [ht.get, if_pos hid], ptr_lease hrev⟩
  · exact ⟨x, by rw [ht.get, if_neg hid, hx], rfl⟩

theorem grant_cons
    (x : Ptr × Bytes) (picked : List (Ptr × Bytes)) (now : Time) (ttl : Int)
    (hit : m.items.get x.1.id = some it) :
    m.grant (x :: picked) now ttl = (m.grantOne it x.2 (now + ttl)).grant picked now ttl := by
  unfold Machine.grant
  rw [foldl_cons, hit]

theorem Holding.grant (h : Indexed m) (hh : Holding trace m) (picked : List (Ptr × Bytes))
    (hlive : ∀ x ∈ picked, m.Live x.1) (now : Time) (ttl : Int) :
    Holding (trace ++ grants picked) (m.grant picked now ttl) := by
  induction picked generalizing m trace with
  | nil =>
    rw [grants, map_nil, append_nil]
    exact hh
  | cons x picked ih =>
    obtain ⟨it, hit, hptr⟩ := hlive x mem_cons_self
    have hit' := h.get_ptr hit
    have hgrant := hh.grantOne h hit' x.2 (now + ttl)
    rw [hptr] at hgrant
    have hrest := ih (h.grantOne hit' _ _) hgrant fun y hy =>
      live_grantOne (hlive y (mem_cons_of_mem _ hy)) hit' _ _
    rw [append_assoc] at hrest
    rw [grant_cons x picked now ttl hit]
    exact hrest

theorem Holding.insertRecord {r : Record} (hh : Holding trace m) (hfree : r.state ≠ .leased)
    (ref : BlobRef) : Holding trace (insertRecord offload m r ref) := by
  rw [insertRecord_eq]
  split
  · exact hh
  · intro id x hx hleased
    rw [(insertItem_fields m _ _).2.1] at hx
    split at hx
    · cases hx
      exact absurd ((newItem_meta offload r ref).2.2.symm.trans hleased) hfree
    · exact hh id x hx hleased

theorem Holding.remove (hh : Holding trace m) (it : Item) : Holding trace (m.remove it) := by
  intro id x hx hleased
  rw [(remove_fields m it).2.1, GoMap.get_del] at hx
  split at hx
  · cases hx
  · exact hh id x hx hleased

theorem Holding.setCheckpointAt (h : Indexed m) (hh : Holding trace m)
    (hit : m.items.get it.record.id = some it) (cp : Option Bytes) (ref : BlobRef) :
    Holding trace (setCheckpointAt offload m it.record.id cp ref) := by
  obtain ⟨it', ht, hwith⟩ := touched_setCheckpointAt hit offload cp ref
  have htoken : it'.token = it.token := by
    have hget := ht.get it.record.id
    rw [if_pos rfl] at hget
    cases offload <;>
      simp [Dlq.setCheckpointAt, setCheckpoint, setCheckpointRef, update, resize, hit] at hget <;>
      rw [← hget]
  refine hh.kept h hit ht fun hleased => ?_
  rw [hwith.record] at hleased
  refine ⟨hleased, ?_, htoken⟩
  unfold Item.ptr
  rw [hwith.record]
  rfl

end Holding

section Steps

variable {trace : List LeaseEvent} {offload : Bool} {refOf : Entry → BlobRef}
variable {m m' : Machine} {s s' : Core} {now : Time}

variable {id token : Bytes} {e : Entry} {apply : Item → Machine} {out : Option Entry × Machine}
  {c : Call}

theorem Holding.held {it : Item} (hh : Holding trace m) (hheld : m.held id token = .ok it) :
    Issued trace it.ptr token := by
  obtain ⟨hit, hleased, rfl⟩ := held_token hheld
  exact hh id it hit hleased

/-- A call that names a lease succeeds only for its holder. -/
theorem held_of_fence (hfence : c.fence = some (id, token))
    (hexec : c.exec offload refOf m now = .ok out) : ∃ it, m.held id token = .ok it := by
  cases executed_of_exec hexec with
  | checkpoint hheld | ack hheld | release hheld | nack hheld | park hheld =>
    cases hfence
    exact ⟨_, hheld⟩
  | _ => cases hfence

theorem Holding.endedBy {it : Item} (h : Indexed m) (hh : Holding trace m)
    (hheld : m.held id token = .ok it)
    (happly : m.items.get it.record.id = some it →
      ∃ it', Touched m m' it it' ∧ it'.record.state ≠ .leased) :
    Holding (trace ++ (m.items.get id).toList.map fun it => .ended it.ptr) m' := by
  have hit := held_eq_ok hheld
  obtain ⟨it', ht, hfree⟩ := happly (h.get_ptr hit)
  rw [hit]
  exact hh.freed h ht hfree

theorem Holding.exec (h : Indexed m) (hh : Holding trace m)
    (hexec : c.exec offload refOf m now = .ok out) : Holding (trace ++ c.endedLease m) out.2 := by
  -- the calls that end no lease
  have hquiet : ∀ {m' : Machine}, Holding trace m' → Holding (trace ++ []) m' := by
    intro m' hm
    rwa [append_nil]
  cases executed_of_exec hexec with
  | known => exact hquiet hh
  | append hprep => exact hquiet (hh.insertRecord (prepare_eq_some hprep).free _)
  | @checkpoint id _ cp it hheld =>
    have hit := held_eq_ok hheld
    obtain rfl := (h.live id it hit).1
    exact hquiet (hh.setCheckpointAt h hit cp _)
  | ack | discard => exact hquiet (hh.remove _)
  | release hheld =>
    refine hh.endedBy h hheld fun hit => ?_
    obtain ⟨it', ht, hrev⟩ := touched_applyRelease hit
    exact ⟨it', ht, by rw [hrev.record]; exact fun hstate => nomatch hstate⟩
  | nack hheld =>
    refine hh.endedBy h hheld fun hit => ?_
    obtain ⟨it', ht, hrev⟩ := touched_applyNack hit now _ _ _ _
    exact ⟨it', ht, by rw [hrev.record]; exact fun hstate => nomatch hstate⟩
  | park hheld =>
    refine hh.endedBy h hheld fun hit => ?_
    obtain ⟨it', ht, hrev⟩ := touched_applyPark hit now _
    exact ⟨it', ht, by rw [hrev.record]; exact fun hstate => nomatch hstate⟩
  | @requeueWith id o it _ hparked =>
    refine hquiet ?_
    have hit := h.get_ptr (parkedItem_eq_ok hparked).1
    obtain ⟨it', ht, hrev⟩ := touched_requeue hit
    have hfree : it'.record.state ≠ .leased := by
      rw [hrev.record]
      exact fun hstate => nomatch hstate
    have hback : Holding trace (m.applyRequeue it false none) :=
      hh.kept h hit ht fun hleased => absurd hleased hfree
    simp only [requeued]
    split
    · rw [← ht.same]
      refine Holding.setCheckpointAt (h.applyRequeue hit false none) hback ?_ _ _
      rw [ht.get, if_pos ht.same]
    · exact hback

theorem HeadPtr.live {p : Ptr} (h : HeadPtr m p) : m.Live p := by
  obtain ⟨it, hit, hptr, -⟩ := h
  exact ⟨it, hit, hptr⟩

/-- Every step of the store keeps `Holding`, with its own events written down. -/
theorem Holding.coreStep {a : CoreAct} {e : Option Entry} (h : CoreOk s) (hh : Holding trace s.m)
    (hstep : s.step offload refOf a = some (s', e)) :
    Holding (trace ++ a.leaseEvents offload refOf s) s'.m := by
  -- the steps that are about no lease
  have hquiet : ∀ {m}, Holding trace m → Holding (trace ++ []) m := by
    intro m hm
    rwa [append_nil]
  cases Core.turn_of_step hstep with
  | failed hidle hexec =>
    simp only [CoreAct.leaseEvents, hexec]
    exact hquiet hh
  | called hidle hexec =>
    simp only [CoreAct.leaseEvents, hexec]
    exact hh.exec h.indexed hexec
  | @picked ord now req hidle hord => exact hquiet (hh.pickLease h.indexed ord now req)
  | @committed _ _ _ x | @gaveUp _ x => exact hquiet (hh.releaseCands h.indexed x.cands)
  | @parkedBad now ttl p bad good hcommit =>
    obtain ⟨it, hit, rfl, -⟩ := h.commit _ hcommit p (.inl mem_cons_self)
    obtain ⟨it', ht, hrev⟩ := touched_applyPark hit now unreadableReason
    simp only [CoreAct.leaseEvents, hcommit, withPtr, hit, if_true]
    refine hh.freed h.indexed ht ?_
    rw [hrev.record]
    rintro ⟨⟩
  | @granted tokens now ttl good hcommit hsome hlen =>
    simp only [CoreAct.leaseEvents, hcommit]
    refine hh.grant h.indexed _ ?_ now ttl
    intro x hx
    exact (h.commit _ hcommit x.1 (.inr (of_mem_zip hx).1)).live
  | done hcommit => exact hquiet hh
  | aborted hcommit => exact hquiet hh
  | @leasedNone ord tokens now req hidle hnone =>
    simp only [CoreAct.leaseEvents, hnone]
    exact hquiet (hh.aside (selectLease_aside s.m ord now req).2.1)
  | @leasedNow ord tokens now req hidle hord hlen =>
    have hitems := (selectLease_aside s.m ord now req).2.1
    refine Holding.grant (h.indexed.selectLease ord now req) (hh.aside hitems) _ ?_ now req.ttl
    intro x hx
    obtain ⟨it, hit, hptr, -⟩ := h.indexed.selectLease_sound hord (of_mem_zip hx).1
    exact ⟨it, by rw [hitems, hit], hptr⟩

end Steps

section Leaving

variable {R : Item → Record → Prop} {offload : Bool} {refOf : Entry → BlobRef}
variable {m : Machine} {q : Queue} {p : Ptr} {s s' : Core} {e : Entry}

theorem Shows.live_iff (h : Indexed m) (hs : Shows R m q) :
    m.Live p ↔ ∃ r ∈ q.recs, p = ⟨r.id, r.seq⟩ := by
  constructor
  · rintro ⟨it, hit, rfl⟩
    obtain ⟨r, hr, hread⟩ := hs.record h hit
    obtain ⟨hid, hseq, -⟩ := hs.sight.same hread
    exact ⟨r, hr, by rw [hid, hseq]; rfl⟩
  · rintro ⟨r, hr, rfl⟩
    obtain ⟨it, hit, hread⟩ := hs.item h hr
    obtain ⟨hid, hseq, -⟩ := hs.sight.same hread
    exact ⟨it, hit, by rw [hid, hseq]; rfl⟩

theorem live_reborn {q q' : Queue} (hq : q.reborn = q'.reborn) :
    (∃ r ∈ q.recs, p = ⟨r.id, r.seq⟩) ↔ ∃ r ∈ q'.recs, p = ⟨r.id, r.seq⟩ := by
  have hrecs : ∀ q : Queue,
      (∃ r ∈ q.recs, p = ⟨r.id, r.seq⟩) ↔ ∃ r ∈ q.reborn.recs, p = ⟨r.id, r.seq⟩ := by
    intro q
    constructor
    · rintro ⟨r, hr, rfl⟩
      exact ⟨r.reborn, mem_map_of_mem hr, rfl⟩
    · rintro ⟨r, hr, rfl⟩
      obtain ⟨x, hx, rfl⟩ := mem_map.mp hr
      exact ⟨x, hx, rfl⟩
  rw [hrecs q, hrecs q', hq]

theorem Queue.origin_or_append {q : Queue} {r : Record} (hr : r ∈ (q.apply e).recs) :
    (∃ x ∈ q.recs, SameRecord x r) ∨ ∃ x, e = .append x ∧ SameRecord x r := by
  have hall : ∀ r ∈ (q.apply e).recs, (∃ x ∈ q.recs, SameRecord x r) ∨
      ∃ x, e = .append x ∧ SameRecord x r := by
    refine apply_induction
      (P := fun q' => ∀ r ∈ q'.recs, (∃ x ∈ q.recs, SameRecord x r) ∨
        ∃ x, e = .append x ∧ SameRecord x r)
      (fun r hr => .inl ⟨r, hr, rfl, rfl, rfl⟩) ?_ ?_
    · rintro x rfl r hr
      unfold push at hr
      split at hr
      · exact .inl ⟨r, hr, rfl, rfl, rfl⟩
      · rcases mem_append.mp hr with hr | hr
        · exact .inl ⟨r, hr, rfl, rfl, rfl⟩
        · rw [mem_singleton.mp hr]
          exact .inr ⟨x, rfl, rfl, rfl, rfl⟩
    · intro c hc q' hq' r hr
      obtain ⟨y, hy, hid, hseq, hkey⟩ := origin_touch (keeps_changes hc) hr
      rcases hq' y hy with ⟨x, hx, hid', hseq', hkey'⟩ | ⟨x, hx, hid', hseq', hkey'⟩
      · exact .inl ⟨x, hx, hid.trans hid', hseq.trans hseq', hkey.trans hkey'⟩
      · exact .inr ⟨x, hx, hid.trans hid', hseq.trans hseq', hkey.trans hkey'⟩
  exact hall r hr

/-- A record of a replayed queue was there before or is appended by the log. -/
theorem Queue.origin_replay {q : Queue} {es : List Entry}
    (hp : ∃ r ∈ (q.replay es).recs, p = ⟨r.id, r.seq⟩) :
    (∃ r ∈ q.recs, p = ⟨r.id, r.seq⟩) ∨ ∃ r, .append r ∈ es ∧ p = ⟨r.id, r.seq⟩ := by
  induction es generalizing q with
  | nil => exact .inl hp
  | cons e es ih =>
    rcases ih hp with ⟨r, hr, rfl⟩ | ⟨r, hr, rfl⟩
    · rcases origin_or_append hr with ⟨x, hx, hid, hseq, -⟩ | ⟨x, rfl, hid, hseq, -⟩
      · exact .inl ⟨x, hx, by rw [hid, hseq]⟩
      · exact .inr ⟨x, mem_cons_self, by rw [hid, hseq]⟩
    · exact .inr ⟨r, mem_cons_of_mem _ hr, rfl⟩

/-- The entries that only calls log. -/
def Entry.byCall : Entry → Bool
  | .lease _ | .park .. => false
  | _ => true

variable {c : Call} {now : Time} {a : CoreAct} {id : Bytes}

theorem exec_of_call (hstep : s.step offload refOf (.call c now) = some (s', some e)) :
    c.exec offload refOf s.m now = .ok (some e, s'.m) := by
  cases Core.turn_of_step hstep with
  | called hidle hexec => exact hexec

theorem call_of_entry (hcall : e.byCall = true)
    (hstep : s.step offload refOf a = some (s', some e)) :
    ∃ c now, a = .call c now ∧ c.exec offload refOf s.m now = .ok (some e, s'.m) := by
  cases Core.turn_of_step hstep with
  | called hidle hexec => exact ⟨_, _, rfl, hexec⟩
  | parkedBad hcommit => cases hcall
  | granted hcommit hsome hlen => cases hcall
  | leasedNow hidle hord hlen => cases hcall

/-- The entry a call logs, and the check it has passed. -/
def Call.Logs (m : Machine) (now : Time) (e : Entry) : Call → Prop
  | .append r => ∃ r', m.prepare r now = .ok (some r') ∧ e = .append r'
  | .checkpoint id token cp => ∃ it, m.held id token = .ok it ∧ e = .checkpoint id cp
  | .ack id token => ∃ it, m.held id token = .ok it ∧ e = .ack id
  | .release id token => ∃ it, m.held id token = .ok it ∧ e = .release id
  | .nack id token o =>
    ∃ it, m.held id token = .ok it ∧
      e = .nack id now (now + o.delay) o.err o.blockedOn o.refund
  | .park id token reason => ∃ it, m.held id token = .ok it ∧ e = .park id now reason
  | .requeueWith id o =>
    ∃ it, parkedItem m id = .ok it ∧
      e = .requeue id o.replaceCheckpoint (if o.replaceCheckpoint then o.checkpoint else none)
  | .discard id => ∃ it, parkedItem m id = .ok it ∧ e = .discard id

theorem exec_logs {m' : Machine} (hexec : c.exec offload refOf m now = .ok (some e, m')) :
    c.Logs m now e := by
  cases executed_of_exec hexec with
  | append hprep => exact ⟨_, hprep, rfl⟩
  | checkpoint hheld | ack hheld | release hheld | nack hheld | park hheld =>
    exact ⟨_, hheld, rfl⟩
  | requeueWith hparked he => exact ⟨_, hparked, he⟩
  | discard hparked => exact ⟨_, hparked, rfl⟩

theorem logs_ack (hlogs : c.Logs m now (.ack id)) :
    ∃ token it, c = .ack id token ∧ m.held id token = .ok it := by
  cases c with
  | ack id' token =>
    obtain ⟨it, hheld, he⟩ := hlogs
    cases he
    exact ⟨token, it, rfl, hheld⟩
  | _ =>
    obtain ⟨x, -, he⟩ := hlogs
    cases he

theorem logs_discard (hlogs : c.Logs m now (.discard id)) :
    ∃ it, c = .discard id ∧ parkedItem m id = .ok it := by
  cases c with
  | discard id' =>
    obtain ⟨it, hparked, he⟩ := hlogs
    cases he
    exact ⟨it, rfl, hparked⟩
  | _ =>
    obtain ⟨x, -, he⟩ := hlogs
    cases he

theorem logs_append {r' : Record} (hlogs : c.Logs m now (.append r')) :
    ∃ r, c = .append r ∧ m.prepare r now = .ok (some r') := by
  cases c with
  | append r =>
    obtain ⟨x, hprep, he⟩ := hlogs
    cases he
    exact ⟨r, rfl, hprep⟩
  | _ =>
    obtain ⟨x, -, he⟩ := hlogs
    cases he

/-- An entry that takes a record out is logged by the Ack of its holder or by a
Discard of a parked record. -/
theorem call_of_removal (hremoves : e.bare = .ack id ∨ e.bare = .discard id)
    (hstep : s.step offload refOf a = some (s', some e)) :
    (∃ token now it, a = .call (.ack id token) now ∧ s.m.held id token = .ok it) ∨
      ∃ now it, a = .call (.discard id) now ∧ parkedItem s.m id = .ok it := by
  rcases hremoves with hack | hdiscard
  · have he : e = .ack id := by
      cases e with
      | requeue id replace cp => cases replace <;> cases hack
      | ack id => exact hack
      | _ => cases hack
    subst he
    obtain ⟨c, now, rfl, hexec⟩ := call_of_entry rfl hstep
    obtain ⟨token, it, rfl, hheld⟩ := logs_ack (exec_logs hexec)
    exact .inl ⟨token, now, it, rfl, hheld⟩
  · have he : e = .discard id := by
      cases e with
      | requeue id replace cp => cases replace <;> cases hdiscard
      | discard id => exact hdiscard
      | _ => cases hdiscard
    subst he
    obtain ⟨c, now, rfl, hexec⟩ := call_of_entry rfl hstep
    obtain ⟨it, rfl, hparked⟩ := logs_discard (exec_logs hexec)
    exact .inr ⟨now, it, rfl, hparked⟩

/-- A step of the store that takes a record out is the Ack of its holder or a
Discard of a parked record. -/
theorem removed_by_call {out : Option Entry} (h : CoreOk s) (hs : Shows Bare s.m q)
    (hstep : s.step offload refOf a = some (s', out)) (hlive : s.m.Live p) (hgone : ¬ s'.m.Live p) :
    (∃ token now it, a = .call (.ack p.id token) now ∧ s.m.held p.id token = .ok it) ∨
      ∃ now it, a = .call (.discard p.id) now ∧ parkedItem s.m p.id = .ok it := by
  obtain ⟨hok, heff⟩ := core_step h hstep
  obtain ⟨r, hr, rfl⟩ := (hs.live_iff h.indexed).mp hlive
  cases out with
  | none => exact absurd (((heff Bare q hs).live_iff hok.indexed).mpr ⟨r, hr, rfl⟩) hgone
  | some e =>
    obtain ⟨-, hshows⟩ := hs.logged h.indexed heff (finds_bare offload _ e)
    rcases survives_apply (e := e.bare) hr with ⟨r', hr', hid, hseq, -⟩ | hremoves
    · refine absurd ((hshows.live_iff hok.indexed).mpr ⟨r', hr', ?_⟩) hgone
      rw [hid, hseq]
    · exact call_of_removal hremoves hstep

end Leaving

section Reopening

variable {offload : Bool} {lim : Limits} {s t : Life}

variable {found refs : List BlobRef} {kept : Nat} {snap : Option Snapshot} {p : Ptr}

theorem log_replayed {u : Life} (h : LifeOk u)
    (hrun : run (Life.step offload lim) u (found.map LifeAct.replayOne) = some t) :
    LifeOk t ∧ t.log = u.log := by
  induction found generalizing u with
  | nil =>
    cases hrun
    exact ⟨h, rfl⟩
  | cons ref found ih =>
    obtain ⟨v, hv, hrest⟩ := (run_cons_eq_some _).mp hrun
    obtain ⟨hok, hlog⟩ := ih (lifeOk_step h hv) hrest
    refine ⟨hok, hlog.trans ?_⟩
    simp only [Life.step] at hv
    split at hv
    · cases hv
      rfl
    · cases hv

/-- After a reopening the store shows the queue of the log it found, and nothing
is leased. -/
theorem LifeOk.reopen (h : LifeOk s) (hre : s.reopen offload lim kept snap refs found = some t) :
    LifeOk t ∧ t.todo = none ∧ t.log = s.log.take kept ∧
      ∀ id it, t.core.m.items.get id = some it → it.record.state ≠ .leased := by
  obtain ⟨u, hu, hrest⟩ := (run_cons_eq_some _).mp hre
  obtain ⟨v, hv, hend⟩ := (run_append_eq_some _).mp hrest
  obtain ⟨w, hw, hlast⟩ := (run_cons_eq_some _).mp hend
  cases hlast
  have hlogu : u.log = s.log.take kept := by
    obtain ⟨-, rfl⟩ := of_guard hu
    rfl
  obtain ⟨hokv, hlogv⟩ := log_replayed (lifeOk_step h hu) hv
  have hokt := lifeOk_step hokv hw
  simp only [Life.step] at hw
  split at hw
  · cases hw
    refine ⟨hokt, rfl, hlogv.trans hlogu, ?_⟩
    intro id it hit hleased
    obtain ⟨q, -, -, hshows, -, -⟩ := hokv.shown
    obtain ⟨hindexed, hsettled⟩ := hshows.endReplay hokv.core.indexed
    obtain ⟨r, hr, hread⟩ := hsettled.record hindexed (hindexed.get_ptr hit)
    obtain ⟨x, -, rfl⟩ := mem_map.mp hr
    have hstate := (hsettled.sight.same hread).2.2.2
    rw [hleased] at hstate
    cases hx : x.state <;> simp [Record.settle, hx] at hstate
  · cases hw

theorem LifeOk.live_iff (h : LifeOk s) (hidle : s.todo = none) :
    s.core.m.Live p ↔ ∃ r ∈ (empty.replay (bareLog s.log)).recs, p = ⟨r.id, r.seq⟩ := by
  obtain ⟨q, done, hdone, hshows, -, hreborn⟩ := h.shown
  rw [hidle, Option.getD_none, map_nil, append_nil] at hdone
  rw [hshows.live_iff h.core.indexed, live_reborn hreborn, hdone]

/-- A reopening loses a record only with the entry that appended it. -/
theorem LifeOk.lost_with_append (h : LifeOk s) (hidle : s.todo = none)
    (hre : s.reopen offload lim kept snap refs found = some t) (hlive : s.core.m.Live p)
    (hgone : ¬ t.core.m.Live p) :
    ∃ line ∈ s.log.drop kept, ∃ r, line.entry = .append r ∧ p = ⟨r.id, r.seq⟩ := by
  obtain ⟨hokt, hidlet, hlog, -⟩ := h.reopen hre
  rw [h.live_iff hidle, ← take_append_drop kept s.log, bareLog_append, replay_append]
    at hlive
  rw [hokt.live_iff hidlet, hlog] at hgone
  obtain ⟨r, hr, rfl⟩ := (origin_replay hlive).resolve_left hgone
  obtain ⟨line, hline, hbare⟩ := mem_map.mp hr
  refine ⟨line, hline, ?_⟩
  cases hentry : line.entry with
  | append x =>
    rw [hentry] at hbare
    cases hbare
    exact ⟨x, rfl, rfl⟩
  | requeue id replace cp =>
    rw [hentry] at hbare
    cases replace <;> cases hbare
  | _ =>
    rw [hentry] at hbare
    cases hbare

end Reopening

section Fencing

variable {offload : Bool} {lim : Limits} {s t : Session} {a : SessionAct}

/-- What holds whenever a store is open. -/
structure SessionOk (s : Session) : Prop where
  life : LifeOk s.life
  idle : s.life.todo = none
  holding : Holding s.trace s.life.core.m

theorem sessionOk_new (lim : Limits) :
    SessionOk (.new lim) where
  life := lifeOk_new lim
  idle := rfl
  holding id it hit := by
    simp [Session.new, Life.new, Core.new, newMachine] at hit

variable {ref : BlobRef} {now : Time}

theorem core_of_step {a : CoreAct} (hstep : s.step offload lim (.core a ref) = some t) :
    ∃ out, s.life.core.step offload (fun _ => ref) a = some (t.life.core, out) ∧
      t.life.todo = s.life.todo ∧
        t.trace = s.trace ++ a.leaseEvents offload (fun _ => ref) s.life.core := by
  obtain ⟨life, hlife, rfl⟩ := Option.map_eq_some_iff.mp hstep
  simp only [Life.step] at hlife
  obtain ⟨-, hlife⟩ := of_unless hlife
  split at hlife
  · cases hlife
  · next c hcore =>
    cases hlife
    exact ⟨none, hcore, rfl, rfl⟩
  · next c e hcore =>
    cases hlife
    exact ⟨some e, hcore, rfl, rfl⟩

theorem sessionOk_step (h : SessionOk s) (hstep : s.step offload lim a = some t) : SessionOk t := by
  cases a with
  | core a ref =>
    obtain ⟨out, hcore, htodo, htrace⟩ := core_of_step hstep
    obtain ⟨life, hlife, rfl⟩ := Option.map_eq_some_iff.mp hstep
    refine ⟨lifeOk_step h.life hlife, htodo.trans h.idle, ?_⟩
    exact h.holding.coreStep h.life.core hcore
  | snapshot pays =>
    obtain ⟨life, hlife, rfl⟩ := Option.map_eq_some_iff.mp hstep
    have hok := lifeOk_step h.life hlife
    obtain ⟨-, rfl⟩ := of_guard hlife
    exact ⟨hok, h.idle, h.holding⟩
  | reopen kept snap refs found =>
    obtain ⟨life, hre, rfl⟩ := Option.map_eq_some_iff.mp hstep
    obtain ⟨hok, hidle, -, hfree⟩ := h.life.reopen hre
    refine ⟨hok, hidle, ?_⟩
    exact fun id it hit hleased => absurd hleased (hfree id it hit)

/-- A call that fails changes nothing. -/
theorem unchanged_of_error {c : Call} {err : Error}
    (hstep : s.step offload lim (.core (.call c now) ref) = some t)
    (hexec : c.exec offload (fun _ => ref) s.life.core.m now = .error err) : t = s := by
  obtain ⟨life, hlife, rfl⟩ := Option.map_eq_some_iff.mp hstep
  have hlife' : life = s.life := by
    by_cases hlock : s.life.core.commit.isSome = true
    · simp [Life.step, Core.step, hlock] at hlife
    · simp only [Life.step, Core.step, hlock, hexec] at hlife
      obtain ⟨-, rfl⟩ := of_guard_not hlife
      rfl
  simp only [CoreAct.leaseEvents, hexec, append_nil, hlife']

theorem live_of_append {r : Record} {out : Option Entry × Machine}
    (hstep : s.step offload lim (.core (.call (.append r) now) ref) = some t)
    (hexec : Call.exec offload (fun _ => ref) s.life.core.m now (.append r) = .ok out) :
    ∃ it, t.life.core.m.items.get r.id = some it := by
  obtain ⟨_, hcore, -, -⟩ := core_of_step hstep
  have hm : t.life.core.m = out.2 := by
    simp only [Core.step, hexec] at hcore
    split at hcore
    · cases hcore
    · simp only [Option.some.injEq, Prod.mk.injEq] at hcore
      rw [← hcore.1]
  rw [hm]
  cases executed_of_exec hexec with
  | known hprep =>
    rcases prepare_cases hprep with ⟨-, hknown⟩ | ⟨r', hr', -⟩
    · exact Option.isSome_iff_exists.mp hknown
    · cases hr'
  | @append _ r' hprep =>
    have hprepared := prepare_eq_some hprep
    rw [insertRecord_eq, hprepared.new, ← hprepared.id]
    have hget := (insertItem_fields s.life.core.m (newItem offload r' ref) r'.size).2.1 r'.id
    rw [if_pos (newItem_id offload r' ref).symm] at hget
    exact ⟨_, hget⟩

theorem leaves_of_step {p : Ptr} (h : SessionOk s) (hstep : s.step offload lim a = some t)
    (hlive : s.life.core.m.Live p) (hgone : ¬ t.life.core.m.Live p) : Leaves s p a := by
  obtain ⟨x, hx, hptr⟩ := hlive
  cases a with
  | core a ref =>
    obtain ⟨out, hcore, -, -⟩ := core_of_step hstep
    obtain ⟨q, -, -, hshows, -, -⟩ := h.life.shown
    rcases removed_by_call h.life.core hshows hcore ⟨x, hx, hptr⟩ hgone with
      ⟨token, now, it, rfl, hheld⟩ | ⟨now, it, rfl, hparked⟩
    · have hissued := h.holding.held hheld
      obtain rfl := Option.some.inj ((held_eq_ok hheld).symm.trans hx)
      rw [hptr] at hissued
      exact ⟨rfl, hissued⟩
    · obtain ⟨hit, hstate⟩ := parkedItem_eq_ok hparked
      obtain rfl := Option.some.inj (hit.symm.trans hx)
      exact ⟨rfl, it, hit, hptr, hstate⟩
  | snapshot pays =>
    obtain ⟨life, hlife, rfl⟩ := Option.map_eq_some_iff.mp hstep
    obtain ⟨-, rfl⟩ := of_guard hlife
    exact hgone ⟨x, hx, hptr⟩
  | reopen kept snap refs found =>
    obtain ⟨life, hre, rfl⟩ := Option.map_eq_some_iff.mp hstep
    exact h.life.lost_with_append h.idle hre ⟨x, hx, hptr⟩ hgone

/-- A record is appended, leased and given back; the lease is over, so its token
acks nothing.  It is leased again and, after a reopening, once more. -/
def demoSession : List SessionAct :=
  [.core (.call (.append (demoRecord "a" 0 "k" "db" 0)) 100) .zero,
    .core (.leaseNow [str "db"] 200 ⟨[], [], 5, 1000⟩ [str "t"]) .zero,
    .core (.call (.release (str "a") (str "t")) 210) .zero,
    .core (.leaseNow [str "db"] 220 ⟨[], [], 5, 1000⟩ [str "u"]) .zero,
    .core (.call (.ack (str "a") (str "t")) 230) .zero,
    .reopen 4 none [] [.zero, .zero, .zero, .zero],
    .core (.leaseNow [str "db"] 300 ⟨[], [], 5, 1000⟩ [str "v"]) .zero]

end Fencing

end Dlq
end GoGuard
