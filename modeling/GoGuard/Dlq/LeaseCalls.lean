import GoGuard.Dlq.Fencing
import GoGuard.Dlq.Redriver

/-!
# What a call of the store does to a lease

A client of a `WALStore` sees of a step only the record it named, its lease and whether an
entry was logged.  This module gives one inversion for each kind of step the redriver
makes: a call, the parts of a `Lease`, and the steps of the store's own goroutines.  A
lease that is held stays as it is under every call that does not show its token.
-/

namespace GoGuard
namespace Dlq

open Lib Machine List

section Records

variable {offload : Bool} {refOf : Entry → BlobRef} {m m' : Machine} {now : Time}

/-- The record a call is about. -/
def Call.about : Call → Bytes
  | .append r => r.id
  | .checkpoint id _ _ => id
  | .ack id _ => id
  | .release id _ => id
  | .nack id _ _ => id
  | .park id _ _ => id
  | .requeueWith id _ => id
  | .discard id => id

variable {it : Item} {id : Bytes} {c : Call} {e : Option Entry}

/-- A call leaves every other record alone. -/
theorem exec_other (h : Indexed m) (hexec : c.exec offload refOf m now = .ok (e, m'))
    (hne : id ≠ c.about) : m'.items.get id = m.items.get id := by
  -- a change of the item the call names
  have hone : ∀ {it it' : Item} {m' : Machine}, m.items.get c.about = some it →
      Touched m m' it it' → m'.items.get id = m.items.get id := by
    intro it it' m' hit ht
    rw [ht.get, if_neg]
    rw [(h.live _ it hit).1]
    exact hne
  have hgone : ∀ {it : Item}, m.items.get c.about = some it →
      (m.remove it).items.get id = m.items.get id := by
    intro it hit
    rw [(remove_fields m it).2.1, GoMap.get_del, if_neg]
    rw [(h.live _ it hit).1]
    exact hne
  cases executed_of_exec hexec with
  | known => rfl
  | append hprep =>
    rw [insertRecord_eq]
    split
    · rfl
    · rw [(insertItem_fields m _ _).2.1, newItem_id, if_neg]
      rw [(prepare_eq_some hprep).id]
      exact hne
  | @checkpoint id' _ cp it hheld =>
    have hit := held_eq_ok hheld
    obtain rfl := (h.live id' it hit).1
    obtain ⟨it', ht, -⟩ := touched_setCheckpointAt hit offload cp _
    exact hone hit ht
  | ack hheld => exact hgone (held_eq_ok hheld)
  | release hheld =>
    obtain ⟨it', ht, -⟩ := touched_applyRelease (h.get_ptr (held_eq_ok hheld))
    exact hone (held_eq_ok hheld) ht
  | nack hheld =>
    obtain ⟨it', ht, -⟩ := touched_applyNack (h.get_ptr (held_eq_ok hheld)) now _ _ _ _
    exact hone (held_eq_ok hheld) ht
  | park hheld =>
    obtain ⟨it', ht, -⟩ := touched_applyPark (h.get_ptr (held_eq_ok hheld)) now _
    exact hone (held_eq_ok hheld) ht
  | @requeueWith id' o it _ hparked =>
    obtain ⟨hit, -⟩ := parkedItem_eq_ok hparked
    obtain ⟨it', ht, -⟩ := touched_requeue (h.get_ptr hit)
    simp only [requeued]
    split
    · have hit' : (m.applyRequeue it false none).items.get it'.record.id = some it' := by
        rw [ht.get, if_pos ht.same]
      rw [← ht.same]
      obtain ⟨it'', ht', -⟩ := touched_setCheckpointAt hit' offload o.checkpoint _
      exact hone hit (ht.trans ht')
    · exact hone hit ht
  | discard hparked => exact hgone (parkedItem_eq_ok hparked).1

/-- The store holds the lease as it was granted. -/
def Machine.Grants (m : Machine) (l : Lease) : Prop :=
  ∃ it, m.items.get l.id = some it ∧ it.record.state = .leased ∧ it.token = l.token ∧
    it.record.attempts = l.attempts

/-- A call that does not show the token of a lease leaves the lease alone. -/
theorem Machine.Grants.exec {l : Lease} (h : Indexed m) (hl : m.Grants l)
    (hexec : c.exec offload refOf m now = .ok (e, m')) (hfence : c.fence ≠ some (l.id, l.token)) :
    m'.Grants l := by
  obtain ⟨it, hit, hleased, htoken, hattempts⟩ := hl
  by_cases habout : l.id = c.about
  · -- the record is not parked and is known, and the token is another one
    have hshown : ∀ token, c.fence ≠ some (c.about, token) := by
      intro token hc
      obtain ⟨x, hheld⟩ := held_of_fence hc hexec
      obtain ⟨hx, -, hxt⟩ := held_token hheld
      rw [← habout] at hx hc
      obtain rfl := Option.some.inj (hx.symm.trans hit)
      rw [← hxt, htoken] at hc
      exact hfence hc
    have hnot : ∀ x, parkedItem m l.id ≠ .ok x := by
      intro x hparked
      obtain ⟨hx, hstate⟩ := parkedItem_eq_ok hparked
      obtain rfl := Option.some.inj (hx.symm.trans hit)
      rw [hstate] at hleased
      cases hleased
    cases executed_of_exec hexec with
    | known => exact ⟨it, hit, hleased, htoken, hattempts⟩
    | append hprep =>
      obtain ⟨hnew, hid, -⟩ := prepare_eq_some hprep
      rw [hid] at hnew
      exact nomatch hit.symm.trans ((congrArg m.items.get habout).trans hnew)
    | checkpoint | ack | release | nack | park => exact absurd rfl (hshown _)
    | requeueWith hparked | discard hparked =>
      exact absurd ((congrArg (parkedItem m) habout).trans hparked) (hnot _)
  · exact ⟨it, (exec_other h hexec habout).trans hit, hleased, htoken, hattempts⟩

end Records

section Granting

variable {m : Machine}

theorem get_grantOne_of_ne {it : Item} {id : Bytes} (hit : m.items.get it.record.id = some it)
    (hne : id ≠ it.record.id) (token : Bytes) (expires : Time) :
    (m.grantOne it token expires).items.get id = m.items.get id := by
  obtain ⟨it', ht, -⟩ := touched_grantOne hit token expires
  rw [ht.get, if_neg hne]

theorem get_grant_of_ne {id : Bytes} (h : Indexed m) (picked : List (Ptr × Bytes))
    (hne : ∀ x ∈ picked, x.1.id ≠ id) (now : Time) (ttl : Int) :
    (m.grant picked now ttl).items.get id = m.items.get id := by
  induction picked generalizing m with
  | nil => rfl
  | cons x picked ih =>
    have hrest : ∀ y ∈ picked, y.1.id ≠ id := fun y hy => hne y (mem_cons_of_mem _ hy)
    cases hit : m.items.get x.1.id with
    | none =>
      have hskip : m.grant (x :: picked) now ttl = m.grant picked now ttl := by
        unfold Machine.grant
        rw [foldl_cons, hit]
      rw [hskip]
      exact ih h hrest
    | some it =>
      have hid := (h.live _ it hit).1
      rw [grant_cons x picked now ttl hit, ih (h.grantOne (h.get_ptr hit) _ _) hrest]
      refine get_grantOne_of_ne (h.get_ptr hit) ?_ _ _
      rw [hid]
      exact (hne x mem_cons_self).symm

theorem get_grant {it : Item} {x : Ptr × Bytes} (h : Indexed m) {picked : List (Ptr × Bytes)}
    (hnodup : (picked.map fun x => x.1.id).Nodup) (hx : x ∈ picked)
    (hit : m.items.get x.1.id = some it) (now : Time) (ttl : Int) :
    ∃ it', (m.grant picked now ttl).items.get x.1.id = some it' ∧
      it'.record = it.record.lease ∧ it'.token = x.2 := by
  induction picked generalizing m with
  | nil => cases hx
  | cons y picked ih =>
    obtain ⟨hy, hnodup⟩ := nodup_cons.mp hnodup
    rcases mem_cons.mp hx with rfl | hx
    · -- the rest of the grant is about other records
      have hit' := h.get_ptr hit
      obtain ⟨it', ht, hrev, htoken⟩ := touched_grantOne hit' x.2 (now + ttl)
      rw [grant_cons x picked now ttl hit,
        get_grant_of_ne (h.grantOne hit' _ _) picked ?_ now ttl]
      · refine ⟨it', (ht.get x.1.id).trans (if_pos ?_), hrev.record, htoken⟩
        exact (h.live _ it hit).1.symm
      · intro z hz heq
        exact hy (mem_map.mpr ⟨z, hz, heq⟩)
    · cases hy' : m.items.get y.1.id with
      | none =>
        have hskip : m.grant (y :: picked) now ttl = m.grant picked now ttl := by
          unfold Machine.grant
          rw [foldl_cons, hy']
        rw [hskip]
        exact ih h hnodup hx hit
      | some z =>
        rw [grant_cons y picked now ttl hy']
        refine ih (h.grantOne (h.get_ptr hy') _ _) hnodup hx ?_
        rw [get_grantOne_of_ne (h.get_ptr hy') ?_ _ _, hit]
        rw [(h.live _ z hy').1]
        intro heq
        exact hy (mem_map.mpr ⟨x, hx, heq⟩)

end Granting

section Steps

variable {o : WalOptions} {w w' : Wal}

variable {a : CoreAct} {now : Time} {i : Nat}

theorem Wal.core_cases (hstep : w.step o (.core a) = some w') :
    ∃ c e, w.core.Turn o.offload (w.refOf o) a c e ∧
      ((e = none ∧ w' = { w with core := c }) ∨
        ∃ e', e = some e' ∧
          ((maxEntryBytes < e'.body.length ∧
              w' = { w with core := { w.core with commit := none } }) ∨
            (e'.body.length ≤ maxEntryBytes ∧ w' = { w.write o e' with core := c }))) := by
  cases Wal.turn_of_step hstep with
  | silent hadmits hcore => exact ⟨_, _, Core.turn_of_step hcore, .inl ⟨rfl, rfl⟩⟩
  | refused hadmits hcore hsize =>
    exact ⟨_, _, Core.turn_of_step hcore, .inr ⟨_, rfl, .inl ⟨hsize, rfl⟩⟩⟩
  | logged hadmits hcore hsize hwait =>
    exact ⟨_, _, Core.turn_of_step hcore, .inr ⟨_, rfl, .inr ⟨hsize, rfl⟩⟩⟩

theorem coreOk_step (h : CoreOk w.core) (hstep : w.step o (.core a) = some w') :
    CoreOk w'.core := by
  cases Wal.turn_of_step hstep with
  | silent hadmits hcore => exact (core_step h hcore).1
  | refused hadmits hcore hsize => exact coreOk_idle h.indexed w.core.picked
  | logged hadmits hcore hsize hwait => exact (core_step h hcore).1

/-- A call has no effect, or logs one entry. -/
theorem Wal.call_cases {c : Call} (h : Indexed w.core.m)
    (hstep : w.step o (.core (.call c now)) = some w') :
    w.core.commit = none ∧
      ((w' = w ∧ ∀ e m, c.exec o.offload (w.refOf o) w.core.m now = .ok (some e, m) →
          maxEntryBytes < e.body.length) ∨
        ∃ e m, c.exec o.offload (w.refOf o) w.core.m now = .ok (some e, m) ∧
          e.body.length ≤ maxEntryBytes ∧
            w' = { w.write o e with core := { w.core with m := m } }) := by
  obtain ⟨core, e, hturn, hw⟩ := Wal.core_cases hstep
  cases hturn with
  | failed hidle hexec =>
    refine ⟨hidle, .inl ?_⟩
    rcases hw with ⟨-, rfl⟩ | ⟨e, he, -⟩
    · exact ⟨rfl, fun e m hok => nomatch hexec.symm.trans hok⟩
    · cases he
  | called hidle hexec =>
    refine ⟨hidle, ?_⟩
    rcases hw with ⟨rfl, rfl⟩ | ⟨e, rfl, ⟨hsize, rfl⟩ | ⟨hsize, rfl⟩⟩
    · rcases exec_eq_replay h hexec with hout | ⟨e, hout, -⟩
      · cases hout
        exact .inl ⟨rfl, fun e m hok => nomatch hexec.symm.trans hok⟩
      · cases hout
    · refine .inl ⟨by rw [← hidle], ?_⟩
      intro e m hok
      cases hexec.symm.trans hok
      exact hsize
    · exact .inr ⟨e, _, hexec, hsize, rfl⟩

theorem Wal.pick_cases {ord : List Bytes} {req : LeaseRequest}
    (hstep : w.step o (.core (.pick ord now req)) = some w') :
    w.core.commit = none ∧ ord.Perm w.core.m.groups.keys ∧
      w' = { w with core := { w.core with
        m := (pickLease w.core.m ord now req).1
        picked := w.core.picked ++ [⟨req, (pickLease w.core.m ord now req).2⟩] } } := by
  obtain ⟨core, e, hturn, hw⟩ := Wal.core_cases hstep
  cases hturn with
  | picked hidle hord =>
    rcases hw with ⟨-, rfl⟩ | ⟨e, he, -⟩
    · exact ⟨hidle, hord, rfl⟩
    · cases he

theorem Wal.commit_cases {reads : List ReadResult}
    (hstep : w.step o (.core (.commit i now reads)) = some w') :
    ∃ x, w.core.picked[i]? = some x ∧ reads.length = x.cands.length ∧
      w' = { w with core := {
        m := releaseCands w.core.m x.cands
        picked := w.core.picked.eraseIdx i
        commit := some ⟨now, x.req.ttl,
          candsRead (releaseCands w.core.m x.cands) now x.cands reads .unreadable,
          candsRead (releaseCands w.core.m x.cands) now x.cands reads .ok⟩ } } := by
  obtain ⟨core, e, hturn, hw⟩ := Wal.core_cases hstep
  cases hturn with
  | committed hidle hx hlen =>
    rcases hw with ⟨-, rfl⟩ | ⟨e, he, -⟩
    · exact ⟨_, hx, hlen, rfl⟩
    · cases he

theorem Wal.giveUp_cases (hstep : w.step o (.core (.giveUp i)) = some w') :
    w'.core.picked = w.core.picked.eraseIdx i ∧ w'.core.commit = none := by
  obtain ⟨core, e, hturn, hw⟩ := Wal.core_cases hstep
  cases hturn with
  | gaveUp hidle hx =>
    rcases hw with ⟨-, rfl⟩ | ⟨e, he, -⟩
    · exact ⟨rfl, hidle⟩
    · cases he

theorem Wal.parkBad_cases (hstep : w.step o (.core .parkBad) = some w') :
    w'.core.picked = w.core.picked ∧
      (w'.core.commit = none ∨ ∃ now ttl p bad good,
        w.core.commit = some ⟨now, ttl, p :: bad, good⟩ ∧
          w'.core.commit = some ⟨now, ttl, bad, good⟩) := by
  obtain ⟨core, e, hturn, hw⟩ := Wal.core_cases hstep
  cases hturn with
  | parkedBad hcommit =>
    rcases hw with ⟨he, -⟩ | ⟨e, -, ⟨-, rfl⟩ | ⟨-, rfl⟩⟩
    · cases he
    · exact ⟨rfl, .inl rfl⟩
    · exact ⟨rfl, .inr ⟨_, _, _, _, _, hcommit, rfl⟩⟩

theorem Wal.grant_cases {tokens : List Bytes} (hstep : w.step o (.core (.grant tokens)) = some w') :
    ∃ now ttl good, w.core.commit = some ⟨now, ttl, [], good⟩ ∧ tokens.length = good.length ∧
      (w' = { w with core := { w.core with commit := none } } ∨
        ((Entry.lease (good.map Ptr.id)).body.length ≤ maxEntryBytes ∧
          w' = { w.write o (.lease (good.map Ptr.id)) with core := { w.core with
            m := w.core.m.grant (good.zip tokens) now ttl
            commit := none } })) := by
  obtain ⟨core, e, hturn, hw⟩ := Wal.core_cases hstep
  cases hturn with
  | granted hcommit hsome hlen =>
    refine ⟨_, _, _, hcommit, hlen, ?_⟩
    rcases hw with ⟨he, -⟩ | ⟨e, he, ⟨-, rfl⟩ | ⟨hsize, rfl⟩⟩
    · cases he
    · exact .inl rfl
    · cases he
      exact .inr ⟨hsize, rfl⟩

theorem Wal.closed_cases (ha : a = .done ∨ a = .abort) (hstep : w.step o (.core a) = some w') :
    w' = { w with core := { w.core with commit := none } } := by
  obtain ⟨core, e, hturn, hw⟩ := Wal.core_cases hstep
  rcases ha with rfl | rfl
  · cases hturn with
    | done hcommit =>
      rcases hw with ⟨-, rfl⟩ | ⟨e, he, -⟩
      · rfl
      · cases he
  · cases hturn with
    | aborted hcommit =>
      rcases hw with ⟨-, rfl⟩ | ⟨e, he, -⟩
      · rfl
      · cases he

end Steps

section Background

variable {o : WalOptions} {w w' : Wal} {m : Machine}

/-- The copy of a record moves its payload, and nothing else. -/
theorem repointOne_keeps (h : Indexed m) (e : SnapEntry) (ref : BlobRef) :
    Indexed (repointOne m e ref) ∧
      ∀ id, ((repointOne m e ref).items.get id).map (fun it => (it.record, it.token)) =
        (m.items.get id).map fun it => (it.record, it.token) := by
  unfold repointOne
  split
  · exact ⟨h, fun _ => rfl⟩
  · next it hit =>
    have hit' := h.get_ptr hit
    refine ⟨h.store hit' rfl, ?_⟩
    intro id
    unfold Machine.store
    rw [GoMap.get_set]
    by_cases hid : id = it.record.id
    · rw [if_pos hid, hid]
      exact (congrArg (Option.map fun it => (it.record, it.token)) hit').symm
    · rw [if_neg hid]

theorem repoint_keeps (h : Indexed m) (xs : List (SnapEntry × BlobRef)) :
    Indexed (repoint m xs) ∧
      ∀ id, ((repoint m xs).items.get id).map (fun it => (it.record, it.token)) =
        (m.items.get id).map fun it => (it.record, it.token) := by
  unfold repoint
  induction xs generalizing m with
  | nil => exact ⟨h, fun _ => rfl⟩
  | cons x xs ih =>
    obtain ⟨hone, hsame⟩ := repointOne_keeps h x.1 x.2
    obtain ⟨hall, hrest⟩ := ih hone
    exact ⟨hall, fun id => (hrest id).trans (hsame id)⟩

theorem Wal.background_cases {a : WalAct} (h : CoreOk w.core) (hback : a.isBackground = true)
    (hstep : w.step o a = some w') :
    CoreOk w'.core ∧ w'.core.picked = w.core.picked ∧ w'.core.commit = w.core.commit ∧
      ∀ id, (w'.core.m.items.get id).map (fun it => (it.record, it.token)) =
        (w.core.m.items.get id).map fun it => (it.record, it.token) := by
  -- all but the swap leave the calls alone
  have hkept : ∀ {c : Core}, c = w.core → CoreOk c ∧ c.picked = w.core.picked ∧
      c.commit = w.core.commit ∧
        ∀ id, (c.m.items.get id).map (fun it => (it.record, it.token)) =
          (w.core.m.items.get id).map fun it => (it.record, it.token) := by
    rintro c rfl
    exact ⟨h, rfl, rfl, fun _ => rfl⟩
  cases Wal.turn_of_step hstep with
  | silent hadmits hcore => cases hback
  | refused hadmits hcore hsize => cases hback
  | logged hadmits hcore hsize hwait => cases hback
  | reopened hposs hrecover => cases hback
  | covered | abandoned | syncing | synced | finished => exact hkept rfl
  | captured hidle hcommit hnew hwait =>
    exact hkept (Wal.rotated (P := fun v => v.core = w.core) rfl rfl).1
  | @copied c hcomp hnew =>
    obtain ⟨comp, hcopy⟩ := w.copy_eq o c
    exact hkept (by rw [hcopy])
  | @swapped c f refs hcomp hcopied hidle =>
    cases hoff : o.offload with
    | false =>
      refine hkept ?_
      unfold Wal.swap
      rw [hoff]
      rfl
    | true =>
      obtain ⟨hindexed, hsame⟩ := repoint_keeps h.indexed (c.entries.zip refs)
      have hcore : (w.swap o c f refs).core =
          ⟨repoint w.core.m (c.entries.zip refs), w.core.picked, none⟩ := by
        rw [← hidle]
        unfold Wal.swap
        rw [hoff]
        rfl
      rw [hcore, hidle]
      exact ⟨coreOk_idle hindexed w.core.picked, rfl, rfl, hsame⟩

theorem Wal.log_of_background {a : WalAct} (hback : a.isBackground = true)
    (hstep : w.step o a = some w') : w'.log = w.log := by
  cases Wal.turn_of_step hstep with
  | silent hadmits hcore => cases hback
  | refused hadmits hcore hsize => cases hback
  | logged hadmits hcore hsize hwait => cases hback
  | reopened hposs hrecover => cases hback
  | captured hidle hcommit hnew hwait =>
    exact (Wal.rotated (P := fun v => v.log = w.log) rfl rfl).1
  | @copied c hcomp hnew =>
    obtain ⟨comp, hcopy⟩ := w.copy_eq o c
    rw [hcopy]
  | _ => rfl

theorem Machine.Grants.of_same {m' : Machine} {l : Lease} (hl : m.Grants l)
    (hsame : ∀ id, (m'.items.get id).map (fun it => (it.record, it.token)) =
      (m.items.get id).map fun it => (it.record, it.token)) :
    m'.Grants l := by
  obtain ⟨it, hit, hleased, htoken, hattempts⟩ := hl
  have hget := hsame l.id
  rw [hit] at hget
  obtain ⟨it', hit', heq⟩ := Option.map_eq_some_iff.mp hget
  simp only [Prod.mk.injEq] at heq
  exact ⟨it', hit', heq.1 ▸ hleased, heq.2.trans htoken, heq.1 ▸ hattempts⟩

end Background

end Dlq
end GoGuard
