import GoGuard.Dlq.Queue

/-!
# The leases a log has charged to a record

`Attempts` of a record is raised by every lease and lowered by a Release and by a Nack
with a refund.  This module reads off the log which leases are still charged: a lease is
charged by its entry, a refund takes the last charge back, and an Append or a Requeue of
the record starts a new account.  What is charged is never more than the stored
`Attempts` (`charged_le_attempts`).  A lease `Stands` while nobody took its attempt back,
and the leases of a record that stand were all charged when the last of them was granted
(`length_le_charged`).
-/

namespace GoGuard
namespace Dlq

open Lib Machine Queue List

section Accounts

/-- What an entry is for the account of a record. -/
inductive Toll where
  | opens
  | charges
  | refunds
  | free
deriving DecidableEq

def Entry.toll (id : Bytes) : Entry → Toll
  | .append r => if r.id = id then .opens else .free
  | .requeue id' _ _ => if id' = id then .opens else .free
  | .lease ids => if id ∈ ids then .charges else .free
  | .release id' => if id' = id then .refunds else .free
  | .nack id' _ _ _ _ refund => if id' = id ∧ refund = true then .refunds else .free
  | _ => .free

/-- The account of a record: the length of the log, the LSN that opened the account, and
the LSNs of the leases that are charged. -/
structure Account where
  lsn : Nat
  since : Nat
  charged : List Nat
deriving DecidableEq

def Account.next (id : Bytes) (a : Account) (e : Entry) : Account :=
  match e.toll id with
  | .opens => ⟨a.lsn + 1, a.lsn + 1, []⟩
  | .charges => ⟨a.lsn + 1, a.since, a.charged ++ [a.lsn + 1]⟩
  | .refunds => ⟨a.lsn + 1, a.since, a.charged.dropLast⟩
  | .free => ⟨a.lsn + 1, a.since, a.charged⟩

def account (id : Bytes) (log : List Entry) : Account :=
  log.foldl (Account.next id) ⟨0, 0, []⟩

variable {id : Bytes} {log : List Entry} {e : Entry}

theorem toll_eq_refunds (htoll : e.toll id = .refunds) :
    e = .release id ∨
      ∃ stamp next errText blockedOn, e = .nack id stamp next errText blockedOn true := by
  cases e with
  | append r | lease ids | requeue id' replace cp =>
    rw [Entry.toll] at htoll
    split at htoll <;> cases htoll
  | release id' =>
    simpa [Entry.toll] using htoll
  | nack id' stamp next errText blockedOn refund =>
    right
    obtain ⟨rfl, rfl⟩ : id' = id ∧ refund = true := by simpa [Entry.toll] using htoll
    exact ⟨stamp, next, errText, blockedOn, rfl⟩
  | _ => cases htoll

theorem account_concat (id : Bytes) (log : List Entry) (e : Entry) :
    account id (log ++ [e]) = (account id log).next id e :=
  foldl_append

theorem lsn_next (id : Bytes) (a : Account) (e : Entry) : (a.next id e).lsn = a.lsn + 1 := by
  unfold Account.next
  split <;> rfl

theorem lsn_account (id : Bytes) (log : List Entry) : (account id log).lsn = log.length := by
  induction log using List.reverseRecOn with
  | nil => rfl
  | append_singleton log e ih =>
    rw [account_concat, lsn_next, ih, length_append]
    rfl

theorem since_next (id : Bytes) (a : Account) (e : Entry) :
    (a.next id e).since = a.since ∨ (a.next id e).since = a.lsn + 1 := by
  unfold Account.next
  split
  · exact .inr rfl
  · exact .inl rfl
  · exact .inl rfl
  · exact .inl rfl

theorem since_le (id : Bytes) (log : List Entry) : (account id log).since ≤ log.length := by
  induction log using List.reverseRecOn with
  | nil => exact le_refl 0
  | append_singleton log e ih =>
    have hlsn := lsn_account id log
    rw [account_concat, length_append, length_singleton]
    rcases since_next id (account id log) e with hsame | hnew
    · omega
    · omega

theorem since_take_le (id : Bytes) (log : List Entry) (n : Nat) :
    (account id (log.take n)).since ≤ (account id log).since := by
  induction log using List.reverseRecOn with
  | nil => rw [take_nil]
  | append_singleton log e ih =>
    by_cases hn : n ≤ log.length
    · have hlsn := lsn_account id log
      have hle := since_le id log
      rw [take_append_of_le_length hn, account_concat]
      rcases since_next id (account id log) e with hsame | hnew
      · omega
      · omega
    · rw [take_of_length_le]
      rw [length_append, length_singleton]
      omega

end Accounts

section Standing

/-- The lease `x` of a record is charged to it at every moment since, until its account is
opened again or a call that is `undone` took the attempt back. -/
def Stands (log : List Entry) (undone : List (Bytes × Nat × Nat)) (x : Bytes × Nat) : Prop :=
  ∀ n, x.2 ≤ n → n ≤ log.length → (account x.1 (log.take n)).since < x.2 →
    (∀ p, (x.1, x.2, p) ∈ undone → n < p) → x.2 ∈ (account x.1 (log.take n)).charged

variable {log : List Entry} {undone undone' : List (Bytes × Nat × Nat)} {x : Bytes × Nat}
variable {e : Entry}

theorem Stands.concat (h : Stands log undone x) (hx : x.2 ≤ log.length) (hsub : undone ⊆ undone')
    (hrefund : e.toll x.1 = .refunds → (account x.1 log).charged.getLast? = some x.2 →
      (x.1, x.2, log.length + 1) ∈ undone') :
    Stands (log ++ [e]) undone' x := by
  intro n hle hn hsince hstill
  rw [length_append, length_singleton] at hn
  by_cases hlast : n ≤ log.length
  · rw [take_append_of_le_length hlast] at hsince ⊢
    exact h n hle hlast hsince fun p hp => hstill p (hsub hp)
  · obtain rfl : n = log.length + 1 := by omega
    have hlsn := lsn_account x.1 log
    rw [take_of_length_le (by simp), account_concat] at hsince ⊢
    have hold : (account x.1 log).since < x.2 → x.2 ∈ (account x.1 log).charged := by
      intro hsince
      have hall := h log.length hx (le_refl _)
      rw [take_length] at hall
      refine hall hsince fun p hp => ?_
      have hlt := hstill p (hsub hp)
      omega
    unfold Account.next at hsince ⊢
    cases htoll : e.toll x.1 with
    | opens =>
      rw [htoll] at hsince
      change (account x.1 log).lsn + 1 < x.2 at hsince
      omega
    | charges =>
      rw [htoll] at hsince
      exact mem_append_left _ (hold hsince)
    | refunds =>
      rw [htoll] at hsince
      have hmem := hold hsince
      have hne : (account x.1 log).charged ≠ [] := ne_nil_of_mem hmem
      rw [← dropLast_append_getLast hne] at hmem
      rcases mem_append.mp hmem with hmem | hmem
      · exact hmem
      · have hlast := mem_singleton.mp hmem
        have hp := hrefund htoll (by rw [List.getLast?_eq_some_getLast hne, hlast])
        exact absurd (hstill _ hp) (lt_irrefl _)
    | free =>
      rw [htoll] at hsince
      exact hold hsince

theorem stands_charged (hx : x.2 = log.length + 1) (htoll : e.toll x.1 = .charges) :
    Stands (log ++ [e]) undone x := by
  intro n hle hn _ _
  rw [length_append, length_singleton] at hn
  obtain rfl : n = log.length + 1 := by omega
  rw [take_of_length_le (by simp), account_concat]
  unfold Account.next
  rw [htoll, lsn_account, hx]
  exact mem_append_right _ mem_cons_self

theorem Stands.take (h : Stands log undone x) (kept : Nat) :
    Stands (log.take kept) (undone.filter (·.2.2 ≤ kept)) x := by
  intro n hle hn hsince hstill
  rw [length_take] at hn
  have htake : (log.take kept).take n = log.take n := by
    rw [take_take, min_eq_left (by omega)]
  rw [htake] at hsince ⊢
  refine h n hle (by omega) hsince ?_
  intro p hp
  by_cases hkept : p ≤ kept
  · exact hstill p (mem_filter.mpr ⟨hp, by simpa using hkept⟩)
  · omega

/-- The leases of one record that stand are no more than are charged at the last of them. -/
theorem length_le_charged {id : Bytes} {ks : List Nat} {k : Nat} (undone : List (Bytes × Nat × Nat))
    (hnodup : ks.Nodup) (hstands : ∀ k ∈ ks, Stands log undone (id, k))
    (hsince : ∀ k ∈ ks, (account id log).since < k) (hstill : ∀ k ∈ ks, ∀ p, (id, k, p) ∉ undone)
    (hk : k ≤ log.length) (hmax : ∀ i ∈ ks, i ≤ k) :
    ks.length ≤ (account id (log.take k)).charged.length := by
  have hsub : ks ⊆ (account id (log.take k)).charged := by
    intro i hi
    refine hstands i hi k (hmax i hi) hk ?_ fun p hp => absurd hp (hstill i hi p)
    exact lt_of_le_of_lt (since_take_le id log k) (hsince i hi)
  exact (hnodup.subperm hsub).length_le

end Standing

section Attempts

theorem toInt_add_one {n : Int64} (hn : 0 ≤ n.toInt) (hmax : n.toInt < 2 ^ 63 - 1) :
    (n + 1).toInt = n.toInt + 1 := by
  have hone : (1 : Int64).toInt = 1 := rfl
  rw [Int64.toInt_add, hone, Int.bmod_eq_of_le (by omega) (by omega)]

theorem toInt_refundAttempt {n : Int64} (hn : 0 ≤ n.toInt) :
    (0 < n.toInt ∧ (refundAttempt n).toInt = n.toInt - 1) ∨
      (n.toInt = 0 ∧ refundAttempt n = n) := by
  have hlt := n.toInt_lt
  have hone : (1 : Int64).toInt = 1 := rfl
  have hzero : (0 : Int64).toInt = 0 := rfl
  unfold refundAttempt
  split
  · next hpos =>
    left
    rw [gt_iff_lt, Int64.lt_iff_toInt_lt, hzero] at hpos
    rw [Int64.toInt_sub, hone, Int.bmod_eq_of_le (by omega) (by omega)]
    exact ⟨hpos, rfl⟩
  · next hpos =>
    right
    rw [gt_iff_lt, Int64.lt_iff_toInt_lt, hzero] at hpos
    exact ⟨by omega, rfl⟩

/-- What an entry does to the attempts of a record. -/
def Entry.Pays (id : Bytes) (e : Entry) (before after : Int64) : Prop :=
  match e.toll id with
  | .opens => after = 0 ∨ after = before
  | .charges => after = before + 1
  | .refunds => after = refundAttempt before
  | .free => after = before

variable {q : Queue} {e : Entry} {r : Record}

theorem origin_of_change {id : Bytes} {f : Change} (hf : Keeps f) (hr : r ∈ (q.touch id f).recs) :
    ∃ x ∈ q.recs, x.id = r.id ∧ ((id = r.id ∧ f x = some r) ∨ (id ≠ r.id ∧ x = r)) := by
  obtain ⟨x, hx, ⟨hid, hfx⟩ | ⟨hid, rfl⟩⟩ := mem_touch.mp hr
  · have hsame := (hf x r hfx).1
    exact ⟨x, hx, hsame.symm, .inl ⟨hid.symm.trans hsame.symm, hfx⟩⟩
  · exact ⟨x, hx, rfl, .inr ⟨fun heq => hid heq.symm, rfl⟩⟩

theorem pays_of_mem_apply (hids : ∀ ids, e = .lease ids → ids.Nodup) (hr : r ∈ (q.apply e).recs) :
    e = .append r ∨ ∃ x ∈ q.recs, x.id = r.id ∧ e.Pays r.id x.attempts r.attempts := by
  -- the entries about one record
  have hone : ∀ {id : Bytes} {f : Change}, e.changes = [(id, f)] →
      (∀ x, e ≠ .append x) → (id ≠ r.id → e.toll r.id = .free) →
      (∀ x, id = r.id → f x = some r → e.Pays r.id x.attempts r.attempts) →
      ∃ x ∈ q.recs, x.id = r.id ∧ e.Pays r.id x.attempts r.attempts := by
    intro id f hchanges happend hfree hpays
    rw [apply_of_not_append q happend, hchanges] at hr
    have hf : Keeps f := keeps_changes (c := (id, f)) (by rw [hchanges]; exact mem_cons_self)
    obtain ⟨x, hx, hid, ⟨hnamed, hfx⟩ | ⟨hother, rfl⟩⟩ := origin_of_change hf hr
    · exact ⟨x, hx, hid, hpays x hnamed hfx⟩
    · refine ⟨x, hx, rfl, ?_⟩
      unfold Entry.Pays
      rw [hfree hother]
  cases e with
  | append x =>
    have hsame : (Entry.append x).Pays r.id r.attempts r.attempts := by
      unfold Entry.Pays
      by_cases hid : x.id = r.id
      · simp [Entry.toll, hid]
      · simp [Entry.toll, hid]
    change r ∈ (q.push x).recs at hr
    unfold push at hr
    split at hr
    · exact .inr ⟨r, hr, rfl, hsame⟩
    · rcases mem_append.mp hr with hr | hr
      · exact .inr ⟨r, hr, rfl, hsame⟩
      · rw [mem_singleton.mp hr]
        exact .inl rfl
  | lease ids =>
    right
    have happly : q.apply (.lease ids) =
        ⟨q.recs.map fun r => if r.id ∈ ids then r.lease else r, q.seq⟩ :=
      touchAll_map (g := Record.lease) (fun _ => rfl) (.inl (hids ids rfl)) q
    rw [happly] at hr
    obtain ⟨x, hx, rfl⟩ := mem_map.mp hr
    refine ⟨x, hx, by split <;> rfl, ?_⟩
    unfold Entry.Pays
    by_cases hid : x.id ∈ ids
    · have hlease : x.lease.id ∈ ids := hid
      simp only [Entry.toll, if_pos hid, if_pos hlease]
      rfl
    · simp only [Entry.toll, if_neg hid]
  | checkpoint | park =>
    refine .inr (hone rfl (by rintro _ ⟨⟩) (fun _ => rfl) ?_)
    intro x _ hfx
    cases hfx
    rfl
  | ack id => exact .inr (hone rfl (by rintro _ ⟨⟩) (fun _ => rfl) (by rintro _ _ ⟨⟩))
  | nack id stamp next errText blockedOn refund =>
    refine .inr (hone rfl (by rintro _ ⟨⟩) ?_ ?_)
    · exact fun hid => if_neg fun h => hid h.1
    · intro x hid hfx
      cases hfx
      unfold Entry.Pays
      cases refund <;> simp [Entry.toll, hid, Record.nack]
  | release id =>
    refine .inr (hone rfl (by rintro _ ⟨⟩) (fun hid => if_neg hid) ?_)
    intro x hid hfx
    cases hfx
    unfold Entry.Pays
    simp [Entry.toll, hid, Record.release]
  | requeue id replace cp =>
    refine .inr (hone rfl (by rintro _ ⟨⟩) (fun hid => if_neg hid) ?_)
    intro x hid hfx
    unfold Entry.Pays
    simp only [Entry.toll, if_pos hid]
    simp only [requeueChange] at hfx
    split at hfx
    · cases hfx
      left
      cases replace <;> rfl
    · cases hfx
      exact .inr rfl
  | discard id =>
    refine .inr (hone rfl (by rintro _ ⟨⟩) (fun _ => rfl) ?_)
    intro x _ hfx
    obtain ⟨-, rfl⟩ := of_guard_not hfx
    rfl

/-- The attempts of a record that was new with none are at least the leases charged to it,
and at most the entries of the log. -/
theorem charged_le_attempts {id : Bytes} {log : List Entry}
    (hids : ∀ ids, .lease ids ∈ log → ids.Nodup)
    (hnew : ∀ r, .append r ∈ log → r.id = id → r.attempts = 0) (hlen : log.length < 2 ^ 63)
    (hr : r ∈ (empty.replay log).recs) (hid : r.id = id) :
    ((account id log).charged.length : Int) ≤ r.attempts.toInt ∧
      r.attempts.toInt ≤ log.length := by
  induction log using List.reverseRecOn generalizing r with
  | nil => cases hr
  | append_singleton log e ih =>
    have hlast : e ∈ log ++ [e] := mem_append_right _ mem_cons_self
    have hlen' : log.length + 1 < 2 ^ 63 := by simpa using hlen
    have hold : ∀ {x : Record}, x ∈ (empty.replay log).recs → x.id = id →
        ((account id log).charged.length : Int) ≤ x.attempts.toInt ∧
          x.attempts.toInt ≤ log.length :=
      fun hx hxid => ih (fun ids h => hids ids (mem_append_left _ h))
        (fun x h => hnew x (mem_append_left _ h)) (by omega) hx hxid
    rw [replay_append] at hr
    rw [account_concat, length_append]
    subst hid
    rcases pays_of_mem_apply (fun ids he => hids ids (he ▸ hlast)) hr with
      rfl | ⟨x, hx, hxid, hpays⟩
    · have hzero : r.attempts = 0 := hnew r hlast rfl
      have hopens : (account r.id log).next r.id (.append r) =
          ⟨(account r.id log).lsn + 1, (account r.id log).lsn + 1, []⟩ := by
        unfold Account.next
        simp [Entry.toll]
      rw [hzero, hopens]
      exact ⟨Int.le_refl 0, Int.natCast_nonneg _⟩
    · obtain ⟨hle, hge⟩ := hold hx hxid
      have hnonneg : 0 ≤ x.attempts.toInt := le_trans (Int.natCast_nonneg _) hle
      unfold Entry.Pays at hpays
      unfold Account.next
      cases htoll : e.toll r.id with
      | opens =>
        rw [htoll] at hpays
        have hzero : (0 : Int64).toInt = 0 := rfl
        rcases hpays with hpays | hpays
        · rw [hpays, hzero]
          exact ⟨Int.le_refl 0, Int.natCast_nonneg _⟩
        · rw [hpays]
          exact ⟨hnonneg, by omega⟩
      | charges =>
        rw [htoll] at hpays
        rw [hpays, toInt_add_one hnonneg (by omega)]
        simp only [length_append, length_cons, length_nil]
        omega
      | refunds =>
        rw [htoll] at hpays
        rw [hpays]
        simp only [length_dropLast]
        rcases toInt_refundAttempt hnonneg with ⟨hpos, hless⟩ | ⟨hzero, hsame⟩
        · rw [hless]
          omega
        · rw [hsame]
          omega
      | free =>
        rw [htoll] at hpays
        rw [hpays]
        exact ⟨hle, by omega⟩

end Attempts

end Dlq
end GoGuard
