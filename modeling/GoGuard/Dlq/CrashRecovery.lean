import GoGuard.Dlq.WalReopen

/-!
# Recovery restores a prefix of the history

What a machine holds is a queue: the records with their payloads, in order, the
lines of the keys, the last Seq and the bytes (`Holds`).  A store that is opened
again holds the queue that the store held when the last entry before the cut was
logged, as a restart leaves it, and every entry whose call had returned is before
the cut.

A torn tail costs the torn entry alone, unless the torn bytes hold what looks like
a later frame; a record's payload can.  A compaction changes nothing about what is
recovered, wherever it is interrupted.
-/

namespace GoGuard
namespace Dlq

open Lib Machine Queue List

section Holding

/-- The machine holds exactly this queue, with the payloads in this directory. -/
structure Holds (sg : Option Signer) (d : Dir) (m : Machine) (q : Queue) : Prop where
  recs : m.liveItems.mapM (hydrate sg d) = some q.recs
  order : m.order = q.recs.map fun r => ⟨r.id, r.seq⟩
  lines : ∀ k, m.keyLine k =
    (q.recs.filter fun r => k ≠ [] ∧ r.orderKey = k).map fun r => ⟨r.id, r.seq⟩
  seq : m.seq = q.seq
  bytes : m.bytes = (q.recs.map fun r => (r.size : Int)).sum

variable {sg : Option Signer} {offload : Bool} {d : Dir} {m : Machine} {q : Queue}

theorem Shows.lines {R : Item → Record → Prop} (h : Indexed m) (hs : Shows R m q) (k : Bytes) :
    m.keyLine k =
      (q.recs.filter fun r => k ≠ [] ∧ r.orderKey = k).map fun r => ⟨r.id, r.seq⟩ := by
  have horder := hs.map_ptr h
  refine (h.key_asc k).ext ?_ ?_
  · have hasc := h.asc
    rw [← horder] at hasc
    exact hasc.sublist (filter_sublist.map _)
  · intro p
    rw [h.key_mem]
    simp only [mem_map, mem_filter, decide_eq_true_eq]
    constructor
    · rintro ⟨hk, it, hit, rfl, hkey⟩
      obtain ⟨r, hr, hread⟩ := hs.record h hit
      obtain ⟨hid, hseq, hrkey, -⟩ := hs.sight.same hread
      refine ⟨r, ⟨hr, hk, hrkey.trans hkey⟩, ?_⟩
      rw [hid, hseq]
      rfl
    · rintro ⟨r, ⟨hr, hk, hkey⟩, rfl⟩
      obtain ⟨it, hit, hread⟩ := hs.item h hr
      obtain ⟨hid, hseq, hrkey, -⟩ := hs.sight.same hread
      refine ⟨hk, it, hit, ?_, hrkey.symm.trans hkey⟩
      unfold Item.ptr
      rw [hid, hseq]

theorem holds_of_shows (h : Indexed m) (hs : Shows (Sees sg offload d) m q) :
    Holds sg d m q where
  recs := mapM_of_forall₂ (hs.recs.imp fun _ _ hr => hr.read)
  order := (hs.map_ptr h).symm
  lines := hs.lines h
  seq := hs.seq
  bytes := (hs.transfer sight_whole fun _ _ hr => hr.whole).bytes_eq

theorem held_reborn (h : Indexed m) (hs : Shows (Sees sg offload d) m q.reborn)
    (id token : Bytes) (it : Item) : m.held id token ≠ .ok it := by
  intro hheld
  obtain ⟨hit, hstate, -⟩ := held_token hheld
  obtain ⟨r, hr, hread⟩ := hs.record h (h.get_ptr hit)
  obtain ⟨x, -, rfl⟩ := mem_map.mp hr
  obtain ⟨-, -, -, hsame⟩ := hs.sight.same hread
  rw [hstate] at hsame
  cases hx : x.state <;> simp [Record.reborn, Record.stored, Record.settle, hx] at hsame

/-- The live machine holds the queue of its log, up to what a restart changes. -/
theorem WalOk.holds
    {o : WalOptions} {sgs : Signing} {w : Wal} {closed : List (List Entry)} {active : List Entry}
    (h : WalOk o sgs w closed active) :
    ∃ q, Holds o.signer w.dir w.core.m q ∧ q.reborn = (empty.replay w.log).reborn := by
  obtain ⟨q, hshows, hreborn⟩ := h.shown
  have hsees : Shows (Sees o.signer o.offload w.dir) w.core.m q :=
    hshows.transfer (sight_sees _ _ _) fun _ _ hr => hr.1
  exact ⟨q, holds_of_shows h.core.indexed hsees, hreborn⟩

end Holding

section Histories

variable {o : WalOptions} {sgs : Signing} {w w' : Wal} {a : WalAct}

/-- What a step does to the log: it logs at most one entry, or the store is opened
again with a part of it. -/
theorem Wal.step_log (hstep : w.step o a = some w') :
    (∃ es, w'.log = w.log ++ es ∧ es.length ≤ 1 ∧
        (w.durable ≤ w'.durable ∨ w.log.length ≤ w'.durable)) ∨
      ∃ c x, c.possible w = true ∧ recover o (w.left o c) = .ok x ∧
        w' = .opened x (w.log.take (x.nextLSN - 1)) w.acked := by
  have hsame : w'.log = w.log → w.durable ≤ w'.durable ∨ w.log.length ≤ w'.durable →
      ∃ es, w'.log = w.log ++ es ∧ es.length ≤ 1 ∧
        (w.durable ≤ w'.durable ∨ w.log.length ≤ w'.durable) :=
    fun hlog hdur => ⟨[], by rw [hlog, append_nil], Nat.zero_le _, hdur⟩
  have hrotated := Wal.rotated (o := o) (P := fun v => v.log = w.log ∧
    (w.durable ≤ v.durable ∨ w.log.length ≤ v.durable)) ⟨rfl, .inr le_rfl⟩ ⟨rfl, .inl le_rfl⟩
  cases Wal.turn_of_step hstep with
  | @logged _ _ e => exact .inl ⟨[e], rfl, le_refl _, (hrotated.2 e).2⟩
  | captured => exact .inl (hsame hrotated.1.1 hrotated.1.2)
  | @copied c =>
    left
    obtain ⟨comp, hcopy⟩ := w.copy_eq o c
    rw [hcopy] at hsame ⊢
    exact hsame rfl (.inl le_rfl)
  | synced => exact .inl (hsame rfl (.inl (le_max_left _ _)))
  | reopened hposs hrecover => exact .inr ⟨_, _, hposs, hrecover, rfl⟩
  | _ => exact .inl (hsame rfl (.inl (le_refl _)))

variable {acts : List WalAct} {closed : List (List Entry)} {active : List Entry}

/-- Every part of the log was once the whole log. -/
theorem log_part_was_whole (hrun : run (Wal.step o) (.new o) acts = some w) {n : Nat}
    (hn : n ≤ w.log.length) :
    ∃ acts₁ w₁, acts₁ <+: acts ∧ run (Wal.step o) (.new o) acts₁ = some w₁ ∧
      w₁.log = w.log.take n := by
  induction acts using List.reverseRecOn generalizing w n with
  | nil =>
    cases hrun
    refine ⟨[], _, prefix_refl _, rfl, ?_⟩
    rw [take_of_length_le]
    exact Nat.zero_le _
  | append_singleton acts a ih =>
    obtain ⟨u, hu, hlast⟩ := (run_append_eq_some _).mp hrun
    obtain ⟨v, hstep, hv⟩ := (run_cons_eq_some _).mp hlast
    cases hv
    -- a shorter log than the last one was there before the last step
    have hbefore : ∀ k, k ≤ u.log.length → w.log.take n = u.log.take k →
        ∃ acts₁ w₁, acts₁ <+: acts ++ [a] ∧ run (Wal.step o) (.new o) acts₁ = some w₁ ∧
          w₁.log = w.log.take n := by
      intro k hk heq
      obtain ⟨acts₁, w₁, hpre, hrun₁, hlog⟩ := ih hu hk
      exact ⟨acts₁, w₁, hpre.trans (prefix_append _ _), hrun₁, hlog.trans heq.symm⟩
    rcases Wal.step_log hstep with ⟨es, hlog, hes, -⟩ | ⟨c, x, -, -, rfl⟩
    · by_cases hnu : n ≤ u.log.length
      · refine hbefore n hnu ?_
        rw [hlog, take_append_of_le_length hnu]
      · refine ⟨acts ++ [a], w, prefix_refl _, hrun, ?_⟩
        rw [take_of_length_le]
        rw [hlog, length_append]
        omega
    · refine hbefore (min n (x.nextLSN - 1)) ?_ ?_
      · change n ≤ (u.log.take (x.nextLSN - 1)).length at hn
        rw [length_take] at hn
        omega
      · change (u.log.take (x.nextLSN - 1)).take n = _
        rw [take_take]

section

variable (h : WalOk o sgs w closed active)
include h

theorem WalOk.durable_le : w.durable ≤ w.log.length := by
  obtain ⟨j, hj, hdur, -⟩ := h.synced
  have hlen := h.length_log
  omega

theorem WalOk.kept_le {c : Crash} {x : Opened}
    (hposs : c.possible w = true) (hrecover : recover o (w.left o c) = .ok x) :
    w.durable ≤ x.nextLSN - 1 ∧ x.nextLSN - 1 ≤ w.log.length := by
  obtain ⟨hnext, hwhole, -⟩ := h.reopen hposs hrecover
  rw [hnext, Nat.add_sub_cancel]
  exact ⟨hwhole, h.whole_le_log c.cut⟩

theorem WalOk.durable_mono (hstep : w.step o a = some w') : w.durable ≤ w'.durable := by
  have hle := h.durable_le
  rcases Wal.step_log hstep with ⟨es, -, -, hgrow⟩ | ⟨c, x, hposs, hrecover, rfl⟩
  · omega
  · obtain ⟨hdur, hkept⟩ := h.kept_le hposs hrecover
    change w.durable ≤ (w.log.take (x.nextLSN - 1)).length
    rw [length_take]
    omega

/-- What is durable stays in the log. -/
theorem durable_kept
    (hsound : RunAll (Wal.step o) (Wal.Sound o) w acts) (hrun : run (Wal.step o) w acts = some w') :
    w.log.take w.durable <+: w'.log ∧ ∃ closed' active', WalOk o sgs w' closed' active' := by
  have hinv := run_invariant_of (Wal.step o)
    (I := fun u => (w.log.take w.durable <+: u.log ∧ w.durable ≤ u.durable) ∧
      ∃ closed active, WalOk o sgs u closed active) ?_ hsound
    ⟨⟨List.take_prefix _ _, le_refl _⟩, closed, active, h⟩ hrun
  · exact ⟨hinv.1.1, hinv.2⟩
  · rintro u a v hok ⟨⟨hpre, hdur⟩, closed, active, hu⟩ hstep
    refine ⟨⟨?_, hdur.trans (hu.durable_mono hstep)⟩, hu.step hok hstep⟩
    rcases Wal.step_log hstep with ⟨es, hlog, -, -⟩ | ⟨c, x, hposs, hrecover, rfl⟩
    · rw [hlog]
      exact hpre.trans (prefix_append _ _)
    · obtain ⟨hkept, hle⟩ := hu.kept_le hposs hrecover
      refine prefix_of_prefix_length_le hpre (List.take_prefix _ _) ?_
      change _ ≤ (u.log.take (x.nextLSN - 1)).length
      rw [length_take, length_take]
      omega

end

end Histories

section Recovered

variable {o : WalOptions} {sgs : Signing} {w : Wal} {closed : List (List Entry)}
variable {active : List Entry} {c : Crash} {x : Opened}

/-- What is recovered behind a crash is the queue of the entries before the cut. -/
theorem WalOk.recovered (h : WalOk o sgs w closed active) (hfits : c.fits w = true)
    (hrecover : recover o (w.left o c) = .ok x) :
    Indexed x.m ∧
      Shows (Sees o.signer o.offload x.dir) x.m
        (empty.replay (w.log.take (w.whole o c.cut))).reborn ∧
        x.dir.aside = w.aside ++ quarantine (w.dropped o c) := by
  obtain ⟨snap', closed', m, hload, hfound, hlayout, rfl⟩ := h.recover_left_ok hfits hrecover
  obtain ⟨m', hload', -, hindexed, hshows⟩ :=
    hlayout.opened (hfound.reads h) (w.aside ++ quarantine (w.dropped o c))
  obtain rfl : m' = m := Except.ok.inj (hload'.symm.trans hload)
  exact ⟨hindexed, hshows, rfl⟩

theorem WalOk.recover_dir (h : WalOk o sgs w closed active) :
    ∃ x, recover o w.dir = .ok x ∧ Indexed x.m ∧
      Shows (Sees o.signer o.offload x.dir) x.m (empty.replay w.log).reborn ∧
        x.dir.aside = w.aside := by
  have hsize := h.activeSize_eq
  have hstart := h.activeStart_eq
  have hfits : (⟨w.activeSize, none, false, [], false⟩ : Crash).fits w = true := by
    unfold Crash.fits
    rw [hsize, length_segData]
    simp
  have hrenamed : w.renamed ⟨w.activeSize, none, false, [], false⟩ = none := by
    unfold Wal.renamed
    split <;> rfl
  have hleft : w.left o ⟨w.activeSize, none, false, [], false⟩ = w.dir := by
    unfold Wal.left Wal.dir
    rw [hrenamed]
    simp only [halfSegment, append_nil]
    rw [h.segs, segFiles_concat, h.own _ (le_refl _), cutLast_concat, hsize, take_length]
  obtain ⟨-, hnone⟩ := h.whole_all (o := o) (le_refl w.activeSize)
  obtain ⟨snap', closed', m, -, -, -, hok, -⟩ := h.recover_left hfits
  have hrecover := hok (by rw [hnone]; rfl)
  obtain ⟨hindexed, hshows, haside⟩ := h.recovered hfits hrecover
  rw [hleft] at hrecover
  refine ⟨_, hrecover, hindexed, ?_, ?_⟩
  · rw [h.take_whole (le_refl w.activeSize)] at hshows
    exact hshows
  · rw [haside]
    change w.aside ++ quarantine (w.torn o w.activeSize) = w.aside
    rw [hnone]
    exact append_nil _

end Recovered

section Prefixes

/-- A store opened behind a crash holds the queue that it held when the last entry
before the cut was logged, as a restart leaves it, and no call that had returned
is behind the cut. -/
theorem recovery_restores_acked_prefix (o : WalOptions) (acts : List WalAct) (w : Wal)
    (hsound : RunAll (Wal.step o) (Wal.Sound o) (.new o) acts)
    (hrun : run (Wal.step o) (.new o) acts = some w) (c : Crash) (hposs : c.possible w = true)
    (x : Opened) (hopen : recover o (w.left o c) = .ok x) :
    ∃ acts₁ w₁ q, acts₁ <+: acts ∧ run (Wal.step o) (.new o) acts₁ = some w₁ ∧
      w₁.log <+: w.log ∧ (∀ n ∈ w.acked, n ≤ w₁.log.length) ∧
        Holds o.signer w₁.dir w₁.core.m q ∧ Holds o.signer x.dir x.m q.reborn ∧
          ∀ id token it, x.m.held id token ≠ .ok it := by
  obtain ⟨closed, active, h⟩ := walOk_run hsound hrun
  obtain ⟨hfits, -⟩ := Crash.fits_of_possible h hposs
  obtain ⟨-, hdurable, -⟩ := h.reopen hposs hopen
  obtain ⟨hindexed, hshows, -⟩ := h.recovered hfits hopen
  have hle := h.whole_le_log (o := o) c.cut
  obtain ⟨acts₁, w₁, hpre, hrun₁, hlog⟩ := log_part_was_whole hrun hle
  obtain ⟨closed₁, active₁, h₁⟩ := walOk_run (RunAll.initial _ hsound hpre) hrun₁
  obtain ⟨q, hholds, hreborn⟩ := h₁.holds
  rw [hlog] at hreborn
  rw [← hreborn] at hshows
  refine ⟨acts₁, w₁, q, hpre, hrun₁, ?_, ?_, hholds, holds_of_shows hindexed hshows,
    held_reborn hindexed hshows⟩
  · rw [hlog]
    exact take_prefix _ _
  · intro n hn
    rw [hlog, length_take, min_eq_left hle]
    exact le_trans (h.acked n hn) hdurable

/-- Default options. -/
def plainOptions : WalOptions :=
  ⟨⟨0, 0, 0⟩, false, 64 * 2 ^ 20, false, false, none, false⟩

/-- A record with a value. -/
def plainRecord (id : String) (value : Bytes) : Record :=
  { demoRecord id 0 "k" "db" 1 with value := some value, firstFailed := 1, lastFailed := 1 }

/-- One record is appended and synced, a second one is not. -/
def oneSynced : List WalAct :=
  [.core (.call (.append (plainRecord "a" (str "v"))) 5), .syncStart, .syncDone, .finish 1,
    .core (.call (.append (plainRecord "b" (str "w"))) 6)]

/-- The crash cuts the second entry. -/
def cutSecond : Crash := ⟨100, none, false, [], false⟩

theorem oneSynced_sound : RunAll (Wal.step plainOptions) (Wal.Sound plainOptions)
    (.new plainOptions) oneSynced := by
  decide +kernel

theorem recovery_restores_acked_prefix_demo :
    ∃ w x, run (Wal.step plainOptions) (.new plainOptions) oneSynced = some w ∧
      recover plainOptions (w.left plainOptions cutSecond) = .ok x ∧ w.acked = [1] ∧
        x.m.liveItems.length = 1 ∧
          ∃ acts₁ w₁ q, acts₁ <+: oneSynced ∧
            run (Wal.step plainOptions) (.new plainOptions) acts₁ = some w₁ ∧
              Holds none w₁.dir w₁.core.m q ∧ Holds none x.dir x.m q.reborn := by
  obtain ⟨w, hw, hacked, hposs, x, hx, hlive⟩ : ∃ w, run (Wal.step plainOptions)
      (.new plainOptions) oneSynced = some w ∧ w.acked = [1] ∧ cutSecond.possible w = true ∧
        ∃ x, recover plainOptions (w.left plainOptions cutSecond) = .ok x ∧
          x.m.liveItems.length = 1 := by
    decide +kernel
  obtain ⟨acts₁, w₁, q, hpre, hrun₁, -, -, hholds, hx', -⟩ :=
    recovery_restores_acked_prefix plainOptions oneSynced w oneSynced_sound hw cutSecond hposs x hx
  exact ⟨w, x, hw, hx, hacked, hlive, acts₁, w₁, q, hpre, hrun₁, hholds, hx'⟩

/-- A record that failed at the instant of the epoch. -/
def epochRecord : Record :=
  demoRecord "a" 0 "k" "db" 1

/-- The record is appended and the store opened again: what is recovered is not what
the store held at any time, with leases ended or not. -/
theorem epoch_is_not_restored :
    ∃ w x, run (Wal.step plainOptions) (.new plainOptions)
        [.core (.call (.append epochRecord) 5)] = some w ∧
      recover plainOptions w.dir = .ok x ∧ x.m.liveItems.map (·.record.firstFailed) = [1] ∧
        ∀ acts₁, acts₁ <+: [.core (.call (.append epochRecord) 5)] →
          ∀ w₁, run (Wal.step plainOptions) (.new plainOptions) acts₁ = some w₁ →
            x.m.liveItems.map (·.record.firstFailed) ≠
              w₁.core.m.liveItems.map (·.record.firstFailed) := by
  obtain ⟨w, hw, hlive, x, hopen, hx⟩ : ∃ w, run (Wal.step plainOptions) (.new plainOptions)
      [.core (.call (.append epochRecord) 5)] = some w ∧
        w.core.m.liveItems.map (·.record.firstFailed) = [0] ∧
          ∃ x, recover plainOptions w.dir = .ok x ∧
            x.m.liveItems.map (·.record.firstFailed) = [1] := by
    decide +kernel
  refine ⟨w, x, hw, hopen, hx, ?_⟩
  intro acts₁ hpre w₁ hrun₁
  rw [hx]
  rcases prefix_cons_iff.mp hpre with rfl | ⟨l, rfl, hl⟩
  · cases hrun₁
    decide
  · obtain rfl := prefix_nil.mp hl
    rw [hw] at hrun₁
    cases hrun₁
    rw [hlive]
    decide

end Prefixes

section TornTails

/-- The directory of a store whose last segment is cut. -/
def Wal.cutAt (w : Wal) (cut : Nat) : Dir :=
  ⟨cutLast cut w.segs, w.snap.toList, w.aside⟩

theorem left_cutAt (o : WalOptions) (w : Wal) (cut : Nat) :
    w.left o ⟨cut, none, false, [], false⟩ = w.cutAt cut := by
  have hrenamed : w.renamed ⟨cut, none, false, [], false⟩ = none := by
    unfold Wal.renamed
    split <;> rfl
  unfold Wal.left Wal.cutAt
  rw [hrenamed]
  simp only [halfSegment, append_nil]

/-- A cut of the last segment costs the torn entry alone, if no valid frame lies in
what is left of it: the store opens with the entries before the cut, the torn bytes
are set aside, and whatever the store does then is there when it is opened again. -/
theorem torn_tail_recovers (o : WalOptions) (hdefault : o.failOnTruncation = false)
    (acts : List WalAct) (w : Wal) (hsound : RunAll (Wal.step o) (Wal.Sound o) (.new o) acts)
    (hrun : run (Wal.step o) (.new o) acts = some w) (cut : Nat) (hcut : headerSize ≤ cut)
    (hquiet : validFrameAfter (w.whole o cut + 1) (w.torn o cut) = false) :
    ∃ x, recover o (w.cutAt cut) = .ok x ∧
      Holds o.signer x.dir x.m (empty.replay (w.log.take (w.whole o cut))).reborn ∧
        x.dir.aside = w.aside ++ quarantine (w.torn o cut) ∧
          ∀ acts' w',
            RunAll (Wal.step o) (Wal.Sound o) (.opened x (w.log.take (w.whole o cut)) []) acts' →
            run (Wal.step o) (.opened x (w.log.take (w.whole o cut)) []) acts' = some w' →
              w.log.take (w.whole o cut) <+: w'.log ∧
                ∃ q y, Holds o.signer w'.dir w'.core.m q ∧ recover o w'.dir = .ok y ∧
                  Holds o.signer y.dir y.m q.reborn := by
  obtain ⟨closed, active, h⟩ := walOk_run hsound hrun
  have hfits : (⟨cut, none, false, [], false⟩ : Crash).fits w = true := by
    unfold Crash.fits
    simpa using hcut
  have hallowed : tailAllowed o (w.whole o cut + 1) (w.torn o cut) = true := by
    unfold tailAllowed
    rw [hdefault, hquiet]
    simp
  obtain ⟨snap', closed', m, -, -, -, hok, -⟩ := h.recover_left hfits
  have hopen := hok hallowed
  obtain ⟨hindexed, hshows, haside⟩ := h.recovered hfits hopen
  obtain ⟨-, closed₁, h₁⟩ := h.opened hfits hopen fun n (hn : n ∈ []) => nomatch hn
  rw [left_cutAt] at hopen
  refine ⟨_, hopen, holds_of_shows hindexed hshows, haside, ?_⟩
  intro acts' w' hsound' hrun'
  obtain ⟨hpre, closed₂, active₂, h₂⟩ := durable_kept h₁ hsound' hrun'
  refine ⟨?_, ?_⟩
  · simp only [Wal.opened, take_length] at hpre
    exact hpre
  · obtain ⟨q, hholds, hreborn⟩ := h₂.holds
    obtain ⟨y, hy, hyindexed, hyshows, -⟩ := h₂.recover_dir
    rw [← hreborn] at hyshows
    exact ⟨q, y, hholds, hy, holds_of_shows hyindexed hyshows⟩

/-- Two records, and a third one that is appended behind the repair. -/
theorem torn_tail_recovers_demo :
    ∃ w x, run (Wal.step plainOptions) (.new plainOptions) oneSynced = some w ∧
      recover plainOptions (w.cutAt 100) = .ok x ∧ x.m.liveItems.length = 1 ∧
        x.dir.aside ≠ [] ∧
          Holds none x.dir x.m (empty.replay (w.log.take (w.whole plainOptions 100))).reborn ∧
            x.dir.aside = w.aside ++ quarantine (w.torn plainOptions 100) := by
  obtain ⟨w, hw, hquiet, x, hx, hlive, hkept⟩ : ∃ w, run (Wal.step plainOptions)
      (.new plainOptions) oneSynced = some w ∧
        validFrameAfter (w.whole plainOptions 100 + 1) (w.torn plainOptions 100) = false ∧
          ∃ x, recover plainOptions (w.cutAt 100) = .ok x ∧ x.m.liveItems.length = 1 ∧
            x.dir.aside ≠ [] := by
    decide +kernel
  obtain ⟨x', hx', hholds, haside, -⟩ :=
    torn_tail_recovers plainOptions rfl oneSynced w oneSynced_sound hw 100 (by decide) hquiet
  obtain rfl := Except.ok.inj (hx.symm.trans hx')
  exact ⟨w, x, hw, hx, hlive, hkept, hholds, haside⟩

/-- A record whose value is the frame of an entry. -/
def frameRecord : Record :=
  plainRecord "a" (appendFrame 7 entAck (str "a"))

/-- The last byte of the only segment is cut off: recovery finds the frame in the
value of the torn record and refuses the log. -/
theorem torn_payload_blocks_recovery :
    ∃ w, run (Wal.step plainOptions) (.new plainOptions)
        [.core (.call (.append frameRecord) 5)] = some w ∧
      w.activeSize = 96 ∧ ∃ e, recover plainOptions (w.cutAt 95) = .error e := by
  decide +kernel

end TornTails

section Compacting

/-- The directory of a log of which nothing was ever compacted, in any segments and
torn in the same way. -/
def plainDir (o : WalOptions) (closed : List (List Entry)) (es : List Entry) (torn : Bytes) : Dir :=
  ⟨tornFiles o.signing 1 closed es torn, [], []⟩

theorem recover_plainDir
    {o : WalOptions} {log : List Entry} {closed : List (List Entry)} {es : List Entry}
    {torn : Bytes} {err : FrameError} (h : (⟨none, closed ++ [es]⟩ : Layout).Ok o.signing log)
    (htorn : readFrame torn = .error err) :
    (tailAllowed o (log.length + 1) torn = true →
      ∃ y, recover o (plainDir o closed es torn) = .ok y ∧ Indexed y.m ∧
        Shows (Sees o.signer o.offload y.dir) y.m (empty.replay log).reborn) ∧
      (tailAllowed o (log.length + 1) torn = false →
        ∃ e, recover o (plainDir o closed es torn) = .error e) := by
  have hids : (tornFiles o.signing 1 closed es torn).map File.id =
      (segFiles o.signing 1 (closed ++ [es])).map File.id := by
    rw [segFiles_append, tornFiles, map_append, map_append]
    rfl
  have hsegs : dropCovered (0 + 1) (sorted (plainDir o closed es torn).segs) =
      tornFiles o.signing (0 + 1) closed es torn :=
    dropCovered_left [] hids h.filled (by simp) .nil (by rintro g ⟨⟩)
  have hlen : 0 + 1 + (closed ++ [es]).flatten.length = log.length + 1 := by
    have hflat : (closed ++ [es]).flatten = log := h.flatten
    rw [hflat]
    omega
  obtain ⟨m, hload, -, hindexed, hshows⟩ := h.opened (fun _ _ => o.reads_own) ([] ++ quarantine torn)
  have hrecover : recover o (plainDir o closed es torn) =
      recoverFrom o m 0 (plainDir o closed es torn) [] :=
    recover_eq rfl hload
  obtain ⟨hok, herr⟩ := recoverFrom_torn (m := m) (d := plainDir o closed es torn)
    (fun _ _ => o.reads_own) rfl hsegs h.parts_readable (hlen ▸ h.lsn_lt) htorn
  rw [hlen] at hok herr
  rw [hrecover]
  exact ⟨fun hallowed => ⟨_, hok hallowed, hindexed, hshows⟩, herr⟩

/-- Wherever a compaction is interrupted, what is recovered of the files that are
left is what is recovered of the log without any compaction. -/
theorem compaction_keeps_recovery (o : WalOptions) (acts : List WalAct) (w : Wal)
    (hsound : RunAll (Wal.step o) (Wal.Sound o) (.new o) acts)
    (hrun : run (Wal.step o) (.new o) acts = some w) (c : Crash) (hfits : c.fits w = true)
    (closed : List (List Entry)) (es : List Entry) (hclosed : ∀ part ∈ closed, part ≠ [])
    (hlog : (closed ++ [es]).flatten = w.log.take (w.whole o c.cut)) :
    (∃ q x y, recover o (w.left o c) = .ok x ∧ Holds o.signer x.dir x.m q ∧
        recover o (plainDir o closed es (w.torn o c.cut)) = .ok y ∧
          Holds o.signer y.dir y.m q) ∨
      w.torn o c.cut ≠ [] ∧ (∃ e, recover o (w.left o c) = .error e) ∧
        ∃ e, recover o (plainDir o closed es (w.torn o c.cut)) = .error e := by
  obtain ⟨closed₀, active, h⟩ := walOk_run hsound hrun
  have hcut : headerSize ≤ c.cut := by
    unfold Crash.fits at hfits
    rw [Bool.and_eq_true, decide_eq_true_eq] at hfits
    exact hfits.1
  obtain ⟨-, err, htorn⟩ := h.take_cut hcut
  obtain ⟨snap', closed', m, hload, -, hlayout, hok, herr⟩ := h.recover_left hfits
  have hparts : PartsReadable o.signing 1 (closed ++ [es]) := by
    refine partsReadable_of_all ?_
    rw [hlog]
    exact allReadable_of_log hlayout.readable
  have hplain : (⟨none, closed ++ [es]⟩ : Layout).Ok o.signing (w.log.take (w.whole o c.cut)) :=
    ⟨by simp, filled_concat.mpr hclosed, Nat.zero_le _, hlog, hlayout.readable, hparts,
      hlayout.lsn_lt, hlayout.fair, fun f hf => nomatch hf⟩
  obtain ⟨hpok, hperr⟩ := recover_plainDir hplain htorn
  rw [length_take, min_eq_left (h.whole_le_log c.cut)] at hpok hperr
  cases hallowed : tailAllowed o (w.whole o c.cut + 1) (w.torn o c.cut) with
  | true =>
    left
    have hopen := hok hallowed
    obtain ⟨hindexed, hshows, -⟩ := h.recovered hfits hopen
    obtain ⟨y, hy, hyindexed, hyshows⟩ := hpok hallowed
    exact ⟨_, _, y, hopen, holds_of_shows hindexed hshows, hy, holds_of_shows hyindexed hyshows⟩
  | false =>
    right
    refine ⟨?_, herr hallowed, hperr hallowed⟩
    intro hnone
    rw [hnone] at hallowed
    cases hallowed

/-- A record is appended and leased, and a compaction has renamed its snapshot. -/
def compactedOnce (r : Record) : List WalAct :=
  [.core (.call (.append r) 5), .core (.pick [str "db"] 10 ⟨[], [], 1, 1000⟩),
    .core (.commit 0 11 [.ok]), .core (.grant [str "t"]), .capture, .copy]

/-- The old segment is kept beside the new snapshot. -/
def afterRename : Crash := ⟨headerSize, none, true, [true], false⟩

theorem compaction_keeps_recovery_demo :
    ∃ w q x y, run (Wal.step plainOptions) (.new plainOptions)
        (compactedOnce (plainRecord "a" (str "v"))) = some w ∧
      recover plainOptions (w.left plainOptions afterRename) = .ok x ∧
        (w.left plainOptions afterRename).snaps.length = 1 ∧
          Holds none x.dir x.m q ∧
            recover plainOptions (plainDir plainOptions []
              (w.log.take (w.whole plainOptions afterRename.cut)) []) = .ok y ∧
              Holds none y.dir y.m q := by
  obtain ⟨w, hw, hfits, hnone, hsnaps⟩ : ∃ w, run (Wal.step plainOptions) (.new plainOptions)
      (compactedOnce (plainRecord "a" (str "v"))) = some w ∧ afterRename.fits w = true ∧
        w.torn plainOptions afterRename.cut = [] ∧
          (w.left plainOptions afterRename).snaps.length = 1 := by
    decide +kernel
  have hsound : RunAll (Wal.step plainOptions) (Wal.Sound plainOptions) (.new plainOptions)
      (compactedOnce (plainRecord "a" (str "v"))) := by
    decide +kernel
  rcases compaction_keeps_recovery plainOptions _ w hsound hw afterRename hfits []
    (w.log.take (w.whole plainOptions afterRename.cut)) (fun _ h => nomatch h) (by simp) with
    ⟨q, x, y, hx, hxq, hy, hyq⟩ | ⟨hne, -⟩
  · rw [hnone] at hy
    exact ⟨w, q, x, y, hw, hx, hsnaps, hxq, hy, hyq⟩
  · exact absurd hnone hne

/-- A record that was attempted as often as can be counted. -/
def wornRecord : Record :=
  { plainRecord "a" (str "v") with attempts := 2 ^ 63 - 1 }

/-- The lease makes the count of attempts wrap, and the snapshot cannot be read
back; without the compaction the log can. -/
theorem compaction_of_wrapped_attempts :
    ∃ w, run (Wal.step plainOptions) (.new plainOptions) (compactedOnce wornRecord) = some w ∧
      (∃ e, recover plainOptions (w.left plainOptions afterRename) = .error e) ∧
        ∃ y, recover plainOptions (plainDir plainOptions [] w.log []) = .ok y ∧
          y.m.liveItems.length = 1 := by
  decide +kernel

end Compacting

end Dlq
end GoGuard
