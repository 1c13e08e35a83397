import GoGuard.Dlq.CrashRecovery
import GoGuard.Dlq.Fencing

/-!
# When a record is due, before and after a restart

The live NextAttempt of a record is a Go time, the logged one an `int64` of
nanoseconds.  An instant in that range reads back as it is, but for the instant of
the epoch, which reads back as the nanosecond after it (`storedTime_of_inRange`).
When every appended NextAttempt and every sum of clock and delay of a Nack is in
range, so is every NextAttempt of the store, and a store that is closed and opened
again holds records that are due when they were.

A sum past the year 2262 wraps around: the record waits in the store that wrote it
and is due at once in the store that reads it.
-/

namespace GoGuard
namespace Dlq

open Lib Machine Queue List

section Instants

/-- An instant the log can write: the zero time, or one between 1677 and 2262. -/
def InRange (t : Time) : Prop :=
  t = zeroTime ∨ ((-2 ^ 63 : Int) ≤ t ∧ t < (2 ^ 63 : Int))

instance decidableInRange (t : Time) : Decidable (InRange t) :=
  inferInstanceAs (Decidable (t = zeroTime ∨ ((-2 ^ 63 : Int) ≤ t ∧ t < (2 ^ 63 : Int))))

/-- The same instant, but for the epoch. -/
def SameInstant (live read : Time) : Prop :=
  read = live ∨ (live = 0 ∧ read = 1)

theorem inRange_storedTime (t : Time) : InRange (storedTime t) := by
  have hlo := Int.le_bmod (x := t) (m := 2 ^ 64) (by decide)
  have hhi := Int.bmod_lt (x := t) (m := 2 ^ 64) (by decide)
  unfold storedTime
  split
  · exact .inl rfl
  · split
    · exact .inr ⟨by decide, by decide⟩
    · unfold unixNano
      norm_num at hlo hhi
      exact .inr ⟨by norm_num; omega, by norm_num; omega⟩

theorem sameInstant_storedTime {t : Time} (h : InRange t) : SameInstant t (storedTime t) := by
  by_cases hepoch : t = 0
  · subst hepoch
    exact .inr ⟨rfl, by decide⟩
  · left
    refine KeptTime.stored ?_
    rcases h with hzero | ⟨hlo, hhi⟩
    · exact .inl hzero
    · exact .inr ⟨hlo, hhi, hepoch⟩

theorem SameInstant.passed_iff {live read t : Int} (h : SameInstant live read)
    (ht : live ≠ 0 ∨ t ≠ 0) : live > t ↔ read > t := by
  rcases h with hread | ⟨hlive, hread⟩
  · rw [hread]
  · change live = (0 : Int) at hlive
    change read = (1 : Int) at hread
    omega

end Instants

section Stores

variable {o : WalOptions} {sgs : Signing} {w w' : Wal} {closed : List (List Entry)}
variable {active : List Entry} {m : Machine} {q : Queue} {e : Entry}

/-- Every NextAttempt of the store can be written to its log. -/
def Punctual (m : Machine) : Prop :=
  ∀ id it, m.items.get id = some it → InRange it.record.nextAttempt

/-- The instants a step sets can be written to the log. -/
def WalAct.Timed : WalAct → Prop
  | .core (.call (.append r) _) => InRange r.nextAttempt
  | .core (.call (.nack _ _ o) now) => InRange (now + o.delay)
  | _ => True

instance decidableTimed (a : WalAct) : Decidable a.Timed := by
  unfold WalAct.Timed
  split <;> infer_instance

/-- The instant an entry sets can be written to the log. -/
def Entry.Timed : Entry → Prop
  | .append r => InRange r.nextAttempt
  | .nack _ _ next _ _ _ => InRange next
  | _ => True

theorem Whole.nextAttempt_eq {it : Item} {r : Record} (h : Whole it r) :
    it.record.nextAttempt = r.nextAttempt := by
  rw [h.record]
  rfl

theorem punctual_iff (h : Indexed m) (hs : Shows Whole m q) :
    Punctual m ↔ ∀ r ∈ q.recs, InRange r.nextAttempt := by
  constructor
  · intro hm r hr
    obtain ⟨it, hit, hwhole⟩ := hs.item h hr
    rw [← hwhole.nextAttempt_eq]
    exact hm _ it hit
  · intro hq id it hit
    obtain ⟨r, hr, hwhole⟩ := hs.record h (h.get_ptr hit)
    rw [hwhole.nextAttempt_eq]
    exact hq r hr

/-- A change of an entry keeps the NextAttempt of a record or sets one of the entry's. -/
theorem Entry.Timed.change (h : e.Timed) {c : Bytes × Change} (hc : c ∈ e.changes) {r r' : Record}
    (hr : InRange r.nextAttempt) (hchange : c.2 r = some r') : InRange r'.nextAttempt := by
  cases e with
  | append x => cases hc
  | lease ids =>
    obtain ⟨id, -, rfl⟩ := mem_map.mp hc
    cases hchange
    exact hr
  | nack id stamp next errText blockedOn refund =>
    obtain rfl := mem_singleton.mp hc
    cases hchange
    exact h
  | requeue id replace cp =>
    obtain rfl := mem_singleton.mp hc
    simp only [requeueChange] at hchange
    split at hchange
    · cases hchange
      split <;> exact .inl rfl
    · cases hchange
      exact hr
  | discard id =>
    obtain rfl := mem_singleton.mp hc
    obtain ⟨-, rfl⟩ := of_guard_not hchange
    exact hr
  | ack id =>
    obtain rfl := mem_singleton.mp hc
    cases hchange
  | _ =>
    obtain rfl := mem_singleton.mp hc
    cases hchange
    exact hr

theorem inRange_apply (h : e.Timed) (hq : ∀ r ∈ q.recs, InRange r.nextAttempt) :
    ∀ r ∈ (q.apply e).recs, InRange r.nextAttempt := by
  refine apply_induction (P := fun q => ∀ r ∈ q.recs, InRange r.nextAttempt) hq ?_ ?_
  · rintro x rfl r hr
    unfold push at hr
    split at hr
    · exact hq r hr
    · rcases mem_append.mp hr with hr | hr
      · exact hq r hr
      · obtain rfl := mem_singleton.mp hr
        exact h
  · intro c hc q' hq' r hr
    obtain ⟨x, hx, ⟨-, hchange⟩ | ⟨-, rfl⟩⟩ := mem_touch.mp hr
    · exact h.change hc (hq' x hx) hchange
    · exact hq' x hx

theorem logs_nack {c : Call} {now stamp next : Time} {id errText blockedOn : Bytes} {refund : Bool}
    (hlogs : c.Logs m now (.nack id stamp next errText blockedOn refund)) :
    ∃ token opts, c = .nack id token opts ∧ next = now + opts.delay := by
  cases c with
  | nack id' token opts =>
    obtain ⟨it, -, he⟩ := hlogs
    cases he
    exact ⟨token, opts, rfl, rfl⟩
  | _ =>
    obtain ⟨x, -, he⟩ := hlogs
    cases he

theorem timed_of_step {offload : Bool} {s s' : Core} {a : CoreAct} {refOf : Entry → BlobRef}
    (hact : (WalAct.core a).Timed) (hstep : s.step offload refOf a = some (s', some e)) :
    e.Timed := by
  cases e with
  | append r =>
    obtain ⟨c, now, rfl, hexec⟩ := call_of_entry rfl hstep
    obtain ⟨x, rfl, hprep⟩ := logs_append (exec_logs hexec)
    rw [(prepared_filled hprep).2]
    exact hact
  | nack id stamp next errText blockedOn refund =>
    obtain ⟨c, now, rfl, hexec⟩ := call_of_entry rfl hstep
    obtain ⟨token, opts, rfl, rfl⟩ := logs_nack (exec_logs hexec)
    exact hact
  | _ => trivial

theorem finds_whole (offload : Bool) (ref : BlobRef) (e : Entry) : Finds Whole offload ref e e := by
  cases e with
  | append r => exact ⟨r, rfl, whole_newItem offload r ref⟩
  | checkpoint id cp => exact ⟨cp, rfl, findsCheckpoint_whole offload ref id cp⟩
  | requeue id replace cp =>
    cases replace with
    | false => rfl
    | true => exact ⟨cp, rfl, findsCheckpoint_whole offload ref id cp⟩
  | _ => rfl

theorem WalOk.shows_whole (h : WalOk o sgs w closed active) :
    ∃ q, Shows Whole w.core.m q ∧ q.reborn = (empty.replay w.log).reborn := by
  obtain ⟨q, hshows, hreborn⟩ := h.shown
  exact ⟨q, hshows.transfer sight_whole fun _ _ hr => hr.1.whole, hreborn⟩

theorem Punctual.core {a : CoreAct} {c : Core} {out : Option Entry} (hm : Punctual w.core.m)
    (h : WalOk o sgs w closed active) (hact : (WalAct.core a).Timed)
    (hstep : w.core.step o.offload (w.refOf o) a = some (c, out)) : Punctual c.m := by
  obtain ⟨q, hshows, -⟩ := h.shows_whole
  have hq := (punctual_iff h.core.indexed hshows).mp hm
  obtain ⟨hcore, heff⟩ := core_step h.core hstep
  cases out with
  | none => exact (punctual_iff hcore.indexed (heff Whole q hshows)).mpr hq
  | some e =>
    have hnext := (hshows.logged h.core.indexed heff (finds_whole _ _ e)).2
    exact (punctual_iff hcore.indexed hnext).mpr
      (inRange_apply (timed_of_step hact hstep) hq)

theorem Punctual.repoint (hm : Punctual m) (xs : List (SnapEntry × BlobRef)) :
    Punctual (Dlq.repoint m xs) := by
  induction xs generalizing m with
  | nil => exact hm
  | cons x xs ih =>
    refine ih ?_
    intro id it hit
    change (repointOne m x.1 x.2).items.get id = some it at hit
    unfold repointOne at hit
    split at hit
    · exact hm id it hit
    · next it₀ hit₀ =>
      change (m.items.set it₀.record.id _).get id = some it at hit
      rw [GoMap.get_set] at hit
      split at hit
      · cases hit
        exact hm _ it₀ hit₀
      · exact hm id it hit

theorem punctual_recovered {d : Dir} (h : Indexed m)
    (hs : Shows (Sees o.signer o.offload d) m q.reborn) : Punctual m := by
  have hwhole : Shows Whole m q.reborn := hs.transfer sight_whole fun _ _ hr => hr.whole
  refine (punctual_iff h hwhole).mpr ?_
  intro r hr
  obtain ⟨x, -, rfl⟩ := mem_map.mp hr
  exact inRange_storedTime x.nextAttempt

theorem Punctual.step {a : WalAct} (hm : Punctual w.core.m) (h : WalOk o sgs w closed active)
    (hact : a.Timed) (hstep : w.step o a = some w') : Punctual w'.core.m := by
  cases Wal.turn_of_step hstep with
  | silent hadmits hcore => exact hm.core h hact hcore
  | refused | covered | abandoned | syncing | synced | finished => exact hm
  | logged hadmits hcore hsize hwait => exact hm.core h hact hcore
  | captured => exact (Wal.rotated (P := fun v => Punctual v.core.m) hm hm).1
  | @copied c =>
    obtain ⟨comp, hcopy⟩ := w.copy_eq o c
    rw [hcopy]
    exact hm
  | swapped hcomp hcopied hidle =>
    unfold Wal.swap
    split
    · exact hm.repoint _
    · exact hm
  | reopened hposs hrecover =>
    obtain ⟨hfits, -⟩ := Crash.fits_of_possible h hposs
    obtain ⟨hindexed, hshows, -⟩ := h.recovered hfits hrecover
    exact punctual_recovered hindexed hshows

theorem punctual_run {acts : List WalAct} (hsound : RunAll (Wal.step o) (Wal.Sound o) (.new o) acts)
    (htimed : ∀ a ∈ acts, a.Timed) (hrun : run (Wal.step o) (.new o) acts = some w) :
    Punctual w.core.m := by
  have hboth := hsound.and _ (runAll_of_mem (Wal.step o) htimed (.new o))
  have hnew : Punctual (newMachine o.lim) := by
    intro id it hit
    cases hit
  refine (run_invariant_of (Wal.step o)
    (I := fun w => (∃ closed active, WalOk o o.signing w closed active) ∧ Punctual w.core.m)
    ?_ hboth ⟨⟨[], [], walOk_new o⟩, hnew⟩ hrun).2
  rintro s a t ⟨hok, hact⟩ ⟨⟨closed, active, h⟩, hm⟩ hstep
  exact ⟨h.step hok hstep, hm.step h hact hstep⟩

end Stores

section Restarts

variable {m m' : Machine} {q : Queue}

theorem Shows.isSome_iff {R : Item → Record → Prop} (h : Indexed m) (hs : Shows R m q)
    (id : Bytes) : (m.items.get id).isSome = true ↔ ∃ r ∈ q.recs, r.id = id := by
  constructor
  · intro hsome
    obtain ⟨it, hit⟩ := Option.isSome_iff_exists.mp hsome
    obtain ⟨r, hr, hread⟩ := hs.record h (h.get_ptr hit)
    refine ⟨r, hr, ?_⟩
    rw [(hs.sight.same hread).1]
    exact (h.live id it hit).1
  · rintro ⟨r, hr, rfl⟩
    obtain ⟨it, hit, -⟩ := hs.item h hr
    exact Option.isSome_iff_exists.mpr ⟨it, hit⟩

/-- The items of a record in a store and in the store opened from its files. -/
theorem reborn_pair (h : Indexed m) (hs : Shows Whole m q) (h' : Indexed m')
    (hs' : Shows Whole m' q.reborn) {id : Bytes} {it it' : Item} (hit : m.items.get id = some it)
    (hit' : m'.items.get id = some it') :
    it'.record.nextAttempt = storedTime it.record.nextAttempt ∧
      it'.record.state = if it.record.state = .leased then .pending else it.record.state := by
  obtain ⟨r, hr, hwhole'⟩ := hs'.record h' (h'.get_ptr hit')
  obtain ⟨x, hx, rfl⟩ := mem_map.mp hr
  obtain ⟨it₀, hit₀, hwhole⟩ := hs.item h hx
  have hid : x.id = id := by
    have hread := (hs'.sight.same hwhole').1
    rw [(h'.live id it' hit').1] at hread
    exact hread
  rw [hid, hit] at hit₀
  obtain rfl := Option.some.inj hit₀
  have hstate : it.record.state = x.state := (hs.sight.same hwhole).2.2.2.symm
  have hstate' : it'.record.state = x.reborn.state := (hs'.sight.same hwhole').2.2.2.symm
  rw [hwhole'.nextAttempt_eq, hwhole.nextAttempt_eq, hstate', hstate]
  exact ⟨rfl, rfl⟩

/-- A record that is not leased is due when its NextAttempt has passed. -/
theorem due_iff {it : Item} {t : Time} (hfree : it.record.state ≠ .leased) :
    Due it t ↔ it.record.state = .pending ∧ ¬ it.record.nextAttempt > t := by
  constructor
  · rintro (hdue | ⟨hleased, -⟩)
    · exact hdue
    · exact absurd hleased hfree
  · exact .inl

/-- A store all of whose instants can be written is closed and opened again: the same
records are there, with the same NextAttempt but for the nudge of the epoch, and a record
that is not leased is due when it was. -/
theorem restart_keeps_due (o : WalOptions) (acts : List WalAct) (w : Wal)
    (hsound : RunAll (Wal.step o) (Wal.Sound o) (.new o) acts) (htimed : ∀ a ∈ acts, a.Timed)
    (hrun : run (Wal.step o) (.new o) acts = some w) :
    ∃ x, recover o w.dir = .ok x ∧
      (∀ id, (x.m.items.get id).isSome = (w.core.m.items.get id).isSome) ∧
      ∀ id it it', w.core.m.items.get id = some it → x.m.items.get id = some it' →
        SameInstant it.record.nextAttempt it'.record.nextAttempt ∧
          (it.record.state ≠ .leased → ∀ t, it.record.nextAttempt ≠ 0 ∨ t ≠ 0 →
            (Due it t ↔ Due it' t)) := by
  obtain ⟨closed, active, h⟩ := walOk_run hsound hrun
  have hm : Punctual w.core.m := punctual_run hsound htimed hrun
  obtain ⟨q, hshows, hreborn⟩ := h.shows_whole
  obtain ⟨x, hrecover, hindexed, hsees, -⟩ := h.recover_dir
  have hshows' : Shows Whole x.m q.reborn := by
    rw [hreborn]
    exact hsees.transfer sight_whole fun _ _ hr => hr.whole
  refine ⟨x, hrecover, ?_, ?_⟩
  · intro id
    rw [Bool.eq_iff_iff, hshows'.isSome_iff hindexed, hshows.isSome_iff h.core.indexed]
    constructor
    · rintro ⟨r, hr, rfl⟩
      obtain ⟨y, hy, rfl⟩ := mem_map.mp hr
      exact ⟨y, hy, rfl⟩
    · rintro ⟨r, hr, rfl⟩
      exact ⟨r.reborn, mem_map_of_mem hr, rfl⟩
  · intro id it it' hit hit'
    obtain ⟨hnext, hstate⟩ := reborn_pair h.core.indexed hshows hindexed hshows' hit hit'
    have hsame : SameInstant it.record.nextAttempt it'.record.nextAttempt := by
      rw [hnext]
      exact sameInstant_storedTime (hm id it hit)
    refine ⟨hsame, ?_⟩
    intro hfree t ht
    rw [if_neg hfree] at hstate
    rw [due_iff hfree, due_iff (hstate ▸ hfree), hstate, hsame.passed_iff ht]

/-- The first instant of the year 2200. -/
def year2200 : Time :=
  7258118400 * 10 ^ 9

/-- A record is leased and given back for a later attempt. -/
def givenBack (delay : Int) : List WalAct :=
  [.core (.call (.append (plainRecord "a" (str "v"))) year2200),
    .core (.pick [str "db"] year2200 ⟨[], [], 1, 1000⟩),
    .core (.commit 0 year2200 [.ok]),
    .core (.grant [str "t"]),
    .core (.call (.nack (str "a") (str "t") ⟨delay, str "down", [], false⟩) year2200)]

theorem restart_keeps_due_in_a_minute :
    ∃ w x it it', run (Wal.step plainOptions) (.new plainOptions)
        (givenBack (60 * 10 ^ 9)) = some w ∧
      recover plainOptions w.dir = .ok x ∧ w.core.m.items.get (str "a") = some it ∧
        x.m.items.get (str "a") = some it' ∧
          SameInstant it.record.nextAttempt it'.record.nextAttempt := by
  obtain ⟨w, it, hw, hit, -⟩ : ∃ w it, run (Wal.step plainOptions) (.new plainOptions)
      (givenBack (60 * 10 ^ 9)) = some w ∧ w.core.m.items.get (str "a") = some it ∧ True := by
    decide +kernel
  have hsound : RunAll (Wal.step plainOptions) (Wal.Sound plainOptions) (.new plainOptions)
      (givenBack (60 * 10 ^ 9)) := by
    decide +kernel
  obtain ⟨x, hrecover, hsame, hall⟩ := restart_keeps_due plainOptions (givenBack (60 * 10 ^ 9)) w
    hsound (by decide +kernel) hw
  obtain ⟨it', hit'⟩ := Option.isSome_iff_exists.mp
    ((hsame (str "a")).trans (Option.isSome_of_eq_some hit))
  exact ⟨w, x, it, it', hw, hrecover, hit, hit', (hall _ it it' hit hit').1⟩

/-- The longest delay from the year 2200 ends behind 2262: the record waits for it in the
store, and is due at once when the store is opened again. -/
theorem far_delay_is_due_after_restart :
    ∃ w x it it', run (Wal.step plainOptions) (.new plainOptions)
        (givenBack (2 ^ 63 - 1)) = some w ∧
      recover plainOptions w.dir = .ok x ∧ w.core.m.items.get (str "a") = some it ∧
        x.m.items.get (str "a") = some it' ∧ ¬ Due it year2200 ∧ Due it' year2200 := by
  obtain ⟨w, hw, it, hit, hnot, x, hx, it', hit', hdue⟩ : ∃ w, run (Wal.step plainOptions)
      (.new plainOptions) (givenBack (2 ^ 63 - 1)) = some w ∧
        ∃ it, w.core.m.items.get (str "a") = some it ∧ ¬ Due it year2200 ∧
          ∃ x, recover plainOptions w.dir = .ok x ∧
            ∃ it, x.m.items.get (str "a") = some it ∧ Due it year2200 := by
    decide +kernel
  exact ⟨w, x, it, it', hw, hx, hit, hit', hnot, hdue⟩

end Restarts

end Dlq
end GoGuard
