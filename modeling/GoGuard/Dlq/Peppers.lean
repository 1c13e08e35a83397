import GoGuard.Dlq.Secure

/-!
# Order keys across a rotation of peppers

An `Append` asks for the stored forms of its key and stores its record in the form
that is held.  Between the answer and the append other calls run.  As long as the
last record in the chosen form stays until then, all records of a key are stored in
one form (`SecureOk`): what an `Append` has chosen is the form the key is stored in,
or the current one if there is none, and an `Append` that still asks has the form
before it.

When the last record in an old form leaves too early, the key is split.
-/

namespace GoGuard
namespace Dlq

open Lib Machine Queue List

section Invariant

variable {x : SecureStore} {offload : Bool} {s s' : Secured}

/-- A record of the key is stored in this form. -/
def Secured.Keeps (s : Secured) (k form : Bytes) : Prop :=
  ∃ id, s.inner.m.Filed id form ∧ s.plain.get id = some k

/-- What holds of an `Append` of the key. -/
def ChoiceOk (x : SecureStore) (s : Secured) (k : Bytes) : SecureStore.Choice → Prop
  | .chosen form =>
    form ∈ x.forms k ∧ (∀ g, s.Keeps k g → g = form) ∧
      (form = x.current k ∨ s.Keeps k form)
  | .asking form rest =>
    k ≠ [] ∧ (∀ g ∈ form :: rest, g ∈ x.forms k) ∧
      ∀ g, s.Keeps k g → g = x.current k ∨ g ∈ form :: rest

structure SecureOk (x : SecureStore) (s : Secured) : Prop where
  core : CoreOk s.inner
  shown : ∃ q, Shows Bare s.inner.m q
  whole : s.Whole x
  appends : ∀ p ∈ s.appends, ChoiceOk x s p.record.orderKey p.choice

theorem Secured.Whole.keeps (h : s.Whole x) {k form : Bytes} (hkeeps : s.Keeps k form) :
    form ∈ x.forms k ∧ ∀ g, s.Keeps k g → g = form := by
  obtain ⟨id, hfiled, hplain⟩ := hkeeps
  obtain ⟨k', hplain', hform, hone⟩ := h id form hfiled
  obtain rfl := Option.some.inj (hplain.symm.trans hplain')
  refine ⟨hform, ?_⟩
  rintro g ⟨id', hfiled', hplain'⟩
  exact hone id' g hfiled' hplain'

theorem Secured.Whole.plain_of_filed (h : s.Whole x) {k id form : Bytes} (hform : form ∈ x.forms k)
    (hne : form ≠ []) (hfiled : s.inner.m.Filed id form) : s.plain.get id = some k := by
  obtain ⟨k', hplain, hform', -⟩ := h id form hfiled
  obtain rfl := SecureStore.forms_inj hform hform' hne
  exact hplain

theorem SecureOk.held_iff (h : SecureOk x s) {k form : Bytes} (hk : k ≠ [])
    (hform : form ∈ x.forms k) : s.inner.m.hasOrderKey form = true ↔ s.Keeps k form := by
  have hne := SecureStore.forms_ne_nil hk hform
  rw [hasOrderKey_iff h.core.indexed hne]
  constructor
  · rintro ⟨id, hfiled⟩
    exact ⟨id, hfiled, h.whole.plain_of_filed hform hne hfiled⟩
  · rintro ⟨id, hfiled, -⟩
    exact ⟨id, hfiled⟩

theorem SecureOk.hasOrderKey_iff (h : SecureOk x s) {k : Bytes} (hk : k ≠ []) :
    x.hasOrderKey s.inner.m k = true ↔ ∃ form, s.Keeps k form := by
  have hforms : x.hasOrderKey s.inner.m k = (x.forms k).any s.inner.m.hasOrderKey := by
    unfold SecureStore.hasOrderKey SecureStore.forms
    split <;> simp
  rw [hforms, any_eq_true]
  constructor
  · rintro ⟨form, hform, hheld⟩
    exact ⟨form, (h.held_iff hk hform).mp hheld⟩
  · rintro ⟨form, hkeeps⟩
    have hform := (h.whole.keeps hkeeps).1
    exact ⟨form, hform, (h.held_iff hk hform).mpr hkeeps⟩

end Invariant

section Steps

variable {x : SecureStore} {offload : Bool} {s s' : Secured}

theorem SecureOk.orderKey (h : SecureOk x s) (k : Bytes) : ChoiceOk x s k (x.orderKey k) := by
  unfold SecureStore.orderKey
  split
  · next hfew =>
    refine ⟨x.current_mem_forms k, ?_, .inl rfl⟩
    intro g hkeeps
    exact SecureStore.eq_current hfew (h.whole.keeps hkeeps).1
  · next hmany =>
    rw [not_or] at hmany
    have hsome : x.peppers ≠ [] := by
      rintro hnone
      rw [hnone] at hmany
      exact hmany.2 (Nat.zero_le _)
    have hforms : x.forms k = x.candidates k :=
      if_neg (not_or.mpr ⟨hmany.1, hsome⟩)
    split
    · next hnone => exact absurd (map_eq_nil_iff.mp hnone) hsome
    · next form rest hcands =>
      rw [hcands] at hforms
      refine ⟨hmany.1, fun g hg => hforms ▸ hg, ?_⟩
      intro g hkeeps
      exact .inr (hforms ▸ (h.whole.keeps hkeeps).1)

variable {k form : Bytes} {c : Core} {ref : BlobRef} {out : Option Entry} {appends : List Appending}
  {r : Record} {rand : Bytes → Bytes}

theorem SecureOk.answered (h : SecureOk x s) {rest : List Bytes}
    (hp : ChoiceOk x s k (.asking form rest)) :
    ChoiceOk x s k (x.answered k form rest (s.inner.m.hasOrderKey form)) := by
  obtain ⟨hk, hforms, hbefore⟩ := hp
  have hform := hforms form mem_cons_self
  have hheld := h.held_iff hk hform
  unfold SecureStore.answered
  split
  · next hyes =>
    have hkeeps := hheld.mp hyes
    exact ⟨hform, (h.whole.keeps hkeeps).2, .inr hkeeps⟩
  · next hno =>
    -- the form that was asked for is not kept
    have hrest : ∀ g, s.Keeps k g → g = x.current k ∨ g ∈ rest := by
      intro g hkeeps
      rcases hbefore g hkeeps with hcurrent | hg
      · exact .inl hcurrent
      · rcases mem_cons.mp hg with rfl | hg
        · exact absurd (hheld.mpr hkeeps) hno
        · exact .inr hg
    split
    · refine ⟨x.current_mem_forms k, ?_, .inl rfl⟩
      intro g hkeeps
      exact (hrest g hkeeps).resolve_right not_mem_nil
    · exact ⟨hk, fun g hg => hforms g (mem_cons_of_mem _ hg), hrest⟩

theorem ChoiceOk.less {c : SecureStore.Choice} (hp : ChoiceOk x s k c)
    (hless : ∀ g, s'.Keeps k g → s.Keeps k g)
    (hstays : ∀ form, c = .chosen form → form ≠ x.current k → s.Keeps k form →
      s'.Keeps k form) :
    ChoiceOk x s' k c := by
  cases c with
  | chosen form =>
    obtain ⟨hform, hone, hkept⟩ := hp
    refine ⟨hform, fun g hg => hone g (hless g hg), ?_⟩
    by_cases hcurrent : form = x.current k
    · exact .inl hcurrent
    · exact .inr (hstays form rfl hcurrent (hkept.resolve_left hcurrent))
  | asking form rest =>
    obtain ⟨hk, hforms, hbefore⟩ := hp
    exact ⟨hk, hforms, fun g hg => hbefore g (hless g hg)⟩

theorem ChoiceOk.more {k₀ form₀ : Bytes} {c : SecureStore.Choice} (hp : ChoiceOk x s k c)
    (hstored : ChoiceOk x s k₀ (.chosen form₀))
    (hmore : ∀ g, s'.Keeps k g → s.Keeps k g ∨ (k = k₀ ∧ g = form₀))
    (hstays : ∀ g, s.Keeps k g → s'.Keeps k g) : ChoiceOk x s' k c := by
  obtain ⟨-, hone₀, hkept₀⟩ := hstored
  cases c with
  | chosen form =>
    obtain ⟨hform, hone, hkept⟩ := hp
    refine ⟨hform, ?_, hkept.imp id (hstays form)⟩
    intro g hg
    rcases hmore g hg with hg | ⟨rfl, rfl⟩
    · exact hone g hg
    · -- both have chosen the form of the key, or the current one
      rcases hkept₀ with hcurrent₀ | hkeeps₀
      · rcases hkept with hcurrent | hkeeps
        · exact hcurrent₀.trans hcurrent.symm
        · exact (hone₀ form hkeeps).symm
      · exact hone _ hkeeps₀
  | asking form rest =>
    obtain ⟨hk, hforms, hbefore⟩ := hp
    refine ⟨hk, hforms, ?_⟩
    intro g hg
    rcases hmore g hg with hg | ⟨rfl, rfl⟩
    · exact hbefore g hg
    · exact hkept₀.elim .inl fun hkeeps => hbefore _ hkeeps

theorem SecureOk.other {a : CoreAct} (h : SecureOk x s) (hsteady : s.Steady x (.other a ref))
    (hother : a.appends = false) (hstep : s.inner.step offload (fun _ => ref) a = some (c, out)) :
    SecureOk x { s with inner := c } := by
  obtain ⟨q, hq⟩ := h.shown
  have hok := (core_step h.core hstep).1
  obtain ⟨hshown, hback, hforth⟩ := filed_of_step h.core hq hstep
  have hless : ∀ id form, c.m.Filed id form → s.inner.m.Filed id form := by
    intro id form hfiled
    rcases hback id form hfiled with hfiled | ⟨r, now, r', rfl, -⟩
    · exact hfiled
    · cases hother
  refine ⟨hok, hshown, ?_, ?_⟩
  · intro id form hfiled
    obtain ⟨k, hplain, hform, hone⟩ := h.whole id form (hless id form hfiled)
    exact ⟨k, hplain, hform, fun id' form' hfiled' => hone id' form' (hless _ _ hfiled')⟩
  · intro p hp
    refine (h.appends p hp).less (fun g ⟨id, hfiled, hplain⟩ => ⟨id, hless _ _ hfiled, hplain⟩) ?_
    rintro form hchosen hold ⟨id, hfiled, hplain⟩
    have hform := (h.whole.keeps ⟨id, hfiled, hplain⟩).1
    rcases hforth id form hfiled with hfiled' | ⟨it, hremoves, hlive⟩
    · exact ⟨id, hfiled', hplain⟩
    · obtain ⟨it', hit', rfl⟩ := hfiled
      obtain rfl := Option.some.inj (hlive.symm.trans hit')
      have hne : it.record.orderKey ≠ [] := by
        intro hnil
        refine hold (SecureStore.eq_current (.inl ?_) hform)
        by_contra hk
        exact SecureStore.forms_ne_nil hk hform hnil
      -- the record is not the last in its form
      have hnotlast : s.inner.m.keyLine it.record.orderKey ≠ [it.ptr] :=
        fun hlast => hold (hsteady it hremoves hlast p hp hchosen)
      obtain ⟨id', hother', hfiled'⟩ := filed_beside h.core.indexed hlive hne hnotlast
      rcases hforth id' _ hfiled' with hstill | ⟨y, hy, hlive'⟩
      · exact ⟨id', hstill, h.whole.plain_of_filed hform hne hfiled'⟩
      · obtain rfl := Option.some.inj (hremoves.symm.trans hy)
        have hid := (h.core.indexed.live _ _ hlive).1
        have hid' := (h.core.indexed.live _ _ hlive').1
        exact absurd (hid'.symm.trans hid) hother'

theorem SecureOk.filed {id₀ : Bytes} (h : SecureOk x s) (hok : CoreOk c)
    (hshown : ∃ q, Shows Bare c.m q) (hchoice : ChoiceOk x s k (.chosen form))
    (hrest : ∀ p ∈ appends, p ∈ s.appends) (hold : ∀ id g, s.inner.m.Filed id g → id ≠ id₀)
    (hnew : ∀ id g, c.m.Filed id g → s.inner.m.Filed id g ∨ (id = id₀ ∧ g = form))
    (hstays : ∀ id g, s.inner.m.Filed id g → c.m.Filed id g) :
    SecureOk x ⟨c, appends, s.plain.set id₀ k⟩ := by
  have hmore : ∀ k' g, Secured.Keeps ⟨c, appends, s.plain.set id₀ k⟩ k' g →
      s.Keeps k' g ∨ (k' = k ∧ g = form) := by
    rintro k' g ⟨id, hfiled, hplain⟩
    rw [GoMap.get_set] at hplain
    rcases hnew id g hfiled with hfiled | ⟨rfl, rfl⟩
    · rw [if_neg (hold id g hfiled)] at hplain
      exact .inl ⟨id, hfiled, hplain⟩
    · rw [if_pos rfl] at hplain
      exact .inr ⟨(Option.some.inj hplain).symm, rfl⟩
  have hkept : ∀ k' g, s.Keeps k' g →
      Secured.Keeps ⟨c, appends, s.plain.set id₀ k⟩ k' g := by
    rintro k' g ⟨id, hfiled, hplain⟩
    refine ⟨id, hstays id g hfiled, ?_⟩
    rw [GoMap.get_set, if_neg (hold id g hfiled)]
    exact hplain
  have hform := hchoice.1
  have hone := hchoice.2.1
  refine ⟨hok, hshown, ?_, ?_⟩
  · intro id g hfiled
    rcases hnew id g hfiled with hfiled' | ⟨rfl, rfl⟩
    · obtain ⟨k', hplain, hmem, -⟩ := h.whole id g hfiled'
      refine ⟨k', ?_, hmem, ?_⟩
      · rw [GoMap.get_set, if_neg (hold id g hfiled')]
        exact hplain
      · intro id' g' hother hplain'
        have hkeeps : s.Keeps k' g := ⟨id, hfiled', hplain⟩
        rcases hmore k' g' ⟨id', hother, hplain'⟩ with hkeeps' | ⟨rfl, rfl⟩
        · exact (h.whole.keeps hkeeps).2 g' hkeeps'
        · exact (hone g hkeeps).symm
    · refine ⟨k, ?_, hform, ?_⟩
      · rw [GoMap.get_set, if_pos rfl]
      · intro id' g' hother hplain'
        rcases hmore k g' ⟨id', hother, hplain'⟩ with hkeeps' | ⟨-, rfl⟩
        · exact hone g' hkeeps'
        · rfl
  · intro p hp
    exact (h.appends p (hrest p hp)).more hchoice (hmore _) (hkept _)

theorem SecureOk.store {i : Nat} {now : Time} (h : SecureOk x s)
    (hi : s.appends[i]? = some ⟨r, .chosen form⟩)
    (hstep : s.inner.step offload (fun _ => ref)
      (.call (.append { r with orderKey := form }) now) = some (c, out)) :
    SecureOk x ⟨c, s.appends.eraseIdx i,
      if out = none then s.plain else s.plain.set r.id r.orderKey⟩ := by
  obtain ⟨q, hq⟩ := h.shown
  have hok := (core_step h.core hstep).1
  obtain ⟨hshown, hback, hforth⟩ := filed_of_step h.core hq hstep
  have hchoice := h.appends _ (mem_of_getElem? hi)
  have hstays : ∀ id g, s.inner.m.Filed id g → c.m.Filed id g := by
    intro id g hfiled
    rcases hforth id g hfiled with hfiled | ⟨it, hremoves, -⟩
    · exact hfiled
    · cases hremoves
  have hrest : ∀ p ∈ s.appends.eraseIdx i, p ∈ s.appends :=
    fun p hp => mem_of_mem_eraseIdx hp
  cases out with
  | none =>
    have hsame : ∀ id g, c.m.Filed id g → s.inner.m.Filed id g := by
      intro id g hfiled
      rcases hback id g hfiled with hfiled | ⟨_, _, _, -, -, hout, -⟩
      · exact hfiled
      · cases hout
    refine ⟨hok, hshown, ?_, ?_⟩
    · intro id g hfiled
      obtain ⟨k, hplain, hform, hone⟩ := h.whole id g (hsame id g hfiled)
      exact ⟨k, hplain, hform, fun id' g' hfiled' => hone id' g' (hsame _ _ hfiled')⟩
    · intro p hp
      exact (h.appends p (hrest p hp)).less
        (fun g ⟨id, hfiled, hplain⟩ => ⟨id, hsame _ _ hfiled, hplain⟩)
        fun g _ _ ⟨id, hfiled, hplain⟩ => ⟨id, hstays _ _ hfiled, hplain⟩
  | some e =>
    obtain ⟨r', hprep, rfl⟩ := exec_logs (exec_of_call hstep)
    obtain ⟨hnone, hid, hkey, -⟩ := prepare_eq_some hprep
    have hold : ∀ id g, s.inner.m.Filed id g → id ≠ r.id := by
      rintro _ g ⟨it, hit, -⟩ rfl
      rw [← hid, hnone] at hit
      cases hit
    have hnew : ∀ id g, c.m.Filed id g →
        s.inner.m.Filed id g ∨ (id = r.id ∧ g = form) := by
      intro id g hfiled
      refine (hback id g hfiled).imp_right ?_
      rintro ⟨_, _, y, -, -, hout, rfl, rfl⟩
      cases hout
      exact ⟨hid, hkey⟩
    exact h.filed hok hshown hchoice hrest hold hnew hstays

theorem SecureOk.withAppends (h : SecureOk x s)
    (happends : ∀ p ∈ appends, ChoiceOk x s p.record.orderKey p.choice) :
    SecureOk x { s with appends := appends } :=
  ⟨h.core, h.shown, h.whole, happends⟩

theorem sealRecord_orderKey {r' : Record} (hseal : x.sealRecord rand r = .ok r') :
    r'.orderKey = r.orderKey := by
  unfold SecureStore.sealRecord at hseal
  cases hkey : x.sealField rand r.id (str "key") r.key with
  | error e =>
    rw [hkey] at hseal
    cases hseal
  | ok key =>
    cases hvalue : x.sealField rand r.id (str "value") r.value with
    | error e =>
      rw [hkey, hvalue] at hseal
      cases hseal
    | ok value =>
      cases hckpt : x.sealField rand r.id (str "checkpoint") r.checkpoint with
      | error e =>
        rw [hkey, hvalue, hckpt] at hseal
        cases hseal
      | ok checkpoint =>
        cases hheaders : x.sealHeaders rand r.id 0 r.headers with
        | error e =>
          rw [hkey, hvalue, hckpt, hheaders] at hseal
          cases hseal
        | ok headers =>
          rw [hkey, hvalue, hckpt, hheaders] at hseal
          cases hseal
          rfl

theorem begin_eq_ok {p : Appending} (hbegin : x.begin r rand = .ok p) :
    p.choice = x.orderKey p.record.orderKey := by
  unfold SecureStore.begin at hbegin
  split at hbegin
  · cases hbegin
  · split at hbegin
    · cases hbegin
    · next hseal =>
      cases hbegin
      rw [sealRecord_orderKey hseal]

theorem secure_step {a : SecureAct} (h : SecureOk x s) (hsteady : s.Steady x a)
    (hstep : s.step x offload a = some s') : SecureOk x s' := by
  cases a with
  | append r rand =>
    simp only [Secured.step] at hstep
    split at hstep
    · cases hstep
      exact h
    · next p hbegin =>
      cases hstep
      refine h.withAppends fun p' hp' => ?_
      rcases mem_append.mp hp' with hp' | hp'
      · exact h.appends p' hp'
      · rw [mem_singleton.mp hp', begin_eq_ok hbegin]
        exact h.orderKey _
  | ask i =>
    simp only [Secured.step] at hstep
    split at hstep
    · next r form rest hidle hi =>
      cases hstep
      refine h.withAppends fun p hp => ?_
      rcases mem_or_eq_of_mem_set hp with hp | rfl
      · exact h.appends p hp
      · exact h.answered (h.appends _ (mem_of_getElem? hi))
    · cases hstep
  | store i now ref =>
    simp only [Secured.step] at hstep
    split at hstep
    · next r form hi =>
      split at hstep
      · cases hstep
      · next c hinner =>
        cases hstep
        exact h.store hi hinner
      · next c e hinner =>
        cases hstep
        exact h.store hi hinner
    · cases hstep
  | fail i =>
    obtain ⟨-, rfl⟩ := of_guard hstep
    exact h.withAppends fun p hp => h.appends p (mem_of_mem_eraseIdx hp)
  | other a ref =>
    obtain ⟨hother, hstep⟩ := of_unless hstep
    obtain ⟨⟨c, out⟩, hinner, rfl⟩ := Option.map_eq_some_iff.mp hstep
    exact h.other hsteady (Bool.eq_false_iff.mpr hother) hinner

end Steps

section Results

/-- All records of an order key stay in one form, and so in one line, across any
rotation of peppers. -/
theorem rotation_keeps_keys_whole
    (x : SecureStore) (offload : Bool) (lim : Limits) (before : List LifeAct) (life : Life)
    (hbefore : run (Life.step offload lim) (.new lim) before = some life)
    (plain : GoMap Bytes Bytes) (hwhole : Secured.Whole x ⟨life.core, [], plain⟩)
    (acts : List SecureAct) (s : Secured)
    (hsteady : RunAll (Secured.step x offload) (Secured.Steady x) ⟨life.core, [], plain⟩ acts)
    (hrun : run (Secured.step x offload) ⟨life.core, [], plain⟩ acts = some s) :
    s.Whole x ∧
      ∀ k, k ≠ [] → ∃ form, ∀ id it, s.inner.m.items.get id = some it →
        s.plain.get id = some k →
          it.record.orderKey = form ∧ it.ptr ∈ s.inner.m.keyLine form := by
  have hlife : LifeOk life :=
    run_invariant _ (fun _ _ _ h hstep => lifeOk_step h hstep) (lifeOk_new lim) hbefore
  obtain ⟨q, -, -, hq, -, -⟩ := hlife.shown
  have h : SecureOk x s := by
    refine run_invariant_of (Secured.step x offload) (I := SecureOk x) ?_ hsteady ?_ hrun
    · exact fun s a t hok hs hstep => secure_step hs hok hstep
    · exact ⟨hlife.core, ⟨q, hq⟩, hwhole, fun p hp => nomatch hp⟩
  refine ⟨h.whole, ?_⟩
  intro k hk
  by_cases hany : ∃ form, s.Keeps k form
  · obtain ⟨form, hkeeps⟩ := hany
    obtain ⟨hform, hone⟩ := h.whole.keeps hkeeps
    refine ⟨form, fun id it hit hplain => ?_⟩
    have hkey : it.record.orderKey = form := hone _ ⟨id, ⟨it, hit, rfl⟩, hplain⟩
    have hindexed := h.core.indexed
    exact ⟨hkey, (hindexed.key_mem form it.ptr).mpr
      ⟨SecureStore.forms_ne_nil hk hform, it, hindexed.get_ptr hit, rfl, hkey⟩⟩
  · exact ⟨[], fun id it hit hplain => absurd ⟨_, id, ⟨it, hit, rfl⟩, hplain⟩ hany⟩

/-- The pepper behind its length, and the message. -/
def tallied (p k : Bytes) : Bytes :=
  List.replicate p.length 1 ++ 0 :: (p ++ k)

theorem tally_inj {a b : Nat} {u v : Bytes}
    (h : List.replicate a (1 : UInt8) ++ 0 :: u = List.replicate b 1 ++ 0 :: v) :
    a = b ∧ u = v := by
  induction a generalizing b with
  | zero =>
    cases b with
    | zero => exact ⟨rfl, (List.cons.inj h).2⟩
    | succ b => exact absurd (List.cons.inj h).1 (by decide)
  | succ a ih =>
    cases b with
    | zero => exact absurd (List.cons.inj h).1 (by decide)
    | succ b =>
      obtain ⟨hab, huv⟩ := ih (List.cons.inj h).2
      exact ⟨congrArg Nat.succ hab, huv⟩

/-- A store with a new and an old pepper that seals nothing. -/
def rotated : SecureStore where
  encryptor := ⟨fun _ plain _ => .ok plain, fun sealed _ => .ok sealed⟩
  redact := id
  hmac := {
    sum := tallied
    inj := fun p k p' k' h => by
      obtain ⟨hlen, hrest⟩ := tally_inj h
      exact append_inj hrest hlen
    ne_nil := fun p k => by simp [tallied] }
  peppers := [str "n", str "o"]

/-- The record `a` of the key `k` is stored under the old pepper, and leased. -/
def heldOld : List LifeAct :=
  [.core (.call (.append { demoRecord "a" 0 "k" "db" 0 with
      orderKey := rotated.hashKey (str "o") (str "k") }) 100) .zero,
    .core (.leaseNow [str "db"] 200 ⟨[], [], 5, 1000⟩ [str "t"]) .zero]

def keyOfA : GoMap Bytes Bytes :=
  GoMap.empty.set (str "a") (str "k")

def noRand (_ : Bytes) : Bytes := []

def appendOf (id : String) : SecureAct :=
  .append (demoRecord id 0 "k" "db" 0) noRand

def ackOfA : SecureAct :=
  .other (.call (.ack (str "a") (str "t")) 300) .zero

/-- The record `b` is stored behind `a`, `a` leaves, and `c` is stored behind `b`. -/
def rotatedInTurn : List SecureAct :=
  [appendOf "b", .ask 0, .ask 0, .store 0 250 .zero, ackOfA,
    appendOf "c", .ask 0, .ask 0, .store 0 310 .zero]

/-- The record `a` leaves when `b` has chosen its form; `c` finds no form, and both are
stored. -/
def rotatedTooSoon : List SecureAct :=
  [appendOf "b", .ask 0, .ask 0, ackOfA,
    appendOf "c", .ask 1, .ask 1, .store 1 310 .zero, .store 0 320 .zero]

theorem whole_one {x : SecureStore} {c : Core} {plain : GoMap Bytes Bytes} {id k form : Bytes}
    (hkeys : c.m.items.keys = [id])
    (hkey : (c.m.items.get id).map (fun it => it.record.orderKey) = some form)
    (hplain : plain.get id = some k) (hform : form ∈ x.forms k) :
    Secured.Whole x ⟨c, [], plain⟩ := by
  have hone : ∀ id' form', c.m.Filed id' form' → id' = id ∧ form' = form := by
    rintro id' _ ⟨it, hit, rfl⟩
    have hmem : id' ∈ c.m.items.keys := GoMap.mem_keys_iff.mpr ⟨it, hit⟩
    rw [hkeys, mem_singleton] at hmem
    subst hmem
    rw [hit] at hkey
    exact ⟨rfl, Option.some.inj hkey⟩
  intro id' form' hfiled
  obtain ⟨rfl, rfl⟩ := hone id' form' hfiled
  exact ⟨k, hplain, hform, fun id'' form'' hfiled' _ => (hone id'' form'' hfiled').2⟩

/-- The stored form of a record. -/
def Secured.formOf (s : Secured) (id : String) : Option Bytes :=
  (s.inner.m.items.get (str id)).map fun it => it.record.orderKey

theorem rotation_keeps_keys_whole_demo :
    ∃ life s, run (Life.step false ⟨0, 0, 0⟩) (.new ⟨0, 0, 0⟩) heldOld = some life ∧
      run (Secured.step rotated false) ⟨life.core, [], keyOfA⟩ rotatedInTurn = some s ∧
        s.inner.m.items.keys.length = 2 ∧ s.plain.get (str "b") = some (str "k") ∧
          s.plain.get (str "c") = some (str "k") ∧
            ∃ form, ∀ id it, s.inner.m.items.get id = some it →
              s.plain.get id = some (str "k") →
                it.record.orderKey = form ∧ it.ptr ∈ s.inner.m.keyLine form := by
  obtain ⟨life, s, hlife, hs, hkeys, hkey, hb, hc, hsteady, hlen⟩ : ∃ life s,
      run (Life.step false ⟨0, 0, 0⟩) (.new ⟨0, 0, 0⟩) heldOld = some life ∧
        run (Secured.step rotated false) ⟨life.core, [], keyOfA⟩ rotatedInTurn = some s ∧
          life.core.m.items.keys = [str "a"] ∧
          (life.core.m.items.get (str "a")).map (fun it => it.record.orderKey) =
            some (rotated.hashKey (str "o") (str "k")) ∧
          s.plain.get (str "b") = some (str "k") ∧ s.plain.get (str "c") = some (str "k") ∧
          RunAll (Secured.step rotated false) (Secured.Steady rotated)
            ⟨life.core, [], keyOfA⟩ rotatedInTurn ∧ s.inner.m.items.keys.length = 2 := by
    decide +kernel
  have hwhole : Secured.Whole rotated ⟨life.core, [], keyOfA⟩ :=
    whole_one hkeys hkey rfl (by decide +kernel)
  have hline := (rotation_keeps_keys_whole rotated false ⟨0, 0, 0⟩ heldOld life hlife keyOfA
    hwhole rotatedInTurn s hsteady hs).2 (str "k") (by decide)
  exact ⟨life, s, hlife, hs, hlen, hb, hc, hline⟩

/-- Two records of one key are in two lines. -/
theorem rotation_splits_key :
    ∃ life s, run (Life.step false ⟨0, 0, 0⟩) (.new ⟨0, 0, 0⟩) heldOld = some life ∧
      Secured.Whole rotated ⟨life.core, [], keyOfA⟩ ∧
        run (Secured.step rotated false) ⟨life.core, [], keyOfA⟩ rotatedTooSoon = some s ∧
          s.plain.get (str "b") = some (str "k") ∧ s.plain.get (str "c") = some (str "k") ∧
            s.formOf "b" = some (rotated.hashKey (str "o") (str "k")) ∧
              s.formOf "c" = some (rotated.hashKey (str "n") (str "k")) ∧
                rotated.hashKey (str "o") (str "k") ≠ rotated.hashKey (str "n") (str "k") := by
  obtain ⟨life, s, hlife, hs, hkeys, hkey, hfacts⟩ : ∃ life s,
      run (Life.step false ⟨0, 0, 0⟩) (.new ⟨0, 0, 0⟩) heldOld = some life ∧
        run (Secured.step rotated false) ⟨life.core, [], keyOfA⟩ rotatedTooSoon = some s ∧
          life.core.m.items.keys = [str "a"] ∧
          (life.core.m.items.get (str "a")).map (fun it => it.record.orderKey) =
            some (rotated.hashKey (str "o") (str "k")) ∧
          s.plain.get (str "b") = some (str "k") ∧ s.plain.get (str "c") = some (str "k") ∧
          s.formOf "b" = some (rotated.hashKey (str "o") (str "k")) ∧
          s.formOf "c" = some (rotated.hashKey (str "n") (str "k")) ∧
          rotated.hashKey (str "o") (str "k") ≠ rotated.hashKey (str "n") (str "k") := by
    decide +kernel
  exact ⟨life, s, hlife, whole_one hkeys hkey rfl (by decide +kernel), hs, hfacts⟩

end Results

end Dlq
end GoGuard
