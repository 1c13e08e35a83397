import GoGuard.Dlq.Machine

/-!
# The index of the machine

Every live item stands on one shelf, the group of its dependency or the parked
list, and in the line of its order key; shelves and lines ascend by Seq and
their members are exactly the items that belong there.  Every method keeps this.

Between `unlink` and `link` an item stands on no shelf, so the invariant is
stated with a possible gap.
-/

namespace GoGuard
namespace Dlq

open Lib List

section InsertOrdered

theorem insertOrdered_spec {l : List Ptr} {p : Ptr} {hint : Option Ptr} (hl : Ascending Ptr.seq l)
    (hnew : ∀ q ∈ l, q.seq ≠ p.seq) (hhint : ∀ h, hint = some h → h ∈ l) :
    Ascending Ptr.seq (insertOrdered l p hint) ∧
      ∀ q, q ∈ insertOrdered l p hint ↔ q = p ∨ q ∈ l := by
  have hback : Ascending Ptr.seq (insertFromBack l p) ∧
      ∀ q, q ∈ insertFromBack l p ↔ q = p ∨ q ∈ l := by
    unfold insertFromBack
    split
    · next hnil =>
      rw [List.head?_eq_none_iff.mp hnil]
      exact ⟨pairwise_singleton _ _, by simp⟩
    · next f hf =>
      split
      · next hgt =>
        cases l with
        | nil =>
          cases hf
        | cons x l =>
          cases hf
          refine ⟨pairwise_cons.mpr ⟨?_, hl⟩, fun q => mem_cons⟩
          intro q hq
          exact lt_of_lt_of_le hgt (hl.head_le hq)
      · next hle =>
        split
        · next hnone =>
          -- the front itself is not above `p`
          have hall := List.find?_eq_none.mp hnone f
            (mem_reverse.mpr (mem_of_mem_head? hf))
          simp only [Bool.not_eq_true', decide_eq_false_iff_not, not_not] at hall
          exact absurd hall hle
        · next e he =>
          obtain ⟨hmem, hlep, hgap⟩ := hl.gap_of_find_reverse he
          have hlt : e.seq < p.seq := lt_of_le_of_ne hlep (hnew e hmem)
          exact ⟨hl.insertAfter hmem hlt hgap, mem_insertAfter hmem⟩
  unfold insertOrdered
  split
  · exact hback
  · next h =>
    split
    · next hfits =>
      simp only [fitsHint, Bool.and_eq_true, decide_eq_true_eq] at hfits
      have hmem : h ∈ l := hhint h rfl
      have hgap := hl.gap_of_nextAfter (a := p) hmem (by
        intro x hx
        simpa [hx] using hfits.2)
      exact ⟨hl.insertAfter hmem hfits.1 hgap, mem_insertAfter hmem⟩
    · exact hback

end InsertOrdered

/-- The shelf a record belongs on: the group of its dependency, or the parked
list (`none`). -/
def Record.shelf (r : Record) : Option Bytes :=
  if r.state = .parked then none else some r.blockedOn

/-- What the index knows about an item. -/
def Item.sig (it : Item) : Ptr × Bytes × Option Bytes × Option Bytes :=
  (it.ptr, it.record.orderKey, it.record.shelf, it.grp)

namespace Machine

/-- The elements on a shelf. -/
def shelf (m : Machine) : Option Bytes → List Ptr
  | none => m.parked
  | some dep => (m.groupFor dep).items

def shelfHint (m : Machine) : Option Bytes → Option Ptr
  | none => m.parkedHint
  | some dep => (m.groupFor dep).hint

/-- The records of an order key. -/
def keyLine (m : Machine) (k : Bytes) : List Ptr :=
  (m.byKey.get k).getD []

/-- The index agrees with the items, except that the item of `hole` stands on no
shelf. -/
structure IndexedBut (hole : Option Ptr) (m : Machine) : Prop where
  asc : Ascending Ptr.seq m.order
  live : ∀ id it, m.items.get id = some it → it.record.id = id ∧ it.ptr ∈ m.order
  ptr : ∀ p ∈ m.order, ∃ it, m.items.get p.id = some it ∧ it.ptr = p
  seq_le : ∀ p ∈ m.order, p.seq ≤ m.seq
  grp : ∀ id it, m.items.get id = some it → some it.ptr ≠ hole → it.grp = it.record.shelf
  shelf_asc : ∀ s, Ascending Ptr.seq (m.shelf s)
  shelf_hint : ∀ s h, m.shelfHint s = some h → h ∈ m.shelf s
  shelf_mem : ∀ s p, p ∈ m.shelf s ↔
    some p ≠ hole ∧ ∃ it, m.items.get p.id = some it ∧ it.ptr = p ∧ it.record.shelf = s
  group : ∀ d g, m.groups.get d = some g → g.dep = d ∧ g.items ≠ []
  key_asc : ∀ k, Ascending Ptr.seq (m.keyLine k)
  key_mem : ∀ k p, p ∈ m.keyLine k ↔
    k ≠ [] ∧ ∃ it, m.items.get p.id = some it ∧ it.ptr = p ∧ it.record.orderKey = k

/-- The index agrees with the items. -/
abbrev Indexed (m : Machine) : Prop :=
  IndexedBut none m

theorem indexed_new (lim : Limits) : Indexed (newMachine lim) := by
  have hshelf : ∀ s, (newMachine lim).shelf s = [] := by
    intro s
    cases s <;> simp [shelf, newMachine, groupFor]
  have hkey : ∀ k, (newMachine lim).keyLine k = [] := by
    simp [keyLine, newMachine]
  refine ⟨List.Pairwise.nil, ?_, ?_, ?_, ?_, ?_, ?_, ?_, ?_, ?_, ?_⟩
  · intro id it hit
    simp [newMachine] at hit
  · intro p hp
    cases hp
  · intro p hp
    cases hp
  · intro id it hit
    simp [newMachine] at hit
  · intro s
    rw [hshelf]
    exact List.Pairwise.nil
  · intro s h hh
    cases s <;> simp [shelfHint, newMachine, groupFor] at hh
  · intro s p
    rw [hshelf]
    simp [newMachine]
  · intro d g hg
    simp [newMachine] at hg
  · intro k
    exact List.Pairwise.nil
  · intro k p
    rw [hkey]
    simp [newMachine]

section Basics

variable {hole : Option Ptr} {m : Machine} {it : Item}

theorem sig_parts {a b : Item} (h : a.sig = b.sig) :
    a.ptr = b.ptr ∧ a.record.orderKey = b.record.orderKey ∧
      a.record.shelf = b.record.shelf ∧ a.grp = b.grp := by
  simpa [Item.sig] using h

/-- A live element has the identifier of an item exactly when it is its pointer. -/
theorem id_iff_ptr {old it' : Item} {p : Ptr} (hold : m.items.get it.record.id = some old)
    (hptr : old.ptr = it.ptr) (hit' : m.items.get p.id = some it') (hp : it'.ptr = p) :
    p.id = it.record.id ↔ p = it.ptr := by
  constructor
  · intro hid
    rw [hid] at hit'
    obtain rfl := Option.some.inj (hit'.symm.trans hold)
    exact hp.symm.trans hptr
  · rintro rfl
    rfl

/-- What the table holds at a pointer once an item is put in. -/
theorem exists_put (new : Item) {m' : Machine} {p : Ptr} (P : Item → Prop)
    (hget : ∀ id, m'.items.get id = if id = new.record.id then some new else m.items.get id)
    (hold : ∀ x, m.items.get new.record.id = some x → x.ptr = new.ptr) :
    (∃ x, m'.items.get p.id = some x ∧ x.ptr = p ∧ P x) ↔
      if p = new.ptr then P new else ∃ x, m.items.get p.id = some x ∧ x.ptr = p ∧ P x := by
  rw [hget]
  by_cases hp : p = new.ptr
  · subst hp
    simp [Item.ptr]
  · rw [if_neg hp]
    split
    · next hid =>
      rw [hid]
      constructor
      · rintro ⟨x, hx, hptr, -⟩
        cases hx
        exact absurd hptr.symm hp
      · rintro ⟨x, hx, hptr, -⟩
        exact absurd (hptr.symm.trans (hold x hx)) hp
    · exact Iff.rfl

section

variable (h : IndexedBut hole m)
include h

/-- Two live items with one pointer are one item. -/
theorem IndexedBut.get_ptr {id : Bytes} (hit : m.items.get id = some it) :
    m.items.get it.ptr.id = some it := by
  have hid := (h.live id it hit).1
  rw [← hid] at hit
  exact hit

/-- A live item is the one its pointer leads to. -/
theorem IndexedBut.eq_of_ptr {id : Bytes} {it' : Item}
    (hit : m.items.get id = some it) {p : Ptr} (hp : m.items.get p.id = some it')
    (hptr : it.ptr = p) : it' = it := by
  rw [← hptr] at hp
  exact Option.some.inj (hp.symm.trans (h.get_ptr hit))

theorem IndexedBut.seq_inj {p q : Ptr} (hp : p ∈ m.order) (hq : q ∈ m.order)
    (hseq : p.seq = q.seq) : p = q :=
  h.asc.eq_of_key_eq hp hq hseq

theorem IndexedBut.mem_order_of_shelf {s : Option Bytes} {p : Ptr}
    (hp : p ∈ m.shelf s) : p ∈ m.order := by
  obtain ⟨-, it, hit, rfl, -⟩ := (h.shelf_mem s p).mp hp
  exact (h.live _ it hit).2

theorem IndexedBut.shelf_unique {s t : Option Bytes} {p : Ptr}
    (hs : p ∈ m.shelf s) (ht : p ∈ m.shelf t) : s = t := by
  obtain ⟨-, it, hit, -, rfl⟩ := (h.shelf_mem s p).mp hs
  obtain ⟨-, it', hit', -, rfl⟩ := (h.shelf_mem t p).mp ht
  rw [Option.some.inj (hit.symm.trans hit')]

theorem IndexedBut.frame {m' : Machine} (horder : m'.order = m.order)
    (hseq : m.seq ≤ m'.seq) (hshelf : ∀ s, m'.shelf s = m.shelf s)
    (hhint : ∀ s, m'.shelfHint s = m.shelfHint s)
    (hgroup : ∀ d g', m'.groups.get d = some g' →
      ∃ g, m.groups.get d = some g ∧ g'.dep = g.dep ∧ g'.items = g.items)
    (hkey : ∀ k, m'.keyLine k = m.keyLine k)
    (hsig : ∀ id, (m'.items.get id).map Item.sig = (m.items.get id).map Item.sig) :
    IndexedBut hole m' := by
  have hex : ∀ id (P : Ptr × Bytes × Option Bytes × Option Bytes → Prop),
      (∃ it, m.items.get id = some it ∧ P it.sig) ↔
        ∃ it, m'.items.get id = some it ∧ P it.sig := by
    intro id P
    have hmap : ∀ m : Machine, (∃ it, m.items.get id = some it ∧ P it.sig) ↔
        ∃ x, (m.items.get id).map Item.sig = some x ∧ P x := by
      simp [Option.map_eq_some_iff]
    rw [hmap, hmap, hsig]
  -- an item of the new machine has a twin in the old one
  have htwin : ∀ {id it'}, m'.items.get id = some it' →
      ∃ it, m.items.get id = some it ∧ it.sig = it'.sig := by
    intro id it' hit'
    exact (hex id (· = it'.sig)).mpr ⟨it', hit', rfl⟩
  refine ⟨?_, ?_, ?_, ?_, ?_, ?_, ?_, ?_, ?_, ?_, ?_⟩
  · rw [horder]
    exact h.asc
  · intro id it' hit'
    obtain ⟨it, hit, heq⟩ := htwin hit'
    have hptr := (sig_parts heq).1
    obtain ⟨hid, hmem⟩ := h.live id it hit
    have hid' : it.record.id = it'.record.id := congrArg Ptr.id hptr
    exact ⟨hid'.symm.trans hid, by rw [horder, ← hptr]; exact hmem⟩
  · intro p hp
    rw [horder] at hp
    exact (hex p.id fun x => x.1 = p).mp (h.ptr p hp)
  · intro p hp
    rw [horder] at hp
    exact (h.seq_le p hp).trans hseq
  · intro id it' hit' hne
    obtain ⟨it, hit, heq⟩ := htwin hit'
    obtain ⟨hptr, -, hsh, hgrp⟩ := sig_parts heq
    rw [← hgrp, ← hsh]
    exact h.grp id it hit (hptr ▸ hne)
  · intro s
    rw [hshelf]
    exact h.shelf_asc s
  · intro s x hx
    rw [hhint] at hx
    rw [hshelf]
    exact h.shelf_hint s x hx
  · intro s p
    rw [hshelf, h.shelf_mem s p]
    exact and_congr_right fun _ => hex p.id fun x => x.1 = p ∧ x.2.2.1 = s
  · intro d g' hg'
    obtain ⟨g, hg, hdep, hitems⟩ := hgroup d g' hg'
    obtain ⟨hd, hne⟩ := h.group d g hg
    exact ⟨hdep.trans hd, hitems ▸ hne⟩
  · intro k
    rw [hkey]
    exact h.key_asc k
  · intro k p
    rw [hkey, h.key_mem k p]
    exact and_congr_right fun _ => hex p.id fun x => x.1 = p ∧ x.2.1 = k

end

end Basics

section Shelves

variable (m : Machine) (it : Item)

theorem shelf_link (s : Option Bytes) :
    (m.link it).shelf s =
      if s = it.record.shelf then insertOrdered (m.shelf s) it.ptr (m.shelfHint s)
      else m.shelf s := by
  unfold link Record.shelf
  by_cases hstate : it.record.state = .parked
  · cases s <;> simp [hstate, shelf, shelfHint, groupFor]
  · cases s with
    | none => simp [hstate, shelf]
    | some d =>
      by_cases hd : d = it.record.blockedOn
      · simp [hstate, shelf, shelfHint, groupFor, hd]
      · simp [hstate, shelf, groupFor, hd]

theorem shelfHint_link (s : Option Bytes) :
    (m.link it).shelfHint s =
      if s = it.record.shelf then some it.ptr else m.shelfHint s := by
  unfold link Record.shelf
  by_cases hstate : it.record.state = .parked
  · cases s <;> simp [hstate, shelfHint, groupFor]
  · cases s with
    | none => simp [hstate, shelfHint]
    | some d =>
      by_cases hd : d = it.record.blockedOn
      · simp [hstate, shelfHint, groupFor, hd]
      · simp [hstate, shelfHint, groupFor, hd]

theorem groupFor_unlink {dep : Bytes} (hgrp : it.grp = some dep) (d : Bytes) :
    (m.unlink it).groupFor d =
      if d = dep then
        if (m.groupFor dep).items.erase it.ptr = [] then ⟨d, [], none, zeroTime⟩
        else
          { m.groupFor dep with
            items := (m.groupFor dep).items.erase it.ptr
            hint := hintWithout (m.groupFor dep).hint it.ptr
            wake := zeroTime }
      else m.groupFor d := by
  simp only [unlink, hgrp]
  by_cases hempty : (m.groupFor dep).items.erase it.ptr = []
  · rw [if_pos hempty, if_pos hempty]
    by_cases hd : d = dep <;> simp [groupFor, hd]
  · rw [if_neg hempty, if_neg hempty]
    by_cases hd : d = dep <;> simp [groupFor, hd]

theorem shelf_unlink (s : Option Bytes) :
    (m.unlink it).shelf s =
      if s = it.grp then (m.shelf s).erase it.ptr else m.shelf s := by
  cases hgrp : it.grp with
  | none => cases s <;> simp [unlink, hgrp, shelf, groupFor]
  | some dep =>
    cases s with
    | none => simp [unlink, hgrp, shelf]
    | some d =>
      simp only [shelf, groupFor_unlink m it hgrp, Option.some.injEq]
      by_cases hd : d = dep
      · subst hd
        by_cases hempty : (m.groupFor d).items.erase it.ptr = []
        · simp only [if_true, if_pos hempty]
          exact hempty.symm
        · simp only [if_true, if_neg hempty]
      · simp only [if_neg hd]

theorem shelfHint_unlink {s : Option Bytes} {h : Ptr} (hh : (m.unlink it).shelfHint s = some h) :
    m.shelfHint s = some h ∧ (s = it.grp → h ≠ it.ptr) := by
  have hwithout : ∀ hint : Option Ptr, hintWithout hint it.ptr = some h →
      hint = some h ∧ h ≠ it.ptr := by
    intro hint hw
    obtain ⟨hne, hw⟩ := of_unless hw
    refine ⟨hw, ?_⟩
    rintro rfl
    exact hne hw
  cases hgrp : it.grp with
  | none =>
    simp only [unlink, hgrp] at hh
    cases s with
    | none =>
      obtain ⟨hold, hne⟩ := hwithout _ hh
      exact ⟨hold, fun _ => hne⟩
    | some d => exact ⟨hh, fun heq => by cases heq⟩
  | some dep =>
    cases s with
    | none =>
      simp only [unlink, hgrp] at hh
      exact ⟨hh, fun heq => by cases heq⟩
    | some d =>
      simp only [shelfHint, groupFor_unlink m it hgrp] at hh
      by_cases hd : d = dep
      · subst hd
        rw [if_pos rfl] at hh
        split at hh
        · cases hh
        · obtain ⟨hold, hne⟩ := hwithout _ hh
          exact ⟨hold, fun _ => hne⟩
      · rw [if_neg hd] at hh
        exact ⟨hh, fun heq => absurd (Option.some.inj heq) hd⟩

end Shelves

section Linking

theorem unlink_outside (m : Machine) (it : Item) :
    (m.unlink it).items = m.items ∧ (m.unlink it).order = m.order ∧
      (m.unlink it).seq = m.seq ∧ (m.unlink it).byKey = m.byKey := by
  unfold Machine.unlink
  split <;> exact ⟨rfl, rfl, rfl, rfl⟩

theorem link_outside (m : Machine) (it : Item) :
    (m.link it).order = m.order ∧ (m.link it).seq = m.seq ∧ (m.link it).byKey = m.byKey := by
  unfold Machine.link
  split <;> exact ⟨rfl, rfl, rfl⟩

theorem get_unlink (m : Machine) (it : Item) (id : Bytes) :
    (m.unlink it).items.get id = m.items.get id := by
  rw [(unlink_outside m it).1]

theorem get_link (m : Machine) (it : Item) (id : Bytes) :
    (m.link it).items.get id =
      if id = it.record.id then some { it with grp := it.record.shelf }
      else m.items.get id := by
  unfold Machine.link Record.shelf
  by_cases hstate : it.record.state = .parked <;> simp [hstate]

variable {m : Machine} {it : Item}

theorem IndexedBut.unlink {old : Item} (h : Indexed m) (hold : m.items.get it.record.id = some old)
    (hsig : old.sig = it.sig) : IndexedBut (some it.ptr) (m.unlink it) := by
  obtain ⟨hptr, -, hshelf, hgrp⟩ := sig_parts hsig
  have hgrp' : it.grp = old.record.shelf := hgrp.symm.trans (h.grp _ old hold (by simp))
  obtain ⟨hitems, horder, hseq, hlines⟩ := unlink_outside m it
  have hkey : ∀ k, (m.unlink it).keyLine k = m.keyLine k := by
    intro k
    rw [keyLine, hlines, keyLine]
  refine ⟨?_, ?_, ?_, ?_, ?_, ?_, ?_, ?_, ?_, ?_, ?_⟩
  · rw [horder]
    exact h.asc
  · rw [hitems, horder]
    exact h.live
  · rw [hitems, horder]
    exact h.ptr
  · rw [horder, hseq]
    exact h.seq_le
  · intro id it' hit' _
    rw [hitems] at hit'
    exact h.grp id it' hit' (by simp)
  · intro s
    rw [shelf_unlink]
    split
    · exact (h.shelf_asc s).sublist erase_sublist
    · exact h.shelf_asc s
  · intro s x hx
    obtain ⟨hold, hne⟩ := shelfHint_unlink m it hx
    rw [shelf_unlink]
    split
    · next hs => exact (mem_erase_of_ne (hne hs)).mpr (h.shelf_hint s x hold)
    · exact h.shelf_hint s x hold
  · intro s p
    rw [shelf_unlink, hitems]
    have hmem := h.shelf_mem s p
    by_cases hs : s = it.grp
    · rw [if_pos hs, (h.shelf_asc s).nodup.mem_erase_iff, hmem]
      simp
    · rw [if_neg hs, hmem]
      refine and_congr_left ?_
      rintro ⟨it', hit', -, hsh⟩
      refine ⟨fun _ heq => ?_, fun _ => by simp⟩
      -- the item itself belongs on another shelf
      obtain rfl : it' = old :=
        h.eq_of_ptr hold hit' (hptr.trans (Option.some.inj heq).symm)
      exact hs (hsh.symm.trans hgrp'.symm)
  · intro d g hg
    unfold Machine.unlink at hg
    split at hg
    · exact h.group d g hg
    · next dep hdep =>
      split at hg
      · rw [GoMap.get_del] at hg
        split at hg
        · cases hg
        · exact h.group d g hg
      · next hne =>
        rw [GoMap.get_set] at hg
        split at hg
        · next heq =>
          cases hg
          refine ⟨?_, hne⟩
          subst heq
          simp only [groupFor]
          cases hold : m.groups.get d with
          | none => rfl
          | some g => exact (h.group d g hold).1
        · exact h.group d g hg
  · intro k
    rw [hkey]
    exact h.key_asc k
  · intro k p
    rw [hkey, hitems]
    exact h.key_mem k p

theorem IndexedBut.link {old : Item} (h : IndexedBut (some it.ptr) m)
    (hold : m.items.get it.record.id = some old) (hptr : old.ptr = it.ptr)
    (hkeyed : old.record.orderKey = it.record.orderKey) : Indexed (m.link it) := by
  have hitems := get_link m it
  obtain ⟨horder, hseq, hlines⟩ := link_outside m it
  have hkey : ∀ k, (m.link it).keyLine k = m.keyLine k := by
    intro k
    rw [keyLine, hlines, keyLine]
  have hin : it.ptr ∈ m.order := hptr ▸ (h.live _ old hold).2
  have hput : ∀ (p : Ptr) (P : Item → Prop),
      (∃ x, (m.link it).items.get p.id = some x ∧ x.ptr = p ∧ P x) ↔
        if p = it.ptr then P { it with grp := it.record.shelf }
        else ∃ x, m.items.get p.id = some x ∧ x.ptr = p ∧ P x := by
    intro p P
    refine exists_put { it with grp := it.record.shelf } P hitems fun x hx => ?_
    rw [Option.some.inj (hx.symm.trans hold)]
    exact hptr
  have hins : ∀ s, Ascending Ptr.seq (insertOrdered (m.shelf s) it.ptr (m.shelfHint s)) ∧
      ∀ q, q ∈ insertOrdered (m.shelf s) it.ptr (m.shelfHint s) ↔
        q = it.ptr ∨ q ∈ m.shelf s := by
    intro s
    refine insertOrdered_spec (h.shelf_asc s) ?_ (h.shelf_hint s)
    intro q hq hseq'
    have hqe : q = it.ptr := h.seq_inj (h.mem_order_of_shelf hq) hin hseq'
    exact ((h.shelf_mem s q).mp hq).1 (by rw [hqe])
  refine ⟨?_, ?_, ?_, ?_, ?_, ?_, ?_, ?_, ?_, ?_, ?_⟩
  · rw [horder]
    exact h.asc
  · intro id it' hit'
    rw [hitems] at hit'
    rw [horder]
    split at hit'
    · next hid =>
      cases hit'
      exact ⟨hid.symm, hin⟩
    · exact h.live id it' hit'
  · intro p hp
    rw [horder] at hp
    obtain ⟨x, hx, hp, -⟩ := (hput p fun _ => True).mpr (by
      obtain ⟨x, hx, hp⟩ := h.ptr p hp
      split
      · trivial
      · exact ⟨x, hx, hp, trivial⟩)
    exact ⟨x, hx, hp⟩
  · rw [horder, hseq]
    exact h.seq_le
  · intro id it' hit' _
    rw [hitems] at hit'
    split at hit'
    · cases hit'
      rfl
    · next hid =>
      refine h.grp id it' hit' ?_
      intro heq
      have hid' : it'.record.id = it.record.id := congrArg Ptr.id (Option.some.inj heq)
      exact hid ((h.live id it' hit').1.symm.trans hid')
  · intro s
    rw [shelf_link]
    split
    · exact (hins s).1
    · exact h.shelf_asc s
  · intro s x hx
    rw [shelfHint_link] at hx
    rw [shelf_link]
    split at hx
    · next hs =>
      rw [if_pos hs]
      cases hx
      exact ((hins s).2 _).mpr (.inl rfl)
    · next hs =>
      rw [if_neg hs]
      exact h.shelf_hint s x hx
  · intro s p
    have hmem := h.shelf_mem s p
    rw [shelf_link, hput p fun x => x.record.shelf = s]
    grind
  · intro d g hg
    unfold Machine.link at hg
    split at hg
    · exact h.group d g hg
    · next hstate =>
      simp only [GoMap.get_set] at hg
      split at hg
      · next heq =>
        cases hg
        refine ⟨?_, ?_⟩
        · subst heq
          simp only [groupFor]
          cases hold' : m.groups.get it.record.blockedOn with
          | none => rfl
          | some g => exact (h.group _ g hold').1
        · have hmem := ((hins (some it.record.blockedOn)).2 it.ptr).mpr (.inl rfl)
          exact ne_nil_of_mem hmem
      · exact h.group d g hg
  · intro k
    rw [hkey]
    exact h.key_asc k
  · intro k p
    rw [hkey, h.key_mem k p, hput p fun x => x.record.orderKey = k]
    refine and_congr_right fun _ => ?_
    split
    · next hp =>
      subst hp
      constructor
      · rintro ⟨x, hx, -, hk⟩
        obtain rfl := Option.some.inj (hx.symm.trans hold)
        exact hkeyed.symm.trans hk
      · exact fun hk => ⟨old, hold, hptr, hkeyed.trans hk⟩
    · exact Iff.rfl

end Linking

section Updates

variable {hole : Option Ptr} {m : Machine} {it : Item}

section

variable (h : IndexedBut hole m)
include h

theorem IndexedBut.setItem {old : Item} {id : Bytes}
    (hold : m.items.get id = some old) (hsig : it.sig = old.sig) :
    IndexedBut hole { m with items := m.items.set id it } := by
  refine h.frame rfl (le_refl _) ?_ ?_ (fun d g hg => ⟨g, hg, rfl, rfl⟩) (fun _ => rfl) ?_
  · intro s
    cases s <;> rfl
  · intro s
    cases s <;> rfl
  · intro id'
    simp only [GoMap.get_set]
    split
    · next heq =>
      subst heq
      simp [hold, hsig]
    · rfl

theorem IndexedBut.store {old : Item}
    (hold : m.items.get it.record.id = some old) (hsig : it.sig = old.sig) :
    IndexedBut hole (m.store it) :=
  h.setItem hold hsig

theorem IndexedBut.update (id : Bytes) {f : Item → Item}
    (hf : ∀ it, (f it).sig = it.sig) : IndexedBut hole (m.update id f) := by
  unfold Machine.update
  split
  · exact h
  · next it hit => exact h.setItem hit (hf it)

theorem IndexedBut.count (counts : Counts) (bytes : Int) :
    IndexedBut hole { m with counts := counts, bytes := bytes } := by
  refine h.frame rfl (le_refl _) ?_ ?_ (fun d g hg => ⟨g, hg, rfl, rfl⟩) (fun _ => rfl)
    (fun _ => rfl)
  · intro s
    cases s <;> rfl
  · intro s
    cases s <;> rfl

theorem IndexedBut.resize (id : Bytes) : IndexedBut hole (m.resize id) := by
  unfold Machine.resize
  split
  · exact h
  · next it hit =>
    have hcount := h.count m.counts
      (m.bytes + ((it.record.size + it.bodyN + it.ckptN : Nat) - (it.size : Int)))
    refine hcount.setItem hit ?_
    rfl

theorem IndexedBut.setWake {dep : Bytes} {g : Group}
    (hg : m.groups.get dep = some g) (wake : Time) :
    IndexedBut hole { m with groups := m.groups.set dep { g with wake := wake } } := by
  refine h.frame rfl (le_refl _) ?_ ?_ ?_ (fun _ => rfl) (fun _ => rfl)
  · intro s
    cases s with
    | none => rfl
    | some d => by_cases hd : d = dep <;> simp [shelf, groupFor, hd, hg]
  · intro s
    cases s with
    | none => rfl
    | some d => by_cases hd : d = dep <;> simp [shelfHint, groupFor, hd, hg]
  · intro d g' hg'
    rw [GoMap.get_set] at hg'
    split at hg'
    · next heq =>
      cases hg'
      exact ⟨g, heq ▸ hg, rfl, rfl⟩
    · exact ⟨g', hg', rfl, rfl⟩

theorem IndexedBut.clearWake (dep : Bytes) : IndexedBut hole (m.clearWake dep) := by
  unfold Machine.clearWake
  split
  · exact h
  · next g hg => exact h.setWake hg zeroTime

end

theorem get_clearWake (m : Machine) (dep id : Bytes) :
    (m.clearWake dep).items.get id = m.items.get id := by
  unfold Machine.clearWake
  split <;> rfl

theorem IndexedBut.move {old : Item} (h : Indexed m) (hold : m.items.get it.record.id = some old)
    (hsig : old.sig = it.sig) (state : State) (dep : Bytes) : Indexed (m.move it state dep) := by
  obtain ⟨hptr, hkey, hshelf, hgrp⟩ := sig_parts hsig
  unfold Machine.move
  split
  · next hsame =>
    obtain ⟨hsome, hstate, hdep⟩ := hsame
    have hclear := (h.count ((m.counts.add it.record.state (-1)).add state 1)
      m.bytes).clearWake (it.grp.getD [])
    refine hclear.store ((get_clearWake _ _ _).trans hold) ?_
    -- the item stays on the shelf of its dependency
    have hold' : old.grp = old.record.shelf := h.grp _ old hold (by simp)
    have hsh : old.record.shelf = some dep := by
      rw [hshelf]
      unfold Record.shelf
      split
      · next hparked =>
        rw [← hgrp, hold', hshelf] at hsome
        simp [Record.shelf, hparked] at hsome
      · rw [hdep]
    simp only [Item.sig, Prod.mk.injEq]
    refine ⟨hptr.symm, hkey.symm, ?_, hgrp.symm⟩
    rw [hsh]
    simp [moved, Record.shelf, hstate]
  · refine IndexedBut.link (h.unlink hold hsig) ?_ hptr hkey
    exact (get_unlink m it it.record.id).trans hold

end Updates

section Records

variable {m : Machine} {it : Item}

theorem IndexedBut.insertItem (h : Indexed m) (hnew : m.items.get it.record.id = none)
    (hseq : m.seq < it.record.seq) (size : Nat) : Indexed (m.insertItem it size) := by
  have hlt : ∀ p ∈ m.order, p.seq < it.record.seq :=
    fun p hp => lt_of_le_of_lt (h.seq_le p hp) hseq
  have hfree : ∀ (p : Ptr) (it' : Item), m.items.get p.id = some it' →
      p.id ≠ it.record.id := by
    intro p it' hit' heq
    rw [heq, hnew] at hit'
    cases hit'
  -- the machine with the item in every list but its shelf
  let mid : Machine :=
    { m with
      order := m.order ++ [it.ptr]
      items := m.items.set it.record.id it
      byKey :=
        if it.record.orderKey = [] then m.byKey
        else m.byKey.set it.record.orderKey
          ((m.byKey.get it.record.orderKey).getD [] ++ [it.ptr])
      bytes := m.bytes + size
      seq := if it.record.seq > m.seq then it.record.seq else m.seq }
  have hput : ∀ (p : Ptr) (P : Item → Prop),
      (∃ x, mid.items.get p.id = some x ∧ x.ptr = p ∧ P x) ↔
        if p = it.ptr then P it else ∃ x, m.items.get p.id = some x ∧ x.ptr = p ∧ P x := by
    intro p P
    refine exists_put it P (fun _ => GoMap.get_set ..) fun x hx => ?_
    exact absurd rfl (hfree it.ptr x hx)
  have hline : ∀ k, mid.keyLine k =
      if it.record.orderKey ≠ [] ∧ k = it.record.orderKey then m.keyLine k ++ [it.ptr]
      else m.keyLine k := by
    simp only [mid, keyLine]
    grind [GoMap.get_set]
  have hmid : IndexedBut (some it.ptr) mid := by
    refine ⟨h.asc.concat hlt, ?_, ?_, ?_, ?_, ?_, ?_, ?_, h.group, ?_, ?_⟩
    · intro id it' hit'
      simp only [mid, GoMap.get_set] at hit'
      split at hit'
      · next heq =>
        cases hit'
        exact ⟨heq.symm, mem_append_right _ (mem_singleton.mpr rfl)⟩
      · obtain ⟨hid, hmem⟩ := h.live id it' hit'
        exact ⟨hid, mem_append_left _ hmem⟩
    · intro p hp
      have hex := hput p fun _ => True
      have hold := h.ptr p
      have hp' := mem_append.mp hp
      grind
    · intro p hp
      simp only [mid, if_pos hseq]
      rcases mem_append.mp hp with hp | hp
      · exact (hlt p hp).le
      · obtain rfl := mem_singleton.mp hp
        exact le_refl _
    · intro id it' hit' hne
      simp only [mid, GoMap.get_set] at hit'
      split at hit'
      · cases hit'
        exact absurd rfl hne
      · exact h.grp id it' hit' (by simp)
    · intro s
      have hs := h.shelf_asc s
      cases s <;> exact hs
    · intro s x hx
      have hs := h.shelf_hint s x
      cases s <;> exact hs hx
    · intro s p
      refine Iff.trans (b := p ∈ m.shelf s) (by cases s <;> exact Iff.rfl) ?_
      rw [h.shelf_mem s p, hput]
      grind [Item.ptr]
    · intro k
      rw [hline]
      split
      · refine (h.key_asc k).concat ?_
        intro b hb
        obtain ⟨-, it', hit', rfl, -⟩ := (h.key_mem _ b).mp hb
        exact hlt _ (h.live _ it' hit').2
      · exact h.key_asc k
    · intro k p
      have hmem := h.key_mem k p
      rw [hline, hput]
      grind [Item.ptr]
  have hlink := hmid.link ((GoMap.get_set ..).trans (if_pos rfl)) rfl rfl
  refine hlink.frame ?_ ?_ ?_ ?_ ?_ ?_ ?_
  · unfold Machine.insertItem Machine.link
    split <;> rfl
  · exact (link_outside mid it).2.1.le
  · intro s
    unfold Machine.insertItem Machine.link
    split <;> cases s <;> rfl
  · intro s
    unfold Machine.insertItem Machine.link
    split <;> cases s <;> rfl
  · have hgroups : (m.insertItem it size).groups = (mid.link it).groups := by
      unfold Machine.insertItem Machine.link
      split <;> rfl
    exact fun d g hg => ⟨g, hgroups ▸ hg, rfl, rfl⟩
  · intro k
    unfold Machine.insertItem Machine.link
    split <;> rfl
  · intro id
    have hleft : (m.insertItem it size).items.get id =
        (Machine.link { m with order := m.order ++ [it.ptr] } it).items.get id := rfl
    rw [hleft, get_link, get_link]
    by_cases hid : id = it.record.id <;> simp [mid, hid]

theorem wakeNext_cases (m : Machine) (l : List Ptr) (p : Ptr) :
    m.wakeNext l p = m ∨ ∃ dep, m.wakeNext l p = m.clearWake dep := by
  unfold wakeNext
  split
  · split
    · split
      · exact .inl rfl
      · next dep _ => exact .inr ⟨dep, rfl⟩
    · exact .inl rfl
  · exact .inl rfl

/-- The key's line changes, and perhaps a wake time. -/
theorem removeKey_cases (m : Machine) (it : Item) :
    m.removeKey it = { m with byKey := (m.removeKey it).byKey } ∨
      ∃ dep, m.removeKey it = clearWake { m with byKey := (m.removeKey it).byKey } dep := by
  unfold removeKey
  split
  · exact .inl rfl
  · rcases wakeNext_cases m ((m.byKey.get it.record.orderKey).getD []) it.ptr with
      hsame | ⟨dep, hclear⟩
    · rw [hsame]
      exact .inl rfl
    · refine .inr ⟨dep, ?_⟩
      rw [hclear]
      unfold clearWake
      cases m.groups.get dep <;> rfl

theorem removeKey_outside (m : Machine) (it : Item) :
    (m.removeKey it).order = m.order ∧ (m.removeKey it).items = m.items ∧
      (m.removeKey it).seq = m.seq ∧ (m.removeKey it).bytes = m.bytes ∧
        (m.removeKey it).counts = m.counts := by
  rcases removeKey_cases m it with heq | ⟨dep, heq⟩
  · rw [heq]
    exact ⟨rfl, rfl, rfl, rfl, rfl⟩
  · rw [heq]
    unfold clearWake
    split <;> exact ⟨rfl, rfl, rfl, rfl, rfl⟩

/-- The lines of the keys once an element has left the line of `key`. -/
theorem line_without (lines : GoMap Bytes (List Ptr)) (key k : Bytes) (p : Ptr) :
    ((if ((lines.get key).getD []).erase p = [] then lines.del key
      else lines.set key (((lines.get key).getD []).erase p)).get k).getD [] =
      if k = key then ((lines.get k).getD []).erase p else (lines.get k).getD [] := by
  by_cases hempty : ((lines.get key).getD []).erase p = []
  · rw [if_pos hempty, GoMap.get_del]
    by_cases hk : k = key
    · rw [if_pos hk, if_pos hk, hk, hempty]
      rfl
    · rw [if_neg hk, if_neg hk]
  · rw [if_neg hempty, GoMap.get_set]
    by_cases hk : k = key
    · rw [if_pos hk, if_pos hk, hk]
      rfl
    · rw [if_neg hk, if_neg hk]

theorem keyLine_removeKey (m : Machine) (it : Item) (k : Bytes) :
    (m.removeKey it).keyLine k =
      if it.record.orderKey ≠ [] ∧ k = it.record.orderKey then (m.keyLine k).erase it.ptr
      else m.keyLine k := by
  unfold removeKey
  by_cases hkey : it.record.orderKey = []
  · simp [hkey]
  · simp only [ne_eq, hkey, not_false_eq_true, true_and]
    exact line_without m.byKey it.record.orderKey k it.ptr

theorem IndexedBut.remove (h : Indexed m) (hit : m.items.get it.record.id = some it) :
    Indexed (m.remove it) := by
  have hu := h.unlink hit rfl
  have hitems : ∀ (p : Ptr) (P : Item → Prop),
      (∃ it', (m.items.del it.record.id).get p.id = some it' ∧ it'.ptr = p ∧ P it') ↔
        p ≠ it.ptr ∧ ∃ it', m.items.get p.id = some it' ∧ it'.ptr = p ∧ P it' := by
    intro p P
    simp only [GoMap.get_del]
    constructor
    · rintro ⟨it', hit', hptr, hP⟩
      obtain ⟨hid, hit'⟩ := of_unless hit'
      exact ⟨fun hp => hid ((id_iff_ptr hit rfl hit' hptr).mpr hp), it', hit', hptr, hP⟩
    · rintro ⟨hne, it', hit', hptr, hP⟩
      exact ⟨it', by rw [if_neg fun hid => hne ((id_iff_ptr hit rfl hit' hptr).mp hid)]; exact hit',
        hptr, hP⟩
  let m₁ : Machine :=
    { m.unlink it with
      order := m.order.erase it.ptr
      items := m.items.del it.record.id
      bytes := m.bytes - it.size }
  have hline : ∀ k, (m₁.removeKey it).keyLine k =
      if it.record.orderKey ≠ [] ∧ k = it.record.orderKey then (m.keyLine k).erase it.ptr
      else m.keyLine k := by
    intro k
    have hsame : m₁.keyLine k = m.keyLine k := by
      rw [keyLine, (unlink_outside m it).2.2.2, keyLine]
    rw [keyLine_removeKey, hsame]
  -- the machine without the item, before a wake time is cleared
  have hgone : Indexed { m₁ with byKey := (m₁.removeKey it).byKey } := by
    refine ⟨h.asc.sublist erase_sublist, ?_, ?_, ?_, ?_, ?_, ?_, ?_, hu.group, ?_, ?_⟩
    · intro id it' hit'
      simp only [m₁, GoMap.get_del] at hit'
      obtain ⟨hid, hit'⟩ := of_unless hit'
      obtain ⟨hid', hmem⟩ := h.live id it' hit'
      refine ⟨hid', (mem_erase_of_ne ?_).mpr hmem⟩
      intro heq
      exact hid (hid'.symm.trans (congrArg Ptr.id heq))
    · intro p hp
      obtain ⟨hne, hmem⟩ := h.asc.nodup.mem_erase_iff.mp hp
      obtain ⟨x, hx, hptr⟩ := h.ptr p hmem
      obtain ⟨y, hy, hptr', -⟩ := (hitems p fun _ => True).mpr ⟨hne, x, hx, hptr, trivial⟩
      exact ⟨y, hy, hptr'⟩
    · intro p hp
      exact hu.seq_le p ((unlink_outside m it).2.1 ▸ mem_of_mem_erase hp)
    · intro id it' hit' hne
      simp only [m₁, GoMap.get_del] at hit'
      split at hit'
      · cases hit'
      · exact h.grp id it' hit' hne
    · intro s
      have hs := hu.shelf_asc s
      cases s <;> exact hs
    · intro s x hx
      have hs := hu.shelf_hint s x
      cases s <;> exact hs hx
    · intro s p
      refine Iff.trans (b := p ∈ (m.unlink it).shelf s) (by cases s <;> exact Iff.rfl) ?_
      rw [hu.shelf_mem s p, get_unlink, hitems p fun it' => it'.record.shelf = s]
      simp
    · intro k
      refine (hline k).symm ▸ ?_
      split
      · exact (h.key_asc k).sublist erase_sublist
      · exact h.key_asc k
    · intro k p
      refine (hline k).symm ▸ ?_
      rw [hitems p fun it' => it'.record.orderKey = k]
      by_cases hk : it.record.orderKey ≠ [] ∧ k = it.record.orderKey
      · rw [if_pos hk, (h.key_asc k).nodup.mem_erase_iff, h.key_mem k p]
        tauto
      · rw [if_neg hk, h.key_mem k p]
        refine and_congr_right fun hne => ?_
        refine ⟨fun hex => ⟨?_, hex⟩, fun hex => hex.2⟩
        rintro rfl
        obtain ⟨it', hit', hptr, rfl⟩ := hex
        obtain rfl := Option.some.inj (hit'.symm.trans hit)
        exact hk ⟨hne, rfl⟩
  change Indexed (m₁.removeKey it)
  rcases removeKey_cases m₁ it with heq | ⟨dep, heq⟩
  · rw [heq]
    exact hgone
  · rw [heq]
    exact hgone.clearWake dep

theorem IndexedBut.insert {r : Record} (h : Indexed m)
    (hseq : (m.items.get r.id).isSome ∨ m.seq < r.seq) : Indexed (m.insert r) := by
  unfold Machine.insert
  split
  · exact h
  · next hnew =>
    refine h.insertItem (by simpa [Item.new] using hnew) ?_ r.size
    exact hseq.resolve_left hnew

theorem IndexedBut.insertOffloaded {r : Record} (h : Indexed m)
    (hseq : (m.items.get r.id).isSome ∨ m.seq < r.seq) (body : BlobRef) :
    Indexed (m.insertOffloaded r body) := by
  unfold Machine.insertOffloaded
  split
  · exact h
  · next hnew =>
    refine h.insertItem (by simpa [offloadedItem, Item.new, strip] using hnew) ?_ r.size
    exact hseq.resolve_left hnew

end Records

section Operations

variable {m : Machine} {it : Item}

section

variable (h : Indexed m)
include h

theorem IndexedBut.reserve (hit : m.items.get it.record.id = some it) : Indexed (m.reserve it) := by
  exact h.store hit rfl

theorem IndexedBut.unreserve (hit : m.items.get it.record.id = some it) :
    Indexed (m.unreserve it) := by
  have hstore : Indexed (m.store { it with reserved := false }) := h.store hit rfl
  unfold Machine.unreserve
  split
  · exact h
  · split
    · exact hstore
    · next dep _ => exact hstore.clearWake dep

theorem IndexedBut.grantOne (hit : m.items.get it.record.id = some it)
    (token : Bytes) (expires : Time) : Indexed (m.grantOne it token expires) := by
  have hsig : it.sig = Item.sig { it with token := token, leaseUntil := expires } := rfl
  refine IndexedBut.update ?_ _ fun _ => rfl
  refine IndexedBut.move h ?_ hsig _ _
  exact hit

theorem IndexedBut.grant (picked : List (Ptr × Bytes)) (now : Time) (ttl : Int) :
    Indexed (m.grant picked now ttl) := by
  unfold Machine.grant
  induction picked generalizing m with
  | nil => exact h
  | cons x picked ih =>
    simp only [foldl_cons]
    cases hit : m.items.get x.1.id with
    | none => exact ih h
    | some it =>
      have hid := (h.live _ it hit).1
      exact ih (h.grantOne (by rw [hid]; exact hit) x.2 (now + ttl))

theorem IndexedBut.setCheckpoint (id : Bytes) (cp : Option Bytes) :
    Indexed (m.setCheckpoint id cp) := by
  refine IndexedBut.resize ?_ id
  exact h.update id fun _ => rfl

theorem IndexedBut.setCheckpointRef (id : Bytes) (n : Nat) (ref : BlobRef) :
    Indexed (m.setCheckpointRef id n ref) := by
  refine IndexedBut.resize ?_ id
  exact h.update id fun _ => rfl

theorem IndexedBut.applyNack (hit : m.items.get it.record.id = some it)
    (stamp next : Time) (errText blockedOn : Bytes) (refund : Bool) :
    Indexed (m.applyNack it stamp next errText blockedOn refund) := by
  refine IndexedBut.resize ?_ it.record.id
  exact (h.move hit rfl _ _).update _ fun _ => rfl

theorem IndexedBut.applyRelease (hit : m.items.get it.record.id = some it) :
    Indexed (m.applyRelease it) :=
  (h.move hit rfl _ _).update _ fun _ => rfl

theorem IndexedBut.applyPark (hit : m.items.get it.record.id = some it)
    (stamp : Time) (reason : Bytes) : Indexed (m.applyPark it stamp reason) := by
  refine IndexedBut.resize ?_ it.record.id
  exact (h.move hit rfl _ _).update _ fun _ => rfl

theorem IndexedBut.applyRequeue (hit : m.items.get it.record.id = some it)
    (replace : Bool) (cp : Option Bytes) : Indexed (m.applyRequeue it replace cp) := by
  have hmove : Indexed ((m.move it .pending it.record.blockedOn).update it.record.id fun it =>
      { it with record := { it.record with attempts := 0, nextAttempt := zeroTime } }) :=
    (h.move hit rfl _ _).update _ fun _ => rfl
  unfold Machine.applyRequeue
  split
  · exact hmove.setCheckpoint _ cp
  · exact hmove

end

theorem scanGroup_group (m : Machine) (g : Group) (now : Time) (max : Int) :
    ∃ wake, (m.scanGroup g now max).2 = { g with wake := wake } := by
  unfold scanGroup
  split
  · exact ⟨_, rfl⟩
  · exact ⟨g.wake, rfl⟩

/-- What every scan of a group keeps, `selectLease` keeps. -/
theorem selectLease_keeps {P : Machine → Prop} {now : Time} {req : LeaseRequest} (h : P m)
    (hscan : ∀ {m dep g}, P m → m.groups.get dep = some g →
      P { m with groups := m.groups.set dep (m.scanGroup g now req.max).2 })
    (ord : List Bytes) : P (m.selectLease ord now req).1 := by
  refine List.foldlRecOn (motive := fun x : Machine × List (List Ptr) => P x.1) _ _ h ?_
  intro x hx dep _
  unfold Machine.consider
  split
  · exact hx
  · next g hg =>
    split
    · exact hx
    · split
      · exact hx
      · exact hscan hx hg

theorem IndexedBut.selectLease (h : Indexed m)
    (ord : List Bytes) (now : Time) (req : LeaseRequest) :
    Indexed (m.selectLease ord now req).1 := by
  refine selectLease_keeps h ?_ ord
  intro m dep g h hg
  obtain ⟨wake, hwake⟩ := scanGroup_group m g now req.max
  rw [hwake]
  exact h.setWake hg wake

end Operations

end Machine

end Dlq
end GoGuard
