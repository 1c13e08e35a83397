import Mathlib.Data.List.Perm.Basic
import Mathlib.Data.List.Nodup
import Mathlib.Order.Basic
import Mathlib.Order.Nat
import Mathlib.Tactic.Common

/-!
# Lists in ascending order of a key

An index over numbered elements keeps them in lists ascending by number.  Such a
list is determined by its members, so two of them are compared by membership
alone.  The module gives the operations such indexes are made of: inserting
after a given element, as a doubly linked list does, and taking the smallest
heads out of several lists, as a merge of candidates does.
-/

namespace GoGuard
namespace Lib

open List

universe u

section Ascending

variable {α : Type u} (key : α → Nat)

/-- The keys increase along the list. -/
def Ascending (l : List α) : Prop :=
  l.Pairwise fun a b => key a < key b

variable {key}

variable {l l₁ l₂ : List α} {a b : α}

theorem Ascending.nodup (h : Ascending key l) : l.Nodup :=
  h.imp fun {a b} hlt heq => by
    subst heq
    exact lt_irrefl _ hlt

/-- Elements with one key are one element. -/
theorem Ascending.eq_of_key_eq (h : Ascending key l) (ha : a ∈ l) (hb : b ∈ l)
    (hkey : key a = key b) : a = b := by
  induction l with
  | nil =>
    cases ha
  | cons x l ih =>
    obtain ⟨hx, hl⟩ := pairwise_cons.mp h
    rcases mem_cons.mp ha with rfl | ha'
    · rcases mem_cons.mp hb with rfl | hb'
      · rfl
      · exact absurd hkey (hx b hb').ne
    · rcases mem_cons.mp hb with rfl | hb'
      · exact absurd hkey (hx a ha').ne'
      · exact ih hl ha' hb'

/-- Ascending lists with the same members are the same list. -/
theorem Ascending.ext (h₁ : Ascending key l₁) (h₂ : Ascending key l₂)
    (hmem : ∀ a, a ∈ l₁ ↔ a ∈ l₂) : l₁ = l₂ := by
  have hperm : l₁.Perm l₂ := (perm_ext_iff_of_nodup h₁.nodup h₂.nodup).mpr hmem
  exact hperm.eq_of_pairwise (fun a b _ _ hab hba => absurd hab hba.asymm) h₁ h₂

theorem Ascending.sublist (h : Ascending key l₂) (hsub : l₁.Sublist l₂) : Ascending key l₁ :=
  List.Pairwise.sublist hsub h

/-- The head has the smallest key. -/
theorem Ascending.head_le (h : Ascending key (a :: l)) (hb : b ∈ a :: l) : key a ≤ key b := by
  rcases mem_cons.mp hb with rfl | hb
  · exact le_refl _
  · exact ((pairwise_cons.mp h).1 b hb).le

theorem Ascending.head?_le (h : Ascending key l) (ha : l.head? = some a) (hb : b ∈ l) :
    key a ≤ key b := by
  cases l with
  | nil => cases hb
  | cons x l =>
    obtain rfl := Option.some.inj ha
    exact h.head_le hb

/-- Appending an element with a larger key. -/
theorem Ascending.concat (h : Ascending key l) (hlt : ∀ b ∈ l, key b < key a) :
    Ascending key (l ++ [a]) := by
  refine pairwise_append.mpr ⟨h, pairwise_singleton _ _, ?_⟩
  intro b hb c hc
  obtain rfl := mem_singleton.mp hc
  exact hlt b hb

/-- What is above an element of the list is what stands behind it. -/
theorem Ascending.filter_above (h : Ascending key (l₁ ++ a :: l₂)) :
    ((l₁ ++ a :: l₂).filter fun b => key a < key b) = l₂ := by
  obtain ⟨-, hrest, hcross⟩ := pairwise_append.mp h
  obtain ⟨habove, -⟩ := pairwise_cons.mp hrest
  have hbefore : (l₁.filter fun b => key a < key b) = [] := by
    refine filter_eq_nil_iff.mpr ?_
    intro b hb hlt
    have hlt' : key b < key a := hcross b hb a mem_cons_self
    exact absurd (of_decide_eq_true hlt) hlt'.asymm
  have hbehind : (l₂.filter fun b => key a < key b) = l₂ := by
    refine filter_eq_self.mpr ?_
    intro b hb
    exact decide_eq_true (habove b hb)
  rw [filter_append, hbefore, nil_append,
    filter_cons_of_neg (by simp), hbehind]

/-- The gap behind the last element whose key is not above that of `a`. -/
theorem Ascending.gap_of_find_reverse {e : α} (hl : Ascending key l)
    (hfind : l.reverse.find? (fun x => !decide (key x > key a)) = some e) :
    e ∈ l ∧ key e ≤ key a ∧ ∀ x ∈ l, key x ≤ key e ∨ key a < key x := by
  obtain ⟨he, as, bs, hsplit, has⟩ := List.find?_eq_some_iff_append.mp hfind
  have hrev : l = bs.reverse ++ e :: as.reverse := by
    rw [← reverse_reverse l, hsplit]
    simp
  refine ⟨by simp [hrev], by simpa using he, ?_⟩
  intro x hx
  rw [hrev] at hx hl
  rcases mem_append.mp hx with hx | hx
  · obtain ⟨-, -, hbefore⟩ := pairwise_append.mp hl
    exact .inl (hbefore x hx e mem_cons_self).le
  · rcases mem_cons.mp hx with rfl | hx
    · exact .inl (le_refl _)
    · exact .inr (by simpa using has x (mem_reverse.mp hx))

end Ascending

section Linked

variable {α : Type u} [DecidableEq α] {key : α → Nat}

/-- The element after `h`. -/
def nextAfter (h : α) : List α → Option α
  | [] => none
  | x :: l => if x = h then l.head? else nextAfter h l

/-- `list.InsertAfter`: `a` goes right behind `h`. -/
def insertAfter (h a : α) : List α → List α
  | [] => []
  | x :: l => if x = h then x :: a :: l else x :: insertAfter h a l

variable {h a : α} {l l₁ l₂ : List α}

theorem insertAfter_append (hh : h ∉ l₁) :
    insertAfter h a (l₁ ++ h :: l₂) = l₁ ++ h :: a :: l₂ ∧
      nextAfter h (l₁ ++ h :: l₂) = l₂.head? := by
  induction l₁ with
  | nil => simp [insertAfter, nextAfter]
  | cons x l₁ ih =>
    simp only [mem_cons, not_or] at hh
    simp [insertAfter, nextAfter, Ne.symm hh.1, ih hh.2]

theorem mem_insertAfter (hh : h ∈ l) (b : α) : b ∈ insertAfter h a l ↔ b = a ∨ b ∈ l := by
  obtain ⟨l₁, l₂, rfl, hl₁⟩ := eq_append_cons_of_mem hh
  rw [(insertAfter_append hl₁).1]
  simp only [mem_append, mem_cons]
  tauto

/-- Inserting behind `h` keeps the order when no key lies between. -/
theorem Ascending.insertAfter (hl : Ascending key l) (hh : h ∈ l) (hlt : key h < key a)
    (hgap : ∀ x ∈ l, key x ≤ key h ∨ key a < key x) : Ascending key (insertAfter h a l) := by
  obtain ⟨l₁, l₂, rfl, hl₁⟩ := eq_append_cons_of_mem hh
  rw [(insertAfter_append hl₁).1]
  obtain ⟨hbefore, hbehind, hcross⟩ := pairwise_append.mp hl
  obtain ⟨hh₂, hl₂⟩ := pairwise_cons.mp hbehind
  have ha₂ : ∀ b ∈ l₂, key a < key b := fun b hb =>
    (hgap b (by simp [hb])).resolve_left (hh₂ b hb).not_ge
  refine pairwise_append.mpr ⟨hbefore, ?_, ?_⟩
  · exact pairwise_cons.mpr ⟨forall_mem_cons.mpr ⟨hlt, hh₂⟩, pairwise_cons.mpr ⟨ha₂, hl₂⟩⟩
  · intro b hb
    obtain ⟨hbh, hb₂⟩ := forall_mem_cons.mp (hcross b hb)
    exact forall_mem_cons.mpr ⟨hbh, forall_mem_cons.mpr ⟨hbh.trans hlt, hb₂⟩⟩

/-- The gap behind `h` as seen from its successor. -/
theorem Ascending.gap_of_nextAfter (hl : Ascending key l) (hh : h ∈ l)
    (hnext : ∀ x, nextAfter h l = some x → key a < key x) :
    ∀ x ∈ l, key x ≤ key h ∨ key a < key x := by
  obtain ⟨l₁, l₂, rfl, hl₁⟩ := eq_append_cons_of_mem hh
  rw [(insertAfter_append (a := a) hl₁).2] at hnext
  obtain ⟨-, hbehind, hcross⟩ := pairwise_append.mp hl
  intro x hx
  rcases mem_append.mp hx with hx | hx
  · exact .inl (hcross x hx h mem_cons_self).le
  · rcases mem_cons.mp hx with rfl | hx
    · exact .inl (le_refl _)
    · cases l₂ with
      | nil => cases hx
      | cons z l₂ =>
        have hz : Ascending key (z :: l₂) := (pairwise_cons.mp hbehind).2
        exact .inr ((hnext z rfl).trans_le (hz.head_le hx))

end Linked

section Merge

variable {α : Type u} (key : α → Nat)

/-- The position and the value of the smallest head among the lists, given the
best one found so far. -/
def bestHead (i : Nat) (best : Option (Nat × α)) : List (List α) → Option (Nat × α)
  | [] => best
  | [] :: ls => bestHead (i + 1) best ls
  | (a :: _) :: ls =>
    match best with
    | none => bestHead (i + 1) (some (i, a)) ls
    | some (j, b) =>
      if key a < key b then bestHead (i + 1) (some (i, a)) ls
      else bestHead (i + 1) (some (j, b)) ls

/-- Take the smallest head `n` times, or until the lists are empty. -/
def mergeHeads : Nat → List (List α) → List α
  | 0, _ => []
  | n + 1, ls =>
    match bestHead key 0 none ls with
    | none => []
    | some (i, a) => a :: mergeHeads n (ls.modify i List.tail)

variable {key}

variable {i n : Nat} {best : Option (Nat × α)} {ls : List (List α)} {a : α} {p : List α × List α}

theorem bestHead_eq_none (h : bestHead key i best ls = none) : best = none ∧ ∀ l ∈ ls, l = [] := by
  induction ls generalizing i best with
  | nil =>
    exact ⟨h, by simp⟩
  | cons l ls ih =>
    cases l with
    | nil =>
      obtain ⟨hbest, hall⟩ := ih h
      exact ⟨hbest, by simpa using hall⟩
    | cons a l =>
      unfold bestHead at h
      split at h
      · cases (ih h).1
      · split at h
        · cases (ih h).1
        · cases (ih h).1

/-- The chosen head is a head of its list, or was there before, and no head is
smaller. -/
theorem bestHead_eq_some {j : Nat} (h : bestHead key i best ls = some (j, a)) :
    (best = some (j, a) ∨ ∃ l, i ≤ j ∧ ls[j - i]? = some (a :: l)) ∧
    (∀ b, best = some b → key a ≤ key b.2) ∧
    ∀ l ∈ ls, ∀ b ∈ l.head?, key a ≤ key b := by
  induction ls generalizing i best with
  | nil =>
    refine ⟨.inl h, ?_, by simp⟩
    rintro b hb
    obtain rfl := Option.some.inj (hb.symm.trans h)
    exact le_refl _
  | cons l ls ih =>
    -- what the recursive call says about the lists behind the first one
    have hshift : ∀ {best' : Option (Nat × α)},
        bestHead key (i + 1) best' ls = some (j, a) →
        (best' = some (j, a) ∨ ∃ l', i ≤ j ∧ (l :: ls)[j - i]? = some (a :: l')) ∧
        (∀ b, best' = some b → key a ≤ key b.2) ∧
        ∀ l' ∈ ls, ∀ b ∈ l'.head?, key a ≤ key b := by
      intro best' h'
      obtain ⟨hat, hbest, hall⟩ := ih h'
      refine ⟨hat.imp id ?_, hbest, hall⟩
      rintro ⟨l', hij, hget⟩
      refine ⟨l', by omega, ?_⟩
      have hsub : j - i = (j - (i + 1)) + 1 := by omega
      rw [hsub, List.getElem?_cons_succ]
      exact hget
    cases l with
    | nil =>
      obtain ⟨hat, hbest, hall⟩ := hshift h
      exact ⟨hat, hbest, by simpa using hall⟩
    | cons x l =>
      -- the head of this list becomes the best one, or the best one stays
      obtain ⟨best', hnext, hbest'⟩ : ∃ best', bestHead key (i + 1) best' ls = some (j, a) ∧
          (best' = some (i, x) ∧ (∀ b, best = some b → key x ≤ key b.2) ∨
            best' = best ∧ ∃ b, best = some b ∧ key b.2 ≤ key x) := by
        unfold bestHead at h
        split at h
        · exact ⟨_, h, .inl ⟨rfl, by simp⟩⟩
        · split at h
          · next hlt => exact ⟨_, h, .inl ⟨rfl, by simpa using hlt.le⟩⟩
          · next hge => exact ⟨_, h, .inr ⟨rfl, _, rfl, not_lt.mp hge⟩⟩
      obtain ⟨hat, hbest, hall⟩ := hshift hnext
      have hhead : key a ≤ key x := by
        rcases hbest' with ⟨rfl, -⟩ | ⟨rfl, b, hb, hle⟩
        · exact hbest _ rfl
        · exact (hbest b hb).trans hle
      refine ⟨?_, ?_, ?_⟩
      · rcases hbest' with ⟨rfl, -⟩ | ⟨rfl, -⟩
        · refine .inr (hat.elim ?_ id)
          intro heq
          cases heq
          exact ⟨l, by simp⟩
        · exact hat
      · intro b hb
        rcases hbest' with ⟨-, hle⟩ | ⟨rfl, -⟩
        · exact hhead.trans (hle b hb)
        · exact hbest b hb
      · intro l' hl' b hb
        rcases mem_cons.mp hl' with rfl | hl'
        · cases hb
          exact hhead
        · exact hall l' hl' b hb

/-- A list of candidates is usable for `n` picks from the list it is taken
from: it is all of it, or at least its first `n` elements. -/
def Covers (n : Nat) (p : List α × List α) : Prop :=
  p.1 <+: p.2 ∧ (p.1 = p.2 ∨ n ≤ p.1.length)

theorem Covers.tail (h : Covers (n + 1) p) : Covers n (p.1.tail, p.2.tail) := by
  obtain ⟨⟨rest, hrest⟩, hlen⟩ := h
  cases hp : p.1 with
  | nil =>
    rcases hlen with heq | hlen
    · rw [hp] at heq
      exact ⟨by simp [← heq], .inl (by simp [← heq])⟩
    · rw [hp] at hlen
      simp at hlen
  | cons a l =>
    rw [hp] at hrest hlen
    refine ⟨⟨rest, by simp [← hrest]⟩, ?_⟩
    rcases hlen with heq | hlen
    · exact .inl (by simp [← heq])
    · exact .inr (by simpa using hlen)

theorem Covers.mono {k : Nat} (h : Covers k p) (hle : n ≤ k) : Covers n p :=
  ⟨h.1, h.2.imp id hle.trans⟩

/-- Taking one head away from one of the lists. -/
theorem perm_flatten_modify_tail {l : List α} (hget : ls[i]? = some (a :: l)) :
    ls.flatten.Perm (a :: (ls.modify i List.tail).flatten) := by
  induction ls generalizing i with
  | nil =>
    simp at hget
  | cons x ls ih =>
    cases i with
    | zero =>
      simp only [List.getElem?_cons_zero, Option.some.injEq] at hget
      subst hget
      simp
    | succ i =>
      simp only [List.getElem?_cons_succ] at hget
      simp only [modify_succ_cons, flatten_cons]
      exact ((ih hget).append_left x).trans perm_middle

/-- What a merge takes, it takes once from one of the lists. -/
theorem mergeHeads_subperm (f : α → Nat) (n : Nat) (ls : List (List α)) :
    (mergeHeads f n ls).Subperm ls.flatten := by
  induction n generalizing ls with
  | zero => exact nil_subperm
  | succ n ih =>
    unfold mergeHeads
    split
    · exact nil_subperm
    · next i a hbest =>
      obtain ⟨hbest | ⟨l, -, hget⟩, -⟩ := bestHead_eq_some hbest
      · cases hbest
      · exact ((subperm_cons a).mpr (ih (ls.modify i List.tail))).trans
          (perm_flatten_modify_tail hget).symm.subperm

theorem length_mergeHeads_le (n : Nat) (ls : List (List α)) : (mergeHeads key n ls).length ≤ n := by
  induction n generalizing ls with
  | zero => exact Nat.le_refl 0
  | succ n ih =>
    unfold mergeHeads
    split
    · exact Nat.zero_le _
    · exact Nat.succ_le_succ (ih _)

theorem mem_mergeHeads (h : a ∈ mergeHeads key n ls) : ∃ l ∈ ls, a ∈ l :=
  mem_flatten.mp ((mergeHeads_subperm key n ls).subset h)

theorem map_modify {β : Type u} {f : α → α} {g : α → β} {k : β → β} (h : ∀ x, g (f x) = k (g x))
    (l : List α) (i : Nat) : (l.modify i f).map g = (l.map g).modify i k := by
  induction l generalizing i with
  | nil => simp
  | cons x l ih => cases i <;> simp [h, ih]

theorem forall_mem_modify {P : α → Prop} {f : α → α} {l : List α} (h : ∀ x ∈ l, P x ∧ P (f x))
    (i : Nat) : ∀ x ∈ l.modify i f, P x := by
  induction l generalizing i with
  | nil => simp
  | cons x l ih =>
    obtain ⟨hx, hl⟩ := forall_mem_cons.mp h
    cases i with
    | zero => exact forall_mem_cons.mpr ⟨hx.2, fun y hy => (hl y hy).1⟩
    | succ i => exact forall_mem_cons.mpr ⟨hx.1, ih hl i⟩

/-- Merging candidate lists gives the first elements of their ordered union. -/
theorem mergeHeads_eq_take {ps : List (List α × List α)} {union : List α}
    (hunion : Ascending key union) (hperm : union.Perm (ps.map Prod.snd).flatten)
    (hasc : ∀ p ∈ ps, Ascending key p.2) (hcov : ∀ p ∈ ps, Covers n p) :
    mergeHeads key n (ps.map Prod.fst) = union.take n := by
  induction n generalizing ps union with
  | zero =>
    simp [mergeHeads]
  | succ n ih =>
    unfold mergeHeads
    split
    · next hnone =>
      -- every candidate list is empty, so every list is
      obtain ⟨-, hempty⟩ := bestHead_eq_none hnone
      have hsnd : ∀ l ∈ ps.map Prod.snd, l = [] := by
        intro l hl
        obtain ⟨p, hp, rfl⟩ := mem_map.mp hl
        have hfst := hempty p.1 (mem_map.mpr ⟨p, hp, rfl⟩)
        rcases (hcov p hp).2 with heq | hlen
        · rw [← heq, hfst]
        · rw [hfst] at hlen
          simp at hlen
      have hflat : (ps.map Prod.snd).flatten = [] :=
        flatten_eq_nil_iff.mpr hsnd
      rw [hflat] at hperm
      rw [hperm.eq_nil]
      rfl
    · next i a hsome =>
      obtain ⟨hat, -, hmin⟩ := bestHead_eq_some hsome
      obtain ⟨l, -, hget⟩ := hat.resolve_left (by simp)
      simp only [Nat.sub_zero, List.getElem?_map, Option.map_eq_some_iff] at hget
      obtain ⟨p, hp, hpfst⟩ := hget
      have hpmem : p ∈ ps := mem_of_getElem? hp
      obtain ⟨rest, hrest⟩ := (hcov p hpmem).1
      have hpsnd : (ps.map Prod.snd)[i]? = some (a :: (l ++ rest)) := by
        simp [hp, ← hrest, hpfst]
      -- the chosen head is the smallest element of all
      have hle : ∀ b ∈ union, key a ≤ key b := by
        intro b hb
        obtain ⟨l', hl', hbl'⟩ := mem_flatten.mp (hperm.mem_iff.mp hb)
        obtain ⟨q, hq, rfl⟩ := mem_map.mp hl'
        obtain ⟨rest', hrest'⟩ := (hcov q hq).1
        cases hqfst : q.1 with
        | nil =>
          rcases (hcov q hq).2 with heq | hlen
          · rw [← heq, hqfst] at hbl'
            cases hbl'
          · rw [hqfst] at hlen
            simp at hlen
        | cons c tail =>
          have hac : key a ≤ key c :=
            hmin q.1 (mem_map.mpr ⟨q, hq, rfl⟩) c (by simp [hqfst])
          have hqasc := hasc q hq
          rw [← hrest', hqfst, cons_append] at hqasc hbl'
          exact hac.trans (hqasc.head_le hbl')
      have hamem : a ∈ union :=
        hperm.mem_iff.mpr (mem_flatten.mpr
          ⟨_, mem_of_getElem? hpsnd, mem_cons_self⟩)
      obtain ⟨u, union', rfl⟩ := exists_cons_of_ne_nil (ne_nil_of_mem hamem)
      obtain rfl : u = a := by
        refine hunion.eq_of_key_eq mem_cons_self hamem ?_
        exact le_antisymm (hunion.head_le hamem) (hle u mem_cons_self)
      -- the chosen list loses its head on both sides
      have hmap {g : List α × List α → List α} (h : ∀ p, g (p.map tail tail) = (g p).tail) :=
        map_modify h ps i
      rw [take_succ_cons, ← hmap fun _ => rfl]
      congr 1
      refine ih (hunion.sublist (sublist_cons_self _ _)) ?_ ?_ ?_
      · rw [hmap fun _ => rfl]
        exact (hperm.trans (perm_flatten_modify_tail hpsnd)).cons_inv
      · exact forall_mem_modify (fun p hp => ⟨hasc p hp, (hasc p hp).sublist (tail_sublist _)⟩) i
      · exact forall_mem_modify (fun p hp => ⟨(hcov p hp).mono (Nat.le_succ n), (hcov p hp).tail⟩) i

end Merge

end Lib
end GoGuard
