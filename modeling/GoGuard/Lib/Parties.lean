import Mathlib.Data.List.Perm.Subperm

/-!
# Parties in a list

Goroutines of a concurrent component are kept in a list, each as its local state.  A party
that moves is set at its place.  What the component knows about its parties is a count of
those in some phase (`countP`), or the labels of those in some phase (`filterMap`).  This
module says how both change when one party moves.
-/

namespace GoGuard
namespace Lib

open List

universe u v

section Moving

variable {α : Type u} {β : Type v} {l : List α} {i : Nat} {x : α}

theorem countP_set (q : α → Bool) (y : α) (hx : l[i]? = some x) :
    (l.set i y).countP q + (q x).toNat = l.countP q + (q y).toNat := by
  induction l generalizing i with
  | nil => cases hx
  | cons z l ih =>
    cases i with
    | zero =>
      cases hx
      simp only [set_cons_zero, countP_cons]
      cases hqx : q x <;> cases hqy : q y <;> simp
    | succ i =>
      have hrest := ih (i := i) hx
      simp only [set_cons_succ, countP_cons]
      omega

/-- The party keeps its label. -/
theorem filterMap_set_same {f : α → Option β} {y : α} (hx : l[i]? = some x) (hsame : f y = f x) :
    (l.set i y).filterMap f = l.filterMap f := by
  induction l generalizing i with
  | nil => cases hx
  | cons z l ih =>
    cases i with
    | zero =>
      cases hx
      simp only [set_cons_zero, filterMap_cons, hsame]
    | succ i => simp only [set_cons_succ, filterMap_cons, ih (i := i) hx]

/-- The party gives its label up. -/
theorem filterMap_set_none {f : α → Option β} {y : α} {b : β} (hx : l[i]? = some x)
    (hfx : f x = some b) (hfy : f y = none) :
    (l.filterMap f).Perm (b :: (l.set i y).filterMap f) := by
  induction l generalizing i with
  | nil => cases hx
  | cons z l ih =>
    cases i with
    | zero =>
      cases hx
      simp only [set_cons_zero, filterMap_cons, hfx, hfy]
      exact List.Perm.refl _
    | succ i =>
      have hrest := ih (i := i) hx
      simp only [set_cons_succ, filterMap_cons]
      cases hz : f z with
      | none => exact hrest
      | some c => exact (hrest.cons c).trans (List.Perm.swap b c _)

end Moving

end Lib
end GoGuard
