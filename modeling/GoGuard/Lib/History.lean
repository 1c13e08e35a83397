import Mathlib.Data.List.Induction

/-!
# Histories in which every event has its reasons

A history lists events, oldest first.  `Justified P` says that each event meets
`P` with respect to the events before it, which covers both what must have
happened earlier and what an earlier event forbids.
-/

namespace GoGuard
namespace Lib

open List

universe u

section Justified

variable {α : Type u} {P : List α → α → Prop}

/-- Every event of the history is allowed by what came before it. -/
def Justified (P : List α → α → Prop) (hist : List α) : Prop :=
  ∀ pre e post, hist = pre ++ e :: post → P pre e

theorem justified_nil : Justified P [] := by
  intro pre e post h
  simp at h

/-- A history grows by an event that is allowed now. -/
theorem Justified.snoc {hist : List α} {e : α} (h : Justified P hist) (he : P hist e) :
    Justified P (hist ++ [e]) := by
  intro pre e' post heq
  rcases eq_nil_or_concat post with rfl | ⟨front, last, rfl⟩
  · obtain ⟨rfl, hlast⟩ := append_inj' heq rfl
    cases hlast
    exact he
  · have hsplit : hist ++ [e] = (pre ++ e' :: front) ++ [last] := by
      rw [heq]
      simp
    obtain ⟨hfront, -⟩ := append_inj' hsplit rfl
    exact h pre e' front hfront

/-- The beginning of a history. -/
theorem Justified.of_append {hist rest : List α} (h : Justified P (hist ++ rest)) :
    Justified P hist := by
  intro pre e post heq
  refine h pre e (post ++ rest) ?_
  rw [heq]
  simp

/-- A relation every event has to all earlier ones. -/
theorem Justified.pairwise {hist : List α} {R : α → α → Prop} (h : Justified P hist)
    (hR : ∀ pre e, P pre e → ∀ e' ∈ pre, R e' e) : hist.Pairwise R := by
  induction hist using List.reverseRecOn with
  | nil => exact List.Pairwise.nil
  | append_singleton hist e ih =>
    refine pairwise_append.mpr ⟨ih h.of_append, pairwise_singleton _ _, ?_⟩
    intro e' he' x hx
    rw [mem_singleton.mp hx]
    exact hR hist e (h hist e [] rfl) e' he'

end Justified

end Lib
end GoGuard
