import Mathlib.Data.List.Basic

/-!
# Runs of a labelled transition function

A concurrent component is modelled by a partial step function: a label says
which party moves and what the environment answers, and the step is `none`
when that move is not enabled.  A run is a list of labels.  This module holds
the rules every development over such a function needs: how runs compose, how
an invariant is carried along a run, and how it is carried along a run all of
whose steps meet a side condition.
-/

namespace GoGuard
namespace Lib

universe u v

section Ends

variable {σ : Type u} {τ : Type v} {ε : Type u}

/-- What holds where a computation ends can be decided by evaluating it. -/
instance decidableExistsSome (o : Option τ) (P : τ → Prop) [DecidablePred P] :
    Decidable (∃ t, o = some t ∧ P t) :=
  match o with
  | none => isFalse fun ⟨_, h, _⟩ => nomatch h
  | some t => decidable_of_iff (P t) ⟨fun h => ⟨t, rfl, h⟩, fun ⟨_, h, hP⟩ => by cases h; exact hP⟩

instance decidableExistsNext (o : Option σ) (f : σ → Option τ) (P : σ → τ → Prop)
    [∀ s t, Decidable (P s t)] : Decidable (∃ s t, o = some s ∧ f s = some t ∧ P s t) :=
  decidable_of_iff (∃ s, o = some s ∧ ∃ t, f s = some t ∧ P s t)
    (exists_congr fun _ => exists_and_left.symm)

instance decidableExistsOk (r : Except ε τ) (P : τ → Prop) [DecidablePred P] :
    Decidable (∃ t, r = .ok t ∧ P t) :=
  match r with
  | .error _ => isFalse fun ⟨_, h, _⟩ => nomatch h
  | .ok t => decidable_of_iff (P t) ⟨fun h => ⟨t, rfl, h⟩, fun ⟨_, h, hP⟩ => by cases h; exact hP⟩

instance decidableExistsError (r : Except ε τ) : Decidable (∃ e, r = .error e) :=
  match r with
  | .error e => isTrue ⟨e, rfl⟩
  | .ok _ => isFalse fun ⟨_, h⟩ => nomatch h

end Ends

section Runs

variable {σ : Type u} {α : Type v}
variable (step : σ → α → Option σ)

/-- Execute a list of labels, stopping at the first one that is not enabled. -/
def run (s : σ) : List α → Option σ
  | [] => some s
  | a :: as =>
    match step s a with
    | none => none
    | some t => run t as

@[simp] theorem run_nil (s : σ) : run step s [] = some s := by
  rfl

section Passed

variable {p : Prop} [Decidable p] {bad x y : σ}

/-- A check that ends with `bad` was passed if the end is another one. -/
theorem of_unless (h : (if p then bad else x) = y) (hbad : bad ≠ y := by simp) : ¬ p ∧ x = y := by
  split at h
  · exact absurd h hbad
  · next hp => exact ⟨hp, h⟩

theorem of_when (h : (if p then x else bad) = y) (hbad : bad ≠ y := by simp) : p ∧ x = y := by
  split at h
  · next hp => exact ⟨hp, h⟩
  · exact absurd h hbad

end Passed

/-- What a guarded move that was made says. -/
theorem of_guard {p : Prop} [Decidable p] {x y : σ}
    (h : (if p then some x else none) = some y) : p ∧ x = y := by
  simpa using h

theorem of_guard_not {p : Prop} [Decidable p] {x y : σ}
    (h : (if p then none else some x) = some y) : ¬ p ∧ x = y := by
  simpa using h

variable {s t : σ} {as bs : List α} {ok : σ → α → Prop}

theorem run_cons_eq_some {a : α} :
    run step s (a :: as) = some t
      ↔
    ∃ u, step s a = some u ∧ run step u as = some t := by
  cases h : step s a with
  | none =>
    simp [run, h]
  | some u =>
    simp [run, h]

theorem run_append_eq_some :
    run step s (as ++ bs) = some t
      ↔
    ∃ u, run step s as = some u ∧ run step u bs = some t := by
  induction as generalizing s with
  | nil =>
    simp
  | cons a as ih =>
    rw [List.cons_append, run_cons_eq_some]
    constructor
    · rintro ⟨v, hv, hrest⟩
      obtain ⟨u, hu, hbs⟩ := ih.mp hrest
      exact ⟨u, (run_cons_eq_some step).mpr ⟨v, hv, hu⟩, hbs⟩
    · rintro ⟨u, hu, hbs⟩
      obtain ⟨v, hv, hvu⟩ := (run_cons_eq_some step).mp hu
      exact ⟨v, hv, ih.mpr ⟨u, hvu, hbs⟩⟩

/-- The side condition `ok` holds at every step of the run of `as` from `s`. -/
def RunAll (ok : σ → α → Prop) (s : σ) : List α → Prop
  | [] => True
  | a :: as =>
    ok s a ∧ ∀ t, step s a = some t → RunAll ok t as

/-- A side condition that can be decided can be decided along a run. -/
instance decidableRunAll (ok : σ → α → Prop) [∀ s a, Decidable (ok s a)] :
    (s : σ) → (as : List α) → Decidable (RunAll step ok s as)
  | _, [] => isTrue trivial
  | s, a :: as =>
    match h : step s a with
    | none => decidable_of_iff (ok s a) (by simp [RunAll, h])
    | some t =>
      haveI := decidableRunAll ok t as
      decidable_of_iff (ok s a ∧ RunAll step ok t as) (by simp [RunAll, h])

/-- A condition on the labels alone. -/
theorem runAll_of_mem {ok : α → Prop} (h : ∀ a ∈ as, ok a) (s : σ) :
    RunAll step (fun _ a => ok a) s as := by
  induction as generalizing s with
  | nil => trivial
  | cons a as ih =>
    exact ⟨h a List.mem_cons_self, fun t _ => ih (fun b hb => h b (List.mem_cons_of_mem _ hb)) t⟩

/-- Two conditions that hold along a run hold together. -/
theorem RunAll.and {ok' : σ → α → Prop} (h : RunAll step ok s as) (h' : RunAll step ok' s as) :
    RunAll step (fun s a => ok s a ∧ ok' s a) s as := by
  induction as generalizing s with
  | nil => trivial
  | cons a as ih => exact ⟨⟨h.1, h'.1⟩, fun t ht => ih (h.2 t ht) (h'.2 t ht)⟩

/-- A condition that holds along a run holds along its beginning. -/
theorem RunAll.initial (h : RunAll step ok s bs) (hpre : as <+: bs) : RunAll step ok s as := by
  obtain ⟨rest, rfl⟩ := hpre
  induction as generalizing s with
  | nil => trivial
  | cons a as ih => exact ⟨h.1, fun t ht => ih (h.2 t ht)⟩

/-- A condition that holds along a run holds along the rest of it. -/
theorem RunAll.rest (h : RunAll step ok s (as ++ bs)) (hrun : run step s as = some t) :
    RunAll step ok t bs := by
  induction as generalizing s with
  | nil =>
    cases hrun
    exact h
  | cons a as ih =>
    obtain ⟨u, hu, hrest⟩ := (run_cons_eq_some step).mp hrun
    exact ih (h.2 u hu) hrest

/-- An invariant of every step that meets the side condition holds at the end
of every run whose steps all meet it. -/
theorem run_invariant_of {ok : σ → α → Prop} {I : σ → Prop}
    (hstep : ∀ s a t, ok s a → I s → step s a = some t → I t) {s t : σ} {as : List α}
    (hok : RunAll step ok s as) (hs : I s) (hrun : run step s as = some t) : I t := by
  induction as generalizing s with
  | nil =>
    simp only [run_nil, Option.some.injEq] at hrun
    exact hrun ▸ hs
  | cons a as ih =>
    obtain ⟨u, hu, hrest⟩ := (run_cons_eq_some step).mp hrun
    exact ih (hok.2 u hu) (hstep s a u hok.1 hs hu) hrest

/-- An invariant of every step holds at the end of every run. -/
theorem run_invariant {I : σ → Prop} (hstep : ∀ s a t, I s → step s a = some t → I t)
    {s t : σ} {as : List α} (hs : I s)
    (hrun : run step s as = some t) : I t := by
  induction as generalizing s with
  | nil =>
    simp only [run_nil, Option.some.injEq] at hrun
    exact hrun ▸ hs
  | cons a as ih =>
    obtain ⟨u, hu, hrest⟩ := (run_cons_eq_some step).mp hrun
    exact ih (hstep s a u hs hu) hrest

end Runs

end Lib
end GoGuard
