import Mathlib.Data.List.AList
import Mathlib.Algebra.BigOperators.Group.List.Basic
import Mathlib.Algebra.GroupWithZero.Nat

/-!
# Finite maps with Go's map operations

A Go map is an association list with pairwise distinct keys.  Lookup, store
and delete have the usual equations.  The order of `keys` is the order in which
a `range` loop happens to visit the map; nothing may depend on it, and code
whose result could depend on it takes the order as an argument.

`total` sums a measure over the values, for counters that the code keeps next
to a map.
-/

namespace GoGuard
namespace Lib

universe u v

/-- A Go map from `κ` to `α`. -/
def GoMap (κ : Type u) (α : Type v) : Type (max u v) :=
  AList (fun _ : κ => α)

namespace GoMap

open List

section Operations

variable {κ : Type u} {α : Type v}

instance [DecidableEq κ] [DecidableEq α] : DecidableEq (GoMap κ α) :=
  inferInstanceAs (DecidableEq (AList (fun _ : κ => α)))

/-- `make(map[κ]α)`. -/
def empty : GoMap κ α :=
  (∅ : AList (fun _ : κ => α))

/-- The keys, in some order. -/
def keys (m : GoMap κ α) : List κ :=
  AList.keys m

/-- The sum of a measure over all values. -/
def total (f : α → Nat) (m : GoMap κ α) : Nat :=
  (m.entries.map fun e => f e.2).sum

variable [DecidableEq κ]

/-- `v, ok := m[k]`. -/
def get (m : GoMap κ α) (k : κ) : Option α :=
  AList.lookup k m

/-- `m[k] = v`. -/
def set (m : GoMap κ α) (k : κ) (v : α) : GoMap κ α :=
  AList.insert k v m

/-- `delete(m, k)`. -/
def del (m : GoMap κ α) (k : κ) : GoMap κ α :=
  AList.erase k m

end Operations

section Lookup

variable {κ : Type u} {α : Type v}

theorem nodup_keys (m : GoMap κ α) : m.keys.Nodup :=
  AList.keys_nodup m

variable [DecidableEq κ]

@[simp] theorem get_empty (k : κ) : (empty : GoMap κ α).get k = none := by
  rfl

@[simp] theorem get_set (m : GoMap κ α) (k k' : κ) (v : α) :
    (m.set k v).get k' = if k' = k then some v else m.get k' := by
  by_cases h : k' = k
  · subst h
    rw [if_pos rfl]
    exact AList.lookup_insert (s := m)
  · rw [if_neg h]
    exact AList.lookup_insert_ne h

@[simp] theorem get_del (m : GoMap κ α) (k k' : κ) :
    (m.del k).get k' = if k' = k then none else m.get k' := by
  by_cases h : k' = k
  · subst h
    rw [if_pos rfl]
    exact AList.lookup_erase k' m
  · rw [if_neg h]
    exact AList.lookup_erase_ne h

theorem mem_keys_iff {m : GoMap κ α} {k : κ} : k ∈ m.keys ↔ ∃ v, m.get k = some v := by
  rw [← Option.isSome_iff_exists]
  exact (AList.lookup_isSome (s := m)).symm

end Lookup

section Total

variable {κ : Type u} {α : Type v}

variable [DecidableEq κ]

/-- Deleting a key takes its value out of the sum. -/
theorem total_del (f : α → Nat) (m : GoMap κ α) (k : κ) :
    (m.del k).total f + ((m.get k).map f).getD 0 = m.total f := by
  by_cases hk : k ∈ m.entries.keys
  · obtain ⟨v, l₁, l₂, hl₁, hentries, herase⟩ := exists_of_kerase hk
    have hget : m.get k = some v := by
      refine (mem_dlookup_iff m.nodupKeys).mpr ?_
      rw [hentries]
      simp
    have hdel : (m.del k).entries = l₁ ++ l₂ := herase
    rw [hget]
    simp only [total, hdel, hentries, map_append, map_cons,
      sum_append, sum_cons, Option.map_some, Option.getD_some]
    omega
  · have hget : m.get k = none := dlookup_eq_none.mpr hk
    have hdel : (m.del k).entries = m.entries := kerase_of_notMem_keys hk
    simp [total, hget, hdel]

/-- Storing under a key replaces its value in the sum. -/
theorem total_set (f : α → Nat) (m : GoMap κ α) (k : κ) (v : α) :
    (m.set k v).total f + ((m.get k).map f).getD 0 = m.total f + f v := by
  have hset : (m.set k v).total f = f v + (m.del k).total f := by
    rfl
  have hdel := total_del f m k
  omega

/-- A sum over the values is zero when every value measures zero. -/
theorem total_eq_zero {f : α → Nat} {m : GoMap κ α} (h : ∀ k v, m.get k = some v → f v = 0) :
    m.total f = 0 := by
  refine sum_eq_zero ?_
  intro n hn
  obtain ⟨e, he, rfl⟩ := mem_map.mp hn
  exact h e.1 e.2 ((mem_dlookup_iff m.nodupKeys).mpr he)

end Total

end GoMap

end Lib
end GoGuard
