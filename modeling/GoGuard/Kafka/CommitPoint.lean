import GoGuard.Kafka.Effects

/-!
# The commit point of a partition

What the history of a run says about one assigned partition: either nothing has
been accepted from it (`Fresh`), or from its first accepted offset up to the
frontier every message is safe, and so is every offset remembered above the
frontier (`Started`).  The lemmas here say how the two survive new events, a
message that is accepted and a frontier that moves.
-/

namespace GoGuard
namespace Kafka

open Lib Dlq List

section History

/-- The offset an event accepts for a partition and a generation. -/
def acceptedOffset (tp : TopicPartition) (gen : Nat) : Event → Option Nat
  | .accepted tp' gen' offset => if tp' = tp ∧ gen' = gen then some offset else none
  | _ => none

/-- The first offset accepted in an assignment. -/
def firstAccepted (hist : List Event) (tp : TopicPartition) (gen : Nat) : Option Nat :=
  (hist.filterMap (acceptedOffset tp gen)).head?

/-- The message was accepted in this assignment and finished as done, deferred
or parked, or was skipped as unstorable. -/
def SafeIn (hist : List Event) (tp : TopicPartition) (gen offset : Nat) : Prop :=
  .accepted tp gen offset ∈ hist ∧
    ((∃ res : Result, res.safe = true ∧ .finished tp gen offset res ∈ hist) ∨
      .skipped tp gen offset ∈ hist)

/-- A commit of `o` after `hist` is allowed: it belongs to an assignment, the
offsets from the first accepted one up to `o` are safe, and no commit of the
assignment was higher. -/
def CommitOk (hist : List Event) (tp : TopicPartition) (gen : Option Nat) (o : Int) : Prop :=
  ∃ g f, gen = some g ∧ firstAccepted hist tp g = some f ∧ (f : Int) ≤ o ∧
    (∀ i : Nat, f ≤ i → (i : Int) < o → SafeIn hist tp g i) ∧
    ∀ o' ok, .commit tp (some g) o' ok ∈ hist → o' ≤ o

/-- Every commit of a history was allowed when it was made. -/
def CommitsOk (hist : List Event) : Prop :=
  ∀ older newer tp gen o ok,
    hist = older ++ .commit tp gen o ok :: newer → CommitOk older tp gen o

/-- The generation an event belongs to. -/
def Event.gen? : Event → Option Nat
  | .accepted _ gen _ => some gen
  | .finished _ gen _ _ => some gen
  | .skipped _ gen _ => some gen
  | .commit _ gen _ _ => gen

variable {hist : List Event} {tp : TopicPartition} {gen : Nat}

theorem SafeIn.mono {offset : Nat} (h : SafeIn hist tp gen offset) (more : List Event) :
    SafeIn (hist ++ more) tp gen offset := by
  obtain ⟨hacc, hend⟩ := h
  refine ⟨mem_append_left _ hacc, ?_⟩
  rcases hend with ⟨res, hres, hfin⟩ | hskip
  · exact .inl ⟨res, hres, mem_append_left _ hfin⟩
  · exact .inr (mem_append_left _ hskip)

theorem firstAccepted_append {f : Nat} (h : firstAccepted hist tp gen = some f)
    (more : List Event) : firstAccepted (hist ++ more) tp gen = some f := by
  unfold firstAccepted at h ⊢
  rw [filterMap_append, List.head?_append, h]
  rfl

theorem filterMap_acceptedOffset_eq_nil (h : ∀ o, .accepted tp gen o ∉ hist) :
    hist.filterMap (acceptedOffset tp gen) = [] := by
  rw [filterMap_eq_nil_iff]
  intro e he
  cases e with
  | accepted tp' gen' o =>
    simp only [acceptedOffset]
    split
    · next heq =>
      obtain ⟨rfl, rfl⟩ := heq
      exact absurd he (h o)
    · rfl
  | finished _ _ _ _ => rfl
  | skipped _ _ _ => rfl
  | commit _ _ _ _ => rfl

/-- Extending a history by one event keeps `CommitsOk` if the event, when it is
a commit, is allowed. -/
theorem CommitsOk.snoc {e : Event} (h : CommitsOk hist)
    (he : ∀ tp gen o ok, e = .commit tp gen o ok → CommitOk hist tp gen o) :
    CommitsOk (hist ++ [e]) := by
  intro older newer tp gen o ok heq
  rcases eq_nil_or_concat newer with rfl | ⟨front, last, rfl⟩
  · have hlast := append_inj' heq rfl
    obtain ⟨rfl, hev⟩ := hlast
    simp only [List.cons.injEq, and_true] at hev
    exact he tp gen o ok hev
  · have hsplit :
        hist ++ [e] = (older ++ .commit tp gen o ok :: front) ++ [last] := by
      rw [heq]
      simp
    obtain ⟨hfront, -⟩ := append_inj' hsplit rfl
    exact h older front tp gen o ok hfront

end History

section PartitionInvariant

/-- A partition from which nothing has been accepted yet. -/
structure Fresh
    (hist : List Event) (safe : Option Int) (tp : TopicPartition) (p : Core) :
    Prop where
  next : p.next = -1
  frontier : p.frontier = -1
  completed : p.completed = ∅
  noSafe : safe = none
  accepted : ∀ o, .accepted tp p.gen o ∉ hist
  commits : ∀ o ok, .commit tp (some p.gen) o ok ∉ hist

/-- A partition whose first accepted offset is `f`. -/
structure Started
    (hist : List Event) (safe : Option Int) (tp : TopicPartition) (p : Core)
    (f : Nat) : Prop where
  first : firstAccepted hist tp p.gen = some f
  next : 0 ≤ p.next
  le : (f : Int) ≤ p.frontier
  below : ∀ i : Nat, f ≤ i → (i : Int) < p.frontier → SafeIn hist tp p.gen i
  done : ∀ x ∈ p.completed, ∃ i : Nat, x = i ∧ SafeIn hist tp p.gen i
  stops : p.frontier ∉ p.completed
  safe_eq : safe = if (f : Int) < p.frontier then some p.frontier else none
  commits : ∀ o ok, .commit tp (some p.gen) o ok ∈ hist → ∃ s, safe = some s ∧ o ≤ s

variable {hist : List Event} {safe : Option Int} {tp : TopicPartition} {p : Core} {f : Nat}
  {e : Event}

theorem Started.safe_le {o : Int} (h : Started hist safe tp p f) (ho : safe = some o) :
    (f : Int) ≤ o ∧ o ≤ p.frontier := by
  have heq := h.safe_eq
  rw [ho] at heq
  split at heq
  · cases heq
    exact ⟨h.le, le_refl _⟩
  · cases heq

def PartOk
    (hist : List Event) (safe : Option Int) (tp : TopicPartition) (p : Core) : Prop :=
  Fresh hist safe tp p ∨ ∃ f, Started hist safe tp p f

/-- The event accepts or commits for the partition in its current assignment. -/
def Event.touches (e : Event) (tp : TopicPartition) (gen : Nat) : Prop :=
  (∃ o, e = .accepted tp gen o) ∨ ∃ o ok, e = .commit tp (some gen) o ok

theorem Started.mono (h : Started hist safe tp p f) (e : Event)
    (he : ∀ o ok, e = .commit tp (some p.gen) o ok → ∃ s, safe = some s ∧ o ≤ s) :
    Started (hist ++ [e]) safe tp p f := by
  refine ⟨firstAccepted_append h.first _, h.next, h.le,
    fun i hi hlt => (h.below i hi hlt).mono _, ?_, h.stops, h.safe_eq, ?_⟩
  · intro x hx
    obtain ⟨i, hi, hsafe⟩ := h.done x hx
    exact ⟨i, hi, hsafe.mono _⟩
  · intro o ok hmem
    rcases mem_append.mp hmem with hold | hnew
    · exact h.commits o ok hold
    · exact he o ok (mem_singleton.mp hnew).symm

theorem Fresh.mono (h : Fresh hist safe tp p) (he : ¬ e.touches tp p.gen) :
    Fresh (hist ++ [e]) safe tp p := by
  refine ⟨h.next, h.frontier, h.completed, h.noSafe, ?_, ?_⟩
  · intro o hmem
    rcases mem_append.mp hmem with hold | hnew
    · exact h.accepted o hold
    · exact he (.inl ⟨o, (mem_singleton.mp hnew).symm⟩)
  · intro o ok hmem
    rcases mem_append.mp hmem with hold | hnew
    · exact h.commits o ok hold
    · exact he (.inr ⟨o, ok, (mem_singleton.mp hnew).symm⟩)

theorem PartOk.mono (h : PartOk hist safe tp p) (he : ¬ e.touches tp p.gen) :
    PartOk (hist ++ [e]) safe tp p := by
  rcases h with h | ⟨f, h⟩
  · exact .inl (h.mono he)
  · exact .inr ⟨f, h.mono e fun o ok heq => absurd (.inr ⟨o, ok, heq⟩) he⟩

theorem PartOk.started {o : Nat} (h : PartOk hist safe tp p) (hacc : .accepted tp p.gen o ∈ hist) :
    ∃ f, Started hist safe tp p f := by
  rcases h with h | h
  · exact absurd hacc (h.accepted o)
  · exact h

end PartitionInvariant

namespace Consumer

section Advancing

/-- The frontier moves over finished offsets only, and nothing else changes. -/
theorem advance_spec (n : Nat) (p : Partition) :
    (advance n p).gen = p.gen ∧ (advance n p).next = p.next ∧
    p.frontier ≤ (advance n p).frontier ∧
    (∀ x ∈ (advance n p).completed, x ∈ p.completed) ∧
    ∀ x, p.frontier ≤ x → x < (advance n p).frontier → x ∈ p.completed := by
  induction n generalizing p with
  | zero =>
    refine ⟨rfl, rfl, le_refl _, fun x hx => hx, ?_⟩
    intro x hle hlt
    simp only [advance] at hlt
    omega
  | succ n ih =>
    unfold advance
    split
    · next hmem =>
      obtain ⟨hgen, hnext, hle, hsub, hrun⟩ :=
        ih { p with
          completed := p.completed.erase p.frontier
          frontier := p.frontier + 1 }
      simp only at hgen hnext hle hsub hrun
      refine ⟨hgen, hnext, by omega, ?_, ?_⟩
      · intro x hx
        exact Finset.mem_of_mem_erase (hsub x hx)
      · intro x hx hlt
        by_cases heq : x = p.frontier
        · rw [heq]
          exact hmem
        · exact Finset.mem_of_mem_erase (hrun x (by omega) hlt)
    · refine ⟨rfl, rfl, le_refl _, fun x hx => hx, ?_⟩
      omega

/-- With enough rounds the frontier stops at an unfinished offset. -/
theorem advance_stops (n : Nat) (p : Partition) (hn : p.completed.card ≤ n) :
    (advance n p).frontier ∉ (advance n p).completed := by
  induction n generalizing p with
  | zero =>
    have hempty : p.completed = ∅ := Finset.card_eq_zero.mp (by omega)
    simp [advance, hempty]
  | succ n ih =>
    unfold advance
    split
    · next hmem =>
      refine ih _ ?_
      have hcard := Finset.card_erase_of_mem hmem
      simp only [hcard]
      omega
    · next hmem => exact hmem

theorem started_advanced
    {hist : List Event} {safe : Option Int} {tp : TopicPartition} {p : Partition} {f offset : Nat}
    (h : Started hist safe tp p.core f) (hoff : SafeIn hist tp p.gen offset) :
    Started hist
      (if (advanced p offset).frontier ≠ p.frontier
        then some (advanced p offset).frontier else safe)
      tp (advanced p offset).core f := by
  obtain ⟨hgen, hnext, hle, hsub, hrun⟩ :=
    advance_spec (insert (offset : Int) p.completed).card
      { p with completed := insert (offset : Int) p.completed }
  change (advanced p offset).gen = p.gen at hgen
  change (advanced p offset).next = p.next at hnext
  change p.frontier ≤ (advanced p offset).frontier at hle
  have hins : ∀ x ∈ insert (offset : Int) p.completed,
      ∃ i : Nat, x = i ∧ SafeIn hist tp p.gen i := by
    intro x hx
    rcases Finset.mem_insert.mp hx with rfl | hx
    · exact ⟨offset, rfl, hoff⟩
    · exact h.done x hx
  have hfle : (f : Int) ≤ p.frontier := h.le
  refine ⟨?_, ?_, ?_, ?_, ?_, ?_, ?_, ?_⟩
  · change firstAccepted hist tp (advanced p offset).gen = some f
    rw [hgen]
    exact h.first
  · change 0 ≤ (advanced p offset).next
    rw [hnext]
    exact h.next
  · exact le_trans hfle hle
  · intro i hi hlt
    change SafeIn hist tp (advanced p offset).gen i
    rw [hgen]
    by_cases hold : (i : Int) < p.frontier
    · exact h.below i hi hold
    · obtain ⟨j, hj, hsafe⟩ := hins i (hrun i (by simp only; omega) hlt)
      obtain rfl : i = j := by exact_mod_cast hj
      exact hsafe
  · intro x hx
    change ∃ i : Nat, x = i ∧ SafeIn hist tp (advanced p offset).gen i
    rw [hgen]
    exact hins x (hsub x hx)
  · exact advance_stops _ _ (le_refl _)
  · change _ = if (f : Int) < (advanced p offset).frontier
      then some (advanced p offset).frontier else none
    split
    · next hne => rw [if_pos (by omega)]
    · next heq =>
      rw [not_not.mp heq]
      exact h.safe_eq
  · intro o ok hmem
    change .commit tp (some (advanced p offset).gen) o ok ∈ hist at hmem
    rw [hgen] at hmem
    obtain ⟨s, hs, hos⟩ := h.commits o ok hmem
    have hsle : s ≤ p.frontier := (h.safe_le hs).2
    split
    · exact ⟨_, rfl, le_trans hos (le_trans hsle hle)⟩
    · exact ⟨s, hs, hos⟩

end Advancing

section Accepting

variable {hist : List Event} {safe : Option Int} {tp : TopicPartition} {p : Partition}

theorem started_reach {f : Nat} (h : Started hist safe tp p.core f) (offset : Nat) :
    Started hist safe tp (p.reach offset).core f := by
  have hnext : ¬ p.next < 0 := not_lt.mpr h.next
  have hfront : (p.reach offset).frontier = p.frontier := if_neg hnext
  refine ⟨h.first, ?_, ?_, ?_, h.done, ?_, ?_, h.commits⟩
  · change (0 : Int) ≤ offset + 1
    omega
  · change (f : Int) ≤ (p.reach offset).frontier
    rw [hfront]
    exact h.le
  · change ∀ i : Nat, f ≤ i → (i : Int) < (p.reach offset).frontier → _
    rw [hfront]
    exact h.below
  · change (p.reach offset).frontier ∉ p.completed
    rw [hfront]
    exact h.stops
  · change safe = if (f : Int) < (p.reach offset).frontier
      then some (p.reach offset).frontier else none
    rw [hfront]
    exact h.safe_eq

theorem fresh_reach (h : Fresh hist safe tp p.core) (offset : Nat) :
    Started (hist ++ [.accepted tp p.gen offset]) safe tp (p.reach offset).core
      offset := by
  have hnext : p.next < 0 := by
    have : p.next = -1 := h.next
    omega
  have hfront : (p.reach offset).frontier = offset := if_pos hnext
  have hcompleted : p.completed = ∅ := h.completed
  refine ⟨?_, ?_, ?_, ?_, ?_, ?_, ?_, ?_⟩
  · change firstAccepted _ tp p.gen = _
    have hnil : hist.filterMap (acceptedOffset tp p.gen) = [] :=
      filterMap_acceptedOffset_eq_nil h.accepted
    unfold firstAccepted
    rw [filterMap_append, hnil]
    simp [acceptedOffset]
  · change (0 : Int) ≤ offset + 1
    omega
  · change (offset : Int) ≤ (p.reach offset).frontier
    rw [hfront]
  · intro i hi hlt
    change (i : Int) < (p.reach offset).frontier at hlt
    omega
  · intro x hx
    change x ∈ p.completed at hx
    simp [hcompleted] at hx
  · change (p.reach offset).frontier ∉ p.completed
    simp [hcompleted]
  · change safe = if (offset : Int) < (p.reach offset).frontier
      then some (p.reach offset).frontier else none
    rw [hfront, if_neg (lt_irrefl _)]
    exact h.noSafe
  · intro o ok hmem
    rcases mem_append.mp hmem with hold | hnew
    · exact absurd hold (h.commits o ok)
    · cases mem_singleton.mp hnew

end Accepting

end Consumer

end Kafka
end GoGuard
