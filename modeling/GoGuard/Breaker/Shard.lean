import GoGuard.Breaker.Circuit
import GoGuard.Lib.GoMap
import Mathlib.Data.List.Nodup
import Mathlib.Data.Int.Order.Basic
import Mathlib.Logic.Function.Basic

/-!
# The circuits of a shard

`getEntry` and `pruneIdle` of `goguard.go` on one shard, a call at a time.  The list is in
the order of the last access (`ShardOk`), so the loop of `pruneIdle` may stop at the first
circuit that is not idle.
-/

namespace GoGuard
namespace Breaker

open Lib List Function

section Model

/-- `key` of `goguard.go`. -/
structure Key where
  idx : Int
  host : List UInt8
deriving DecidableEq, Inhabited

/-- What a shard reads of an `entry`; the state of its breaker is given with each call. -/
structure Entry where
  key : Key
  lastAccess : Int
deriving Inhabited

/-- The entries are numbered as they are made. -/
structure Shard where
  entries : GoMap Key Nat
  /-- The entry used last in front. -/
  lru : List Nat
  made : Nat
  entry : Nat → Entry

/-- A second. -/
def touchInterval : Int := 1000000000

namespace Shard

def new : Shard := ⟨.empty, [], 0, fun _ => default⟩

def remove (s : Shard) (x : Nat) : Shard :=
  { s with lru := s.lru.erase x, entries := s.entries.del (s.entry x).key }

/-- The loop of `pruneIdle`. -/
def pruneIdle (maxIdleTime now : Int) : Nat → Shard → Shard
  | 0, s => s
  | fuel + 1, s =>
    match s.lru.getLast? with
    | none => s
    | some x =>
      if now - (s.entry x).lastAccess > maxIdleTime then
        pruneIdle maxIdleTime now fuel (s.remove x)
      else s

def touch (s : Shard) (now : Int) (x : Nat) : Shard :=
  { s with
    entry := update s.entry x { s.entry x with lastAccess := now }
    lru := x :: s.lru.erase x }

def push (s : Shard) (now : Int) (k : Key) : Shard :=
  { s with
    entry := update s.entry s.made ⟨k, now⟩
    made := s.made + 1
    entries := s.entries.set k s.made
    lru := s.made :: s.lru }

/-- The circuit that makes room: of the last sixteen the first that is closed. -/
def victim (s : Shard) (state : Nat → BreakerState) : Option Nat :=
  ((s.lru.reverse.take 16).find? fun x => state x = .stateClosed).or s.lru.getLast?

def evict (maxBreakers : Int) (state : Nat → BreakerState) (s : Shard) : Shard :=
  if s.lru.length ≥ maxBreakers then
    match s.victim state with
    | some x => s.remove x
    | none => s
  else s

/-- `getEntry` of an endpoint with a circuit per host. -/
def getEntry (maxBreakers now : Int) (k : Key) (state : Nat → BreakerState) (s : Shard) : Shard :=
  match s.entries.get k with
  | some x => if now - (s.entry x).lastAccess > touchInterval then s.touch now x else s
  | none => (s.evict maxBreakers state).push now k

end Shard

inductive ShardOp where
  | getEntry (k : Key) (state : Nat → BreakerState)
  | pruneIdle

def Shard.apply (maxBreakers maxIdleTime : Int) (s : Shard) : Int × ShardOp → Shard
  | (now, .getEntry k state) => s.getEntry maxBreakers now k state
  | (now, .pruneIdle) => s.pruneIdle maxIdleTime now s.lru.length

end Model

section Invariant

/-- The map and the list hold the same entries, whose keys satisfy `P`. -/
structure Filed (P : Key → Prop) (s : Shard) : Prop where
  nodup : s.lru.Nodup
  entries : ∀ k x, s.entries.get k = some x ↔ x ∈ s.lru ∧ (s.entry x).key = k
  made : ∀ x ∈ s.lru, x < s.made
  keys : ∀ x ∈ s.lru, P (s.entry x).key

/-- The map and the list hold the same entries, in the order of their last access. -/
structure ShardOk (maxBreakers : Int) (s : Shard) : Prop where
  nodup : s.lru.Nodup
  entries : ∀ k x, s.entries.get k = some x ↔ x ∈ s.lru ∧ (s.entry x).key = k
  made : ∀ x ∈ s.lru, x < s.made
  order : s.lru.Pairwise fun x y => (s.entry y).lastAccess ≤ (s.entry x).lastAccess
  size : s.lru.length ≤ max maxBreakers 1

variable {s s' : Shard} {x : Nat} {now maxBreakers maxIdleTime : Int} {k : Key}
variable {state : Nat → BreakerState} {P : Key → Prop}

theorem Filed.remove (h : Filed P s) (hx : x ∈ s.lru) : Filed P (s.remove x) := by
  refine ⟨h.nodup.erase x, fun k y => ?_, fun y hy => h.made y (mem_of_mem_erase hy),
    fun y hy => h.keys y (mem_of_mem_erase hy)⟩
  have hown := (h.entries _ x).mpr ⟨hx, rfl⟩
  have hy := h.entries k y
  simp only [Shard.remove, GoMap.get_del, h.nodup.mem_erase_iff]
  grind

theorem Filed.touch (h : Filed P s) (hx : x ∈ s.lru) (now : Int) : Filed P (s.touch now x) := by
  have hmem : ∀ y, y ∈ x :: s.lru.erase x ↔ y ∈ s.lru := fun y => (perm_cons_erase hx).mem_iff.symm
  refine ⟨(perm_cons_erase hx).nodup_iff.mp h.nodup, fun k y => ?_,
    fun y hy => h.made y ((hmem y).mp hy), fun y hy => ?_⟩
  · have hy := h.entries k y
    simp only [Shard.touch, hmem, update_apply]
    grind
  · have hkey := h.keys y ((hmem y).mp hy)
    simp only [Shard.touch, update_apply]
    grind

theorem Filed.push (h : Filed P s) (hnew : s.entries.get k = none) (hk : P k) (now : Int) :
    Filed P (s.push now k) := by
  have hold : ∀ y ∈ s.lru, y ≠ s.made := fun y hy => (h.made y hy).ne
  refine ⟨nodup_cons.mpr ⟨fun hmem => hold _ hmem rfl, h.nodup⟩, fun k' y => ?_, fun y hy => ?_,
    fun y hy => ?_⟩
  · have hy := h.entries k' y
    simp only [Shard.push, GoMap.get_set, mem_cons, update_apply]
    grind
  · have hlt := h.made y
    simp only [Shard.push, mem_cons] at hy ⊢
    grind
  · have hkey := h.keys y
    simp only [Shard.push, mem_cons, update_apply] at hy ⊢
    grind

section

variable (h : ShardOk maxBreakers s)
include h

theorem ShardOk.filed : Filed (fun _ => True) s :=
  ⟨h.nodup, h.entries, h.made, fun _ _ => trivial⟩

theorem ShardOk.remove (hx : x ∈ s.lru) : ShardOk maxBreakers (s.remove x) := by
  have hf := h.filed.remove hx
  exact ⟨hf.nodup, hf.entries, hf.made, h.order.sublist erase_sublist,
    (Int.ofNat_le.mpr length_erase_le).trans h.size⟩

theorem ShardOk.touch (hx : x ∈ s.lru)
    (hpast : ∀ y ∈ s.lru, (s.entry y).lastAccess ≤ now) : ShardOk maxBreakers (s.touch now x) := by
  have hf := h.filed.touch hx now
  refine ⟨hf.nodup, hf.entries, hf.made, pairwise_cons.mpr ⟨fun y hy => ?_, ?_⟩, ?_⟩
  · rw [h.nodup.mem_erase_iff] at hy
    simpa [Shard.touch, hy.1] using hpast y hy.2
  · refine (h.order.sublist erase_sublist).imp_of_mem fun {y z} hy hz hle => ?_
    rw [h.nodup.mem_erase_iff] at hy hz
    simpa [Shard.touch, hy.1, hz.1] using hle
  · exact (congrArg Nat.cast (perm_cons_erase hx).length_eq).symm.trans_le h.size

theorem ShardOk.push (hk : s.entries.get k = none) (hroom : s.lru.length < max maxBreakers 1)
    (hpast : ∀ y ∈ s.lru, (s.entry y).lastAccess ≤ now) : ShardOk maxBreakers (s.push now k) := by
  have hold : ∀ y ∈ s.lru, y ≠ s.made := fun y hy => (h.made y hy).ne
  have hf := h.filed.push hk trivial now
  refine ⟨hf.nodup, hf.entries, hf.made, pairwise_cons.mpr ⟨fun y hy => ?_, ?_⟩, hroom⟩
  · simpa [Shard.push, hold y hy] using hpast y hy
  · refine h.order.imp_of_mem fun {y z} hy hz hle => ?_
    simpa [Shard.push, hold y hy, hold z hz] using hle

/-- What is left are the circuits that are not idle. -/
theorem ShardOk.pruneIdle {fuel : Nat}
    (hfuel : s.lru.length ≤ fuel) (hs' : s.pruneIdle maxIdleTime now fuel = s') :
    ShardOk maxBreakers s' ∧ s'.entry = s.entry ∧
      ∀ y, y ∈ s'.lru ↔ y ∈ s.lru ∧ now - (s.entry y).lastAccess ≤ maxIdleTime := by
  induction fuel generalizing s with
  | zero =>
    subst hs'
    exact ⟨h, rfl, by simp [Shard.pruneIdle, length_eq_zero_iff.mp (Nat.le_zero.mp hfuel)]⟩
  | succ fuel ih =>
    rw [Shard.pruneIdle] at hs'
    split at hs'
    · next hlast =>
      subst hs'
      exact ⟨h, rfl, by simp [getLast?_eq_none_iff.mp hlast]⟩
    · next x hlast =>
      have hx := mem_of_getLast? hlast
      split at hs'
      · next hidle =>
        have hlen := length_erase_of_mem hx
        obtain ⟨hok, hsame, hmem⟩ := ih (h.remove hx) (by simp only [Shard.remove]; omega) hs'
        refine ⟨hok, hsame, fun y => ?_⟩
        rw [hmem, Shard.remove, h.nodup.mem_erase_iff]
        grind
      · next hused =>
        -- every other circuit was used later
        subst hs'
        refine ⟨h, rfl, fun y => (and_iff_left_of_imp fun hy => ?_).symm⟩
        obtain ⟨before, hsplit⟩ := getLast?_eq_some_iff.mp hlast
        have horder := h.order
        rw [hsplit] at horder hy
        grind

end

theorem victim_spec (hx : s.victim state = some x) :
    x ∈ s.lru ∧ (state x ≠ .stateClosed → ∀ y ∈ s.lru.reverse.take 16, state y ≠ .stateClosed) := by
  rcases Option.or_eq_some_iff.mp hx with hfind | ⟨hnone, hlast⟩
  · have hclosed := find?_some hfind
    refine ⟨mem_reverse.mp (mem_of_mem_take (mem_of_find?_eq_some hfind)), fun hne => ?_⟩
    exact absurd (by simpa using hclosed) hne
  · exact ⟨mem_of_getLast? hlast, fun _ y hy => by simpa using find?_eq_none.mp hnone y hy⟩

theorem Filed.getEntry (h : Filed P s) (hk : P k) :
    Filed P (s.getEntry maxBreakers now k state) := by
  unfold Shard.getEntry
  split
  · next x hget =>
    split
    · exact h.touch ((h.entries k x).mp hget).1 now
    · exact h
  · next hget =>
    unfold Shard.evict
    split
    · split
      · next x hx =>
        refine (h.remove (victim_spec hx).1).push ?_ hk now
        simp only [Shard.remove, GoMap.get_del, hget, ite_self]
      · exact h.push hget hk now
    · exact h.push hget hk now

theorem Filed.pruneIdle (h : Filed P s) (fuel : Nat) :
    Filed P (s.pruneIdle maxIdleTime now fuel) := by
  induction fuel generalizing s with
  | zero => exact h
  | succ fuel ih =>
    rw [Shard.pruneIdle]
    split
    · exact h
    · next x hlast =>
      split
      · exact ih (h.remove (mem_of_getLast? hlast))
      · exact h

theorem ShardOk.evict (h : ShardOk maxBreakers s) (hs' : s.evict maxBreakers state = s') :
    ShardOk maxBreakers s' ∧ s'.entry = s.entry ∧ s'.lru.Sublist s.lru ∧
      s'.lru.length < max maxBreakers 1 := by
  have hsize := h.size
  subst hs'
  unfold Shard.evict
  split
  · split
    · next x hx =>
      have hmem := (victim_spec hx).1
      have hlen := length_erase_of_mem hmem
      refine ⟨h.remove hmem, rfl, erase_sublist, ?_⟩
      change ((s.lru.erase x).length : Int) < _
      omega
    · next hnone =>
      have hlast := getLast?_eq_none_iff.mp (Option.or_eq_none_iff.mp hnone).2
      exact ⟨h, rfl, List.Sublist.refl _, by rw [hlast, length_nil]; omega⟩
  · exact ⟨h, rfl, List.Sublist.refl _, by omega⟩

theorem ShardOk.getEntry (h : ShardOk maxBreakers s)
    (hpast : ∀ y ∈ s.lru, (s.entry y).lastAccess ≤ now)
    (hs' : s.getEntry maxBreakers now k state = s') :
    ShardOk maxBreakers s' ∧ ∀ y ∈ s'.lru, (s'.entry y).lastAccess ≤ now := by
  subst hs'
  unfold Shard.getEntry
  split
  · next x hget =>
    have hx := ((h.entries k x).mp hget).1
    split
    · refine ⟨h.touch hx hpast, fun y hy => ?_⟩
      simp only [Shard.touch, update_apply]
      grind [Shard.touch]
    · exact ⟨h, hpast⟩
  · next hget =>
    obtain ⟨hok, hsame, hsub, hroom⟩ := h.evict (rfl : s.evict maxBreakers state = _)
    have hnew : (s.evict maxBreakers state).entries.get k = none := by
      refine Option.eq_none_iff_forall_ne_some.mpr fun y hy => ?_
      rw [hok.entries, hsame] at hy
      cases hget.symm.trans ((h.entries k y).mpr ⟨hsub.subset hy.1, hy.2⟩)
    refine ⟨hok.push hnew hroom fun y hy => hsame ▸ hpast y (hsub.subset hy), fun y hy => ?_⟩
    simp only [Shard.push, update_apply, hsame] at hy ⊢
    grind

theorem getEntry_evicts (hx : x ∈ s.lru) (hgone : x ∉ (s.getEntry maxBreakers now k state).lru)
    (hopen : state x ≠ .stateClosed) : ∀ y ∈ s.lru.reverse.take 16, state y ≠ .stateClosed := by
  have hkept : ∀ {y}, x ∉ s.lru.erase y → x = y := by
    intro y hgone
    by_contra hne
    exact hgone ((mem_erase_of_ne hne).mpr hx)
  unfold Shard.getEntry at hgone
  split at hgone
  · split at hgone
    · simp only [Shard.touch, mem_cons, not_or] at hgone
      exact absurd (hkept hgone.2) hgone.1
    · exact absurd hx hgone
  · simp only [Shard.push, Shard.evict, mem_cons, not_or] at hgone
    replace hgone := hgone.2
    split at hgone
    · split at hgone
      · next v hv =>
        obtain rfl := hkept hgone
        exact (victim_spec hv).2 hopen
      · exact absurd hx hgone
    · exact absurd hx hgone

end Invariant

section Results

variable {s : Shard} {maxIdleTime maxBreakers : Int}

theorem ShardOk.after {acts : List (Int × ShardOp)} (h : ShardOk maxBreakers s)
    (hpast : ∀ a ∈ acts, ∀ y ∈ s.lru, (s.entry y).lastAccess ≤ a.1)
    (hsorted : (acts.map Prod.fst).Pairwise (· ≤ ·)) :
    ShardOk maxBreakers (acts.foldl (Shard.apply maxBreakers maxIdleTime) s) := by
  induction acts generalizing s with
  | nil => exact h
  | cons a acts ih =>
    obtain ⟨now, op⟩ := a
    obtain ⟨hfirst, hrest⟩ := pairwise_cons.mp hsorted
    cases op with
    | getEntry k state =>
      obtain ⟨hok, hnow⟩ := h.getEntry (hpast _ mem_cons_self) rfl
      refine ih hok (fun a ha y hy => (hnow y hy).trans ?_) hrest
      exact hfirst a.1 (mem_map_of_mem ha)
    | pruneIdle =>
      obtain ⟨hok, hsame, hmem⟩ := h.pruneIdle le_rfl rfl
      refine ih hok (fun a ha y hy => ?_) hrest
      simp only [Shard.apply, hsame]
      exact hpast a (mem_cons_of_mem _ ha) y ((hmem y).mp hy).1

/-- After any calls at times that do not go back: the map and the list hold the same
entries, by their last access, at most `max maxBreakers 1`; `pruneIdle` removes the idle ones
and nothing else, and `getEntry` a circuit that is not closed only if none of the last
sixteen is. -/
theorem shard_holds_recent_circuits (maxBreakers maxIdleTime : Int)
    (acts : List (Int × ShardOp)) (hsorted : (acts.map Prod.fst).Pairwise (· ≤ ·)) :
    let s := acts.foldl (Shard.apply maxBreakers maxIdleTime) .new
    (∀ k x, s.entries.get k = some x ↔ x ∈ s.lru ∧ (s.entry x).key = k) ∧ s.lru.Nodup ∧
      (s.lru.Pairwise fun x y => (s.entry y).lastAccess ≤ (s.entry x).lastAccess) ∧
      s.lru.length ≤ max maxBreakers 1 ∧
      (∀ now x, x ∈ (s.apply maxBreakers maxIdleTime (now, .pruneIdle)).lru ↔
        x ∈ s.lru ∧ now - (s.entry x).lastAccess ≤ maxIdleTime) ∧
      ∀ now k state x, x ∈ s.lru →
        x ∉ (s.apply maxBreakers maxIdleTime (now, .getEntry k state)).lru →
        state x ≠ .stateClosed → ∀ y ∈ s.lru.reverse.take 16, state y ≠ .stateClosed := by
  intro s
  have hnew : ShardOk maxBreakers .new :=
    ⟨nodup_nil, by simp [Shard.new], by rintro _ ⟨⟩, Pairwise.nil, by rw [Shard.new, length_nil]; omega⟩
  have h : ShardOk maxBreakers s := hnew.after (by rintro _ _ _ ⟨⟩) hsorted
  exact ⟨h.entries, h.nodup, h.order, h.size, fun now => (h.pruneIdle le_rfl rfl).2.2,
    fun now k state x => getEntry_evicts⟩

/-- With room for one circuit the second host takes the place of the first. -/
theorem shard_holds_recent_circuits_two :
    ([(1, .getEntry ⟨0, [97]⟩ fun _ => .stateOpen), (2, .getEntry ⟨0, [98]⟩ fun _ => .stateOpen)].foldl
      (Shard.apply 1 10) .new).lru = [1] ∧ [1].length ≤ max (1 : Int) 1 :=
  ⟨by decide, (shard_holds_recent_circuits 1 10 [(1, .getEntry ⟨0, [97]⟩ fun _ => .stateOpen),
    (2, .getEntry ⟨0, [98]⟩ fun _ => .stateOpen)] (by decide)).2.2.2.1⟩

end Results

end Breaker
end GoGuard
