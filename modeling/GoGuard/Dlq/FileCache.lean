import GoGuard.Lib.GoMap
import GoGuard.Lib.Transition
import Mathlib.Data.List.Nodup
import Mathlib.Logic.Function.Basic

/-!
# The cache of open log files

`fileCache` of `wal_blob.go`, one step for each call that holds its mutex.  A handle is in
the list of the cache or evicted, its counter is the number of its readers, and it was
closed once if it has neither a place in the cache nor a reader (`CacheOk`).
-/

namespace GoGuard
namespace Dlq

open Lib List Function

section Model

structure FileKey where
  snap : Bool
  id : Nat
deriving DecidableEq

structure CachedFile where
  key : FileKey
  refs : Int
  evicted : Bool
  /-- How often `f` was closed. -/
  closes : Nat

/-- The `cachedFile`s are numbered as they are opened; `opened` is the next number. -/
structure FileCache where
  max : Int
  files : GoMap FileKey Nat
  /-- Most recently used first. -/
  lru : List Nat
  closed : Bool
  handles : Nat → CachedFile
  opened : Nat
  /-- The handles acquired and not released, one entry for each reader. -/
  readers : List Nat

def newFileCache (max : Int) : FileCache :=
  ⟨if max ≤ 0 then 32 else max, .empty, [], false, fun _ => ⟨⟨false, 0⟩, 0, false, 0⟩, 0, []⟩

namespace FileCache

def retireLocked (c : FileCache) (x : Nat) : FileCache :=
  let cf := c.handles x
  { c with
    lru := c.lru.erase x
    files := c.files.del cf.key
    handles := update c.handles x { cf with
      evicted := true
      closes := if cf.refs = 0 then cf.closes + 1 else cf.closes } }

/-- The loops of `acquire` and `closeAll`: the last element is retired while there are
more than `limit`. -/
def retireDown (limit : Int) : Nat → FileCache → FileCache
  | 0, c => c
  | fuel + 1, c =>
    if c.lru.length > limit then
      match c.lru.getLast? with
      | none => c
      | some x => retireDown limit fuel (c.retireLocked x)
    else c

/-- The handle is used by one more reader. -/
def hit (c : FileCache) (x : Nat) : FileCache :=
  { c with
    lru := x :: c.lru.erase x
    handles := update c.handles x { c.handles x with refs := (c.handles x).refs + 1 }
    readers := x :: c.readers }

/-- A file is opened for its first reader. -/
def push (c : FileCache) (k : FileKey) : FileCache :=
  { c with
    handles := update c.handles c.opened ⟨k, 1, false, 0⟩
    opened := c.opened + 1
    files := c.files.set k c.opened
    lru := c.opened :: c.lru
    readers := c.opened :: c.readers }

/-- `acquire`; `opens` says whether the file could be opened. -/
def acquire (c : FileCache) (k : FileKey) (opens : Bool) : FileCache :=
  if c.closed then c
  else
    match c.files.get k with
    | some x => c.hit x
    | none => if opens then retireDown c.max (c.lru.length + 1) (c.push k) else c

def release (c : FileCache) (x : Nat) : FileCache :=
  let cf := c.handles x
  { c with
    handles := update c.handles x { cf with
      refs := cf.refs - 1
      closes := if cf.evicted ∧ cf.refs - 1 = 0 then cf.closes + 1 else cf.closes }
    readers := c.readers.erase x }

def drop (c : FileCache) (k : FileKey) : FileCache :=
  match c.files.get k with
  | some x => c.retireLocked x
  | none => c

def closeAll (c : FileCache) : FileCache :=
  retireDown 0 c.lru.length { c with closed := true }

end FileCache

inductive CacheAct where
  | acquire (k : FileKey) (opens : Bool)
  | release (x : Nat)
  | drop (k : FileKey)
  | closeAll

/-- One call; a release is that of a reader. -/
def FileCache.step (c : FileCache) : CacheAct → Option FileCache
  | .acquire k opens => some (c.acquire k opens)
  | .release x => if x ∈ c.readers then some (c.release x) else none
  | .drop k => some (c.drop k)
  | .closeAll => some c.closeAll

end Model

section Invariant

/-- The counters and flags of a handle are right. -/
structure FileCache.Fits (c : FileCache) (x : Nat) : Prop where
  refs : (c.handles x).refs = c.readers.count x
  evicted : (c.handles x).evicted = false ↔ x ∈ c.lru
  closes : (c.handles x).closes = if x ∈ c.lru ∨ x ∈ c.readers then 0 else 1

/-- The map and the list of the cache against its handles. -/
structure CacheOk (c : FileCache) : Prop where
  nodup : c.lru.Nodup
  files : ∀ k x, c.files.get k = some x ↔ x ∈ c.lru ∧ (c.handles x).key = k
  fits : ∀ x < c.opened, c.Fits x
  held : ∀ x, x ∈ c.lru ∨ x ∈ c.readers → x < c.opened

variable {c c' : FileCache} {x : Nat} {k : FileKey}

theorem CacheOk.retireLocked (h : CacheOk c) (hx : x ∈ c.lru) : CacheOk (c.retireLocked x) := by
  obtain ⟨hnodup, hfiles, hfits, hheld⟩ := h
  refine ⟨hnodup.erase x, fun k y => ?_, fun y hy => ?_, fun y hy => ?_⟩
  · have hown := (hfiles _ x).mpr ⟨hx, rfl⟩
    simp only [FileCache.retireLocked, GoMap.get_del, hnodup.mem_erase_iff, update_apply]
    grind
  · obtain ⟨hrefs, hevicted, hcloses⟩ := hfits y hy
    constructor <;>
      simp only [FileCache.retireLocked, hnodup.mem_erase_iff, update_apply] <;> grind
  · exact hheld y (hy.imp_left mem_of_mem_erase)

theorem CacheOk.hit (h : CacheOk c) (hx : x ∈ c.lru) : CacheOk (c.hit x) := by
  obtain ⟨hnodup, hfiles, hfits, hheld⟩ := h
  have hmem : ∀ y, y ∈ x :: c.lru.erase x ↔ y ∈ c.lru := fun y => (perm_cons_erase hx).mem_iff.symm
  refine ⟨(perm_cons_erase hx).nodup_iff.mp hnodup, fun k y => ?_, fun y hy => ?_, fun y hy => ?_⟩
  · simp only [FileCache.hit, hmem, update_apply]
    grind
  · obtain ⟨hrefs, hevicted, hcloses⟩ := hfits y hy
    constructor <;> simp only [FileCache.hit, hmem, update_apply] <;> grind
  · simp only [FileCache.hit, hmem] at hy ⊢
    grind

theorem CacheOk.push (h : CacheOk c) (hk : c.files.get k = none) : CacheOk (c.push k) := by
  obtain ⟨hnodup, hfiles, hfits, hheld⟩ := h
  refine ⟨nodup_cons.mpr ⟨by grind, hnodup⟩, fun k' y => ?_, fun y hy => ?_, fun y hy => ?_⟩
  · have hold := hfiles k' y
    simp only [FileCache.push, GoMap.get_set, mem_cons, update_apply]
    grind
  · have hold := hfits y
    simp only [FileCache.push] at hy
    constructor <;> simp only [FileCache.push, mem_cons, update_apply] <;> grind [FileCache.Fits]
  · have hold := hheld y
    simp only [FileCache.push, mem_cons] at hy ⊢
    grind

theorem CacheOk.release (h : CacheOk c) (hx : x ∈ c.readers) : CacheOk (c.release x) := by
  obtain ⟨hnodup, hfiles, hfits, hheld⟩ := h
  refine ⟨hnodup, fun k y => ?_, fun y hy => ?_, fun y hy => ?_⟩
  · simp only [FileCache.release, update_apply]
    grind
  · obtain ⟨hrefs, hevicted, hcloses⟩ := hfits y hy
    have hleft := count_pos_iff (l := c.readers.erase x) (a := y)
    constructor <;> simp only [FileCache.release, update_apply] <;> grind
  · exact hheld y (hy.imp_right mem_of_mem_erase)

theorem CacheOk.retireDown {limit : Int} {fuel : Nat} (hlimit : 0 ≤ limit) (h : CacheOk c)
    (hfuel : c.lru.length ≤ fuel) :
    CacheOk (c.retireDown limit fuel) ∧ (c.retireDown limit fuel).lru.length ≤ limit ∧
      (c.retireDown limit fuel).max = c.max ∧ (c.retireDown limit fuel).closed = c.closed ∧
        (c.retireDown limit fuel).opened = c.opened := by
  induction fuel generalizing c with
  | zero =>
    have hnone : (c.lru.length : Int) ≤ limit := by omega
    exact ⟨h, hnone, rfl, rfl, rfl⟩
  | succ fuel ih =>
    simp only [FileCache.retireDown]
    split
    · next hmore =>
      cases hlast : c.lru.getLast? with
      | none =>
        rw [getLast?_eq_none_iff.mp hlast] at hmore
        exact absurd hmore (by simpa using hlimit)
      | some x =>
        have hx := mem_of_getLast? hlast
        refine ih (h.retireLocked hx) ?_
        rw [FileCache.retireLocked, length_erase_of_mem hx]
        omega
    · next hfew => exact ⟨h, by omega, rfl, rfl, rfl⟩

end Invariant

section Results

/-- The cache between two calls. -/
structure FileCache.Settled (max : Int) (c : FileCache) : Prop extends CacheOk c where
  setting : c.max = max
  size : c.lru.length ≤ c.max
  closing : c.closed → c.lru = []

variable {c c' : FileCache} {a : CacheAct} {max : Int}

theorem FileCache.Settled.retireLocked {x : Nat} (h : c.Settled max) (hx : x ∈ c.lru) :
    (c.retireLocked x).Settled max := by
  refine ⟨h.toCacheOk.retireLocked hx, h.setting, ?_, fun hc => ?_⟩
  · exact Int.le_trans (Int.ofNat_le.mpr length_erase_le) h.size
  · exact absurd hx (h.closing hc ▸ not_mem_nil)

theorem FileCache.Settled.acquire (hmax : 0 ≤ max) (h : c.Settled max) (k : FileKey)
    (opens : Bool) (hopen : ¬ c.closed) : (c.acquire k opens).Settled max := by
  rw [FileCache.acquire, if_neg hopen]
  split
  · next x hget =>
    have hx := ((h.files k x).mp hget).1
    refine ⟨h.toCacheOk.hit hx, h.setting, ?_, fun hc => absurd hc hopen⟩
    exact (congrArg Nat.cast (perm_cons_erase hx).length_eq).symm.trans_le h.size
  · next hget =>
    split
    · obtain ⟨hok, hsize, hsame, hclosed, -⟩ :=
        (h.toCacheOk.push hget).retireDown (h.setting ▸ hmax) (le_refl (c.lru.length + 1))
      exact ⟨hok, hsame.trans h.setting, hsize.trans_eq hsame.symm,
        fun hc => absurd (hclosed ▸ hc) hopen⟩
    · exact h

theorem FileCache.Settled.step (hmax : 0 ≤ max) (h : c.Settled max)
    (hstep : c.step a = some c') :
    c'.Settled max ∧ (c.closed ∨ a = .closeAll → c'.closed) ∧
      (c.closed → c'.opened = c.opened) := by
  cases a with
  | acquire k opens =>
    cases hstep
    by_cases hc : c.closed
    · rw [FileCache.acquire, if_pos hc]
      exact ⟨h, fun _ => hc, fun _ => rfl⟩
    · exact ⟨h.acquire hmax k opens hc, fun hor => hor.elim (absurd · hc) nofun, (absurd · hc)⟩
  | release x =>
    obtain ⟨hx, rfl⟩ := of_guard hstep
    exact ⟨⟨h.toCacheOk.release hx, h.setting, h.size, h.closing⟩, (·.elim id nofun), fun _ => rfl⟩
  | drop k =>
    cases hstep
    unfold FileCache.drop
    split
    · next x hget =>
      exact ⟨h.retireLocked ((h.files k x).mp hget).1, (·.elim id nofun), fun _ => rfl⟩
    · exact ⟨h, (·.elim id nofun), fun _ => rfl⟩
  | closeAll =>
    cases hstep
    have hok : CacheOk { c with closed := true } := ⟨h.nodup, h.files, fun x hx =>
      ⟨(h.fits x hx).refs, (h.fits x hx).evicted, (h.fits x hx).closes⟩, h.held⟩
    obtain ⟨hok', hsize, hsame, hclosed, hopened⟩ :=
      hok.retireDown (Int.le_refl 0) (le_refl c.lru.length)
    have hempty : c.closeAll.lru = [] := length_eq_zero_iff.mp (by unfold FileCache.closeAll; omega)
    refine ⟨⟨hok', hsame.trans h.setting, ?_, fun _ => hempty⟩, fun _ => hclosed, fun _ => hopened⟩
    rw [hempty, show c.closeAll.max = max from hsame.trans h.setting]
    exact hmax

/-- After any calls by any number of readers: the cache holds at most `max` handles, a
handle was closed once if it is neither in the cache nor in use and else not at all, and
after `closeAll` the cache is empty and nothing is opened. -/
theorem file_handles_closed_once (max : Int) (acts : List CacheAct) (c : FileCache)
    (hrun : run FileCache.step (newFileCache max) acts = some c) :
    c.lru.length ≤ (newFileCache max).max ∧
      (∀ k x, c.files.get k = some x ↔ x ∈ c.lru ∧ (c.handles x).key = k) ∧
      (∀ x < c.opened, (c.handles x).closes = if x ∈ c.lru ∨ x ∈ c.readers then 0 else 1) ∧
      (c.closed → c.lru = []) ∧
      ∀ a c', c.step a = some c' →
        (c.closed ∨ a = .closeAll → c'.closed) ∧ (c.closed → c'.opened = c.opened) := by
  have hmax : 0 ≤ (newFileCache max).max := by
    simp only [newFileCache]
    split <;> omega
  have h : c.Settled (newFileCache max).max := by
    refine run_invariant _ (fun s a t hs hstep => (hs.step hmax hstep).1) ⟨⟨nodup_nil, ?_, ?_, ?_⟩,
      rfl, hmax, fun _ => rfl⟩ hrun
    · simp [newFileCache]
    · exact fun x hx => absurd hx (Nat.not_lt_zero x)
    · rintro x (⟨⟨⟩⟩ | ⟨⟨⟩⟩)
  exact ⟨h.setting ▸ h.size, h.files, fun x hx => (h.fits x hx).closes, h.closing,
    fun a c' hstep => (h.step hmax hstep).2⟩

/-- A handle that is evicted in use is closed when its reader is done. -/
theorem file_handles_closed_once_evicted :
    ∃ c, run FileCache.step (newFileCache 1)
        [.acquire ⟨false, 1⟩ true, .acquire ⟨false, 2⟩ true, .release 0] = some c ∧
      (c.handles 0).closes = 1 := by
  obtain ⟨c, hc, hopened, hlru, hreaders⟩ : ∃ c, run FileCache.step (newFileCache 1)
      [.acquire ⟨false, 1⟩ true, .acquire ⟨false, 2⟩ true, .release 0] = some c ∧
        c.opened = 2 ∧ c.lru = [1] ∧ c.readers = [1] := by
    decide +kernel
  have hcloses := (file_handles_closed_once 1 _ c hc).2.2.1 0 (by omega)
  rw [hlru, hreaders] at hcloses
  exact ⟨c, hc, hcloses⟩

end Results

end Dlq
end GoGuard
