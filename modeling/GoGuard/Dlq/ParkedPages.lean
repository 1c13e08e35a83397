import GoGuard.Dlq.IndexInvariant

/-!
# Listing the parked records page by page

`parkedItems` walks the parked list behind a Seq and ends a page when it has
enough records or enough bytes; the first record of a page is taken whatever its
size.  A caller asks again behind the last record it was given until a page is
empty.

A page is a beginning of what is left, and is empty only when nothing is
(`parkedPage_spec`), so the number of records left decreases and the pages
together are the parked records in Seq order.
-/

namespace GoGuard
namespace Dlq

open Lib Machine Queue List

/-- `maxParkedPageBytes`: 32 MiB. -/
def maxParkedPageBytes : Nat :=
  32 * 2 ^ 20

/-- The number of records `parkedItems` puts on a page at most. -/
def clampLimit (limit : Int) : Nat :=
  if limit ≤ 0 then 100
  else if limit > 1000 then 1000
  else limit.toNat

theorem clampLimit_pos (limit : Int) : 0 < clampLimit limit := by
  unfold clampLimit
  split
  · decide
  · split
    · decide
    · omega

/-- The bytes of the whole records on a page. -/
def pageBytes (page : List Item) : Nat :=
  (page.map Item.size).sum

namespace Machine

/-- The loop of `parkedItems`, with the page so far and its bytes. -/
def parkedPage (m : Machine) (after limit : Nat) : List Ptr → List Item → Nat → List Item
  | [], out, _ => out
  | p :: l, out, bytes =>
    if out.length < limit then
      match m.items.get p.id with
      | none => parkedPage m after limit l out bytes
      | some it =>
        if it.record.seq ≤ after then parkedPage m after limit l out bytes
        else if out ≠ [] ∧ bytes + it.size > maxParkedPageBytes then out
        else parkedPage m after limit l (out ++ [it]) (bytes + it.size)
    else out

/-- `parkedItems`. -/
def parkedItems (m : Machine) (after : Nat) (limit : Int) : List Item :=
  m.parkedPage after (clampLimit limit) m.parked [] 0

/-- `parkedList`. -/
def parkedList (m : Machine) (after : Nat) (limit : Int) : List Record :=
  (m.parkedItems after limit).map Item.record

/-- The items some list elements point at. -/
def itemsAt (m : Machine) (l : List Ptr) : List Item :=
  l.filterMap fun p => m.items.get p.id

/-- The parked items behind a Seq. -/
def parkedAfter (m : Machine) (after : Nat) : List Item :=
  (m.itemsAt m.parked).filter fun it => after < it.record.seq

/-- A caller that asks behind the last record it was given, until a page is empty;
`none` when it has not come to an end after `fuel` pages. -/
def parkedPages (m : Machine) (limit : Int) : Nat → Nat → Option (List (List Item))
  | 0, _ => none
  | fuel + 1, after =>
    match (m.parkedItems after limit).getLast? with
    | none => some []
    | some it =>
      (parkedPages m limit fuel it.record.seq).map (m.parkedItems after limit :: ·)

end Machine

section OnePage

variable {limit : Nat}

/-- What a page may hold. -/
structure PageOk (limit : Nat) (page : List Item) : Prop where
  count : page.length ≤ limit
  bytes : page.length ≤ 1 ∨ pageBytes page ≤ maxParkedPageBytes

theorem pageOk_nil (limit : Nat) : PageOk limit [] :=
  ⟨Nat.zero_le _, .inl (Nat.zero_le _)⟩

theorem pageBytes_concat (page : List Item) (it : Item) :
    pageBytes (page ++ [it]) = pageBytes page + it.size := by
  simp [pageBytes]

theorem PageOk.concat {page : List Item} {it : Item} (hroom : page.length < limit)
    (hfits : ¬ (page ≠ [] ∧ pageBytes page + it.size > maxParkedPageBytes)) :
    PageOk limit (page ++ [it]) := by
  refine ⟨by simpa using hroom, ?_⟩
  by_cases hfirst : page = []
  · left
    simp [hfirst]
  · right
    rw [pageBytes_concat]
    exact not_lt.mp fun hlarge => hfits ⟨hfirst, hlarge⟩

/-- The loop adds a beginning of what is left to the page; it adds nothing to an empty
page only when nothing is left. -/
theorem parkedPage_spec (m : Machine) (after : Nat) (l : List Ptr) (out : List Item)
    (hlimit : 0 < limit) (hout : PageOk limit out) :
    ∃ page, m.parkedPage after limit l out (pageBytes out) = out ++ page ∧
      page <+: (m.itemsAt l).filter (fun it => after < it.record.seq) ∧
        PageOk limit (out ++ page) ∧
          (out ++ page = [] →
            (m.itemsAt l).filter (fun it => after < it.record.seq) = []) := by
  induction l generalizing out with
  | nil =>
    refine ⟨[], ?_, nil_prefix, ?_, fun _ => rfl⟩
    · simp [parkedPage]
    · simpa using hout
  | cons p l ih =>
    by_cases hroom : out.length < limit
    · cases hit : m.items.get p.id with
      | none =>
        have hrest : m.itemsAt (p :: l) = m.itemsAt l := by simp [itemsAt, hit]
        simp only [parkedPage, hroom, if_true, hit, hrest]
        exact ih out hout
      | some it =>
        have hitems : m.itemsAt (p :: l) = it :: m.itemsAt l := by simp [itemsAt, hit]
        simp only [parkedPage, hroom, if_true, hit, hitems]
        by_cases hold : it.record.seq ≤ after
        · rw [if_pos hold, filter_cons_of_neg (by simpa using hold)]
          exact ih out hout
        · rw [if_neg hold, filter_cons_of_pos (by simpa using hold)]
          by_cases hfull : out ≠ [] ∧ pageBytes out + it.size > maxParkedPageBytes
          · rw [if_pos hfull]
            refine ⟨[], (append_nil _).symm, nil_prefix, by simpa using hout, ?_⟩
            intro hempty
            exact absurd (by simpa using hempty) hfull.1
          · rw [if_neg hfull, ← pageBytes_concat]
            obtain ⟨page, hpage, hbegins, hok, -⟩ :=
              ih (out ++ [it]) (PageOk.concat hroom hfull)
            refine ⟨it :: page, ?_, ?_, ?_, ?_⟩
            · rw [hpage]
              simp
            · exact cons_prefix_cons.mpr ⟨rfl, hbegins⟩
            · simpa using hok
            · intro hempty
              simp at hempty
    · -- the page is full
      simp only [parkedPage, hroom, if_false]
      refine ⟨[], (append_nil _).symm, nil_prefix, by simpa using hout, ?_⟩
      intro hempty
      have hnil : out = [] := by simpa using hempty
      rw [hnil] at hroom
      exact absurd hlimit hroom

theorem parkedItems_spec (m : Machine) (after : Nat) (limit : Int) :
    m.parkedItems after limit <+: m.parkedAfter after ∧
      PageOk (clampLimit limit) (m.parkedItems after limit) ∧
        (m.parkedItems after limit = [] → m.parkedAfter after = []) := by
  obtain ⟨page, hpage, hbegins, hok, hnone⟩ :=
    parkedPage_spec m after m.parked [] (clampLimit_pos limit)
      (pageOk_nil _)
  rw [nil_append] at hpage hok hnone
  have hitems : m.parkedItems after limit = page := hpage
  rw [hitems]
  exact ⟨hbegins, hok, hnone⟩

end OnePage

namespace Machine

section AllPages

variable {m : Machine}

theorem itemsAt_map_ptr {l : List Ptr}
    (hl : ∀ p ∈ l, ∃ it, m.items.get p.id = some it ∧ it.ptr = p) :
    (m.itemsAt l).map Item.ptr = l := by
  induction l with
  | nil => rfl
  | cons p l ih =>
    obtain ⟨it, hit, hptr⟩ := hl p mem_cons_self
    have hrest := ih fun q hq => hl q (mem_cons_of_mem _ hq)
    have hitems : m.itemsAt (p :: l) = it :: m.itemsAt l := by simp [itemsAt, hit]
    rw [hitems, map_cons, hptr, hrest]

theorem IndexedBut.parked_ptr (h : Indexed m) {p : Ptr} (hp : p ∈ m.parked) :
    ∃ it, m.items.get p.id = some it ∧ it.ptr = p := by
  obtain ⟨-, it, hit, hptr, -⟩ := (h.shelf_mem none p).mp hp
  exact ⟨it, hit, hptr⟩

theorem IndexedBut.parkedAfter_asc (h : Indexed m) (after : Nat) :
    Ascending (fun it : Item => it.record.seq) (m.parkedAfter after) := by
  have hasc : Ascending Ptr.seq ((m.itemsAt m.parked).map Item.ptr) := by
    rw [itemsAt_map_ptr fun p hp => h.parked_ptr hp]
    exact h.shelf_asc none
  rw [Ascending, pairwise_map] at hasc
  exact List.Pairwise.sublist filter_sublist hasc

theorem IndexedBut.mem_parkedAfter (h : Indexed m) {after : Nat} {it : Item} :
    it ∈ m.parkedAfter after ↔
      m.items.get it.record.id = some it ∧ it.record.state = .parked ∧ after < it.record.seq := by
  unfold parkedAfter itemsAt
  rw [mem_filter, mem_filterMap, decide_eq_true_eq]
  constructor
  · rintro ⟨⟨p, hp, hit⟩, hseq⟩
    obtain ⟨-, it', hit', -, hshelf⟩ := (h.shelf_mem none p).mp hp
    obtain rfl := Option.some.inj (hit.symm.trans hit')
    exact ⟨h.get_ptr hit, (shelf_eq_none_iff _).mp hshelf, hseq⟩
  · rintro ⟨hit, hstate, hseq⟩
    refine ⟨⟨it.ptr, ?_, hit⟩, hseq⟩
    exact (h.shelf_mem none it.ptr).mpr
      ⟨Option.some_ne_none _, it, hit, rfl, (shelf_eq_none_iff _).mpr hstate⟩

theorem IndexedBut.parkedAfter_next (h : Indexed m)
    {after : Nat} {page rest : List Item} {it : Item} (hsplit : m.parkedAfter after = page ++ rest)
    (hlast : page.getLast? = some it) : m.parkedAfter it.record.seq = rest := by
  obtain ⟨page₀, rfl⟩ := List.getLast?_eq_some_iff.mp hlast
  have hasc := h.parkedAfter_asc after
  rw [hsplit, append_assoc, singleton_append] at hasc
  have hit : it ∈ m.parkedAfter after := by simp [hsplit]
  have hbehind : after < it.record.seq := (h.mem_parkedAfter.mp hit).2.2
  have hagain : m.parkedAfter it.record.seq =
      (m.parkedAfter after).filter fun x => it.record.seq < x.record.seq := by
    unfold parkedAfter
    rw [filter_filter]
    refine filter_congr ?_
    intro x _
    have hiff : it.record.seq < x.record.seq ↔
        it.record.seq < x.record.seq ∧ after < x.record.seq :=
      ⟨fun hlt => ⟨hlt, hbehind.trans hlt⟩, fun hlt => hlt.1⟩
    rw [← Bool.decide_and]
    exact decide_eq_decide.mpr hiff
  rw [hagain, hsplit, append_assoc, singleton_append]
  exact hasc.filter_above

/-- Enough pages list what is left, in order.  The number of records left decreases
with every page that is not empty. -/
theorem IndexedBut.parkedPages_spec (h : Indexed m) (limit : Int) {fuel after : Nat}
    (hfuel : (m.parkedAfter after).length < fuel) :
    ∃ ps, m.parkedPages limit fuel after = some ps ∧ ps.flatten = m.parkedAfter after ∧
      ∀ page ∈ ps, page ≠ [] ∧ PageOk (clampLimit limit) page := by
  induction fuel generalizing after with
  | zero => exact absurd hfuel (Nat.not_lt_zero _)
  | succ fuel ih =>
    obtain ⟨⟨rest, hrest⟩, hok, hnone⟩ := parkedItems_spec m after limit
    unfold parkedPages
    cases hlast : (m.parkedItems after limit).getLast? with
    | none =>
      have hempty : m.parkedItems after limit = [] := List.getLast?_eq_none_iff.mp hlast
      refine ⟨[], rfl, ?_, fun _ hpage => nomatch hpage⟩
      rw [hnone hempty]
      rfl
    | some it =>
      have hsome : m.parkedItems after limit ≠ [] := by
        intro hempty
        rw [hempty] at hlast
        cases hlast
      have hnext := h.parkedAfter_next hrest.symm hlast
      have hshorter : (m.parkedAfter it.record.seq).length < fuel := by
        have hlen := congrArg List.length hrest
        have hpos := length_pos_of_ne_nil hsome
        rw [length_append] at hlen
        rw [hnext]
        omega
      obtain ⟨ps, hps, hflat, hall⟩ := ih hshorter
      refine ⟨m.parkedItems after limit :: ps, ?_, ?_, ?_⟩
      · simp only [hps, Option.map_some]
      · rw [flatten_cons, hflat, hnext, hrest]
      · intro page hpage
        rcases mem_cons.mp hpage with rfl | hpage
        · exact ⟨hsome, hok⟩
        · exact hall page hpage

end AllPages

end Machine

section Reachable

variable {m : Machine} {q : Queue}

/-- Every record was given a Seq above that of an empty store. -/
def Numbered (q : Queue) : Prop :=
  ∀ r ∈ q.recs, 0 < r.seq

theorem numbered_empty : Numbered .empty := by
  intro r hr
  cases hr

theorem Numbered.touch {id : Bytes} {f : Change} (h : Numbered q) (hf : Keeps f) :
    Numbered (q.touch id f) := by
  intro r hr
  obtain ⟨x, hx, -, hseq, -⟩ := origin_touch hf hr
  rw [hseq]
  exact h x hx

theorem Numbered.apply {e : Entry} (h : Numbered q) (he : ∀ r, e ≠ .append r) :
    Numbered (q.apply e) :=
  apply_induction h (fun r hr => absurd hr (he r)) fun _ hc _ hq => hq.touch (keeps_changes hc)

theorem Numbered.push {r : Record} (h : Numbered q) (hr : (∃ x ∈ q.recs, x.id = r.id) ∨ 0 < r.seq) :
    Numbered (q.push r) := by
  unfold Queue.push
  split
  · exact h
  · next hnew =>
    intro x hx
    rcases mem_append.mp hx with hx | hx
    · exact h x hx
    · obtain rfl := mem_singleton.mp hx
      exact hr.resolve_left hnew

theorem Rep.known_or_numbered {r : Record} (h : Rep m q)
    (hguard : (m.items.get r.id).isSome ∨ m.seq < r.seq) :
    (∃ x ∈ q.recs, x.id = r.id) ∨ 0 < r.seq := by
  rcases hguard with hknown | hseq
  · obtain ⟨it, hit⟩ := Option.isSome_iff_exists.mp hknown
    obtain ⟨x, hx, hwhole⟩ := h.shows.record h.indexed (h.indexed.get_ptr hit)
    refine .inl ⟨x, hx, ?_⟩
    rw [(h.shows.sight.same hwhole).1]
    exact (h.indexed.live _ it hit).1
  · exact .inr (Nat.zero_lt_of_lt hseq)

theorem Numbered.exec {m' : Machine} {op : IndexOp} (h : Numbered q) (hrep : Rep m q)
    (hexec : op.exec m = some m') : Numbered (op.apply q) := by
  cases op with
  | insert | insertOffloaded =>
    simp only [IndexOp.exec, Option.ite_none_right_eq_some] at hexec
    exact h.push (hrep.known_or_numbered hexec.1)
  | applyRequeue id replace cp =>
    refine h.touch ?_
    intro r r' hr
    cases hr
    split <;> exact ⟨rfl, rfl, rfl⟩
  | endReplay =>
    intro r hr
    obtain ⟨x, hx, rfl⟩ := mem_map.mp hr
    exact h x hx
  | reserve p => exact h
  | unreserve p => exact h
  | selectLease ord now req => exact h
  | _ =>
    refine h.apply ?_
    rintro r ⟨⟩

/-- In every state of the machine and for every page size, asking behind the last record
of a page until a page is empty comes to an end and lists every parked record once, in
Seq order; a page has at most as many records as asked for, and one record or at most
`maxParkedPageBytes` of whole records. -/
theorem paging_lists_parked_once (lim : Limits) (ops : List IndexOp) (m : Machine) (q : Queue)
    (hrun : run IndexOp.step (newMachine lim, .empty) ops = some (m, q)) (limit : Int) (fuel : Nat)
    (hfuel : m.parked.length < fuel) :
    ∃ ps, m.parkedPages limit fuel 0 = some ps ∧
      (∀ it, it ∈ ps.flatten ↔
        m.items.get it.record.id = some it ∧ it.record.state = .parked) ∧
      ps.flatten.Pairwise (fun it it' => it.record.seq < it'.record.seq) ∧
      ∀ page ∈ ps, page.length ≤ clampLimit limit ∧
        (page.length = 1 ∨ pageBytes page ≤ maxParkedPageBytes) ∧
          ∀ it ∈ page, ∃ r ∈ q.recs, Whole it r ∧ it.size = r.size := by
  obtain ⟨hrep, hnumbered⟩ : Rep m q ∧ Numbered q := by
    refine run_invariant IndexOp.step (I := fun s => Rep s.1 s.2 ∧ Numbered s.2) ?_
      ⟨rep_new lim, numbered_empty⟩ hrun
    intro s op t hs hstep
    obtain ⟨m', hexec, rfl⟩ := Option.map_eq_some_iff.mp hstep
    exact ⟨hs.1.exec hexec, hs.2.exec hs.1 hexec⟩
  have h := hrep.indexed
  have hle : (m.parkedAfter 0).length ≤ m.parked.length :=
    (length_filter_le _ _).trans (length_filterMap_le _ _)
  obtain ⟨ps, hps, hflat, hall⟩ := h.parkedPages_spec limit (lt_of_le_of_lt hle hfuel)
  refine ⟨ps, hps, ?_, ?_, ?_⟩
  · intro it
    rw [hflat, h.mem_parkedAfter]
    constructor
    · rintro ⟨hit, hstate, -⟩
      exact ⟨hit, hstate⟩
    · rintro ⟨hit, hstate⟩
      obtain ⟨r, hr, hwhole⟩ := hrep.shows.record h hit
      have hseq : r.seq = it.record.seq := (hrep.shows.sight.same hwhole).2.1
      exact ⟨hit, hstate, hseq ▸ hnumbered r hr⟩
  · rw [hflat]
    exact h.parkedAfter_asc 0
  · intro page hpage
    obtain ⟨hsome, hok⟩ := hall page hpage
    refine ⟨hok.count, hok.bytes.imp_left fun hle => ?_, ?_⟩
    · exact le_antisymm hle (length_pos_of_ne_nil hsome)
    · intro it hit
      have hmem : it ∈ m.parkedAfter 0 := by
        rw [← hflat]
        exact mem_flatten_of_mem hpage hit
      obtain ⟨r, hr, hwhole⟩ := hrep.shows.record h (h.mem_parkedAfter.mp hmem).1
      exact ⟨r, hr, hwhole, hwhole.size_eq⟩

/-- Three parked records, with a pending one between them. -/
def parkedDemo : List IndexOp :=
  [.insert { demoRecord "a" 1 "k" "db" 0 with state := .parked },
    .insert (demoRecord "b" 2 "k" "db" 0),
    .insert { demoRecord "c" 3 "k" "api" 0 with state := .parked },
    .insert { demoRecord "d" 4 "k" "db" 0 with state := .parked }]

theorem paging_lists_parked_once_by_two :
    ∃ m q ps, run IndexOp.step (newMachine ⟨0, 0, 0⟩, .empty) parkedDemo = some (m, q) ∧
      m.parkedPages 2 4 0 = some ps ∧ ps.map (·.map (·.record.seq)) = [[1, 3], [4]] ∧
        ∀ it, it ∈ ps.flatten ↔
          m.items.get it.record.id = some it ∧ it.record.state = .parked := by
  obtain ⟨⟨m, q⟩, ps, hrun, hps, hlen, hseqs⟩ : ∃ s ps, run IndexOp.step
      (newMachine ⟨0, 0, 0⟩, .empty) parkedDemo = some s ∧ s.1.parkedPages 2 4 0 = some ps ∧
        s.1.parked.length < 4 ∧ ps.map (·.map (·.record.seq)) = [[1, 3], [4]] := by
    decide +kernel
  obtain ⟨ps', hps', hmem, -⟩ := paging_lists_parked_once ⟨0, 0, 0⟩ parkedDemo m q hrun 2 4 hlen
  obtain rfl := Option.some.inj (hps.symm.trans hps')
  exact ⟨m, q, ps, hrun, hps, hseqs, hmem⟩

end Reachable

end Dlq
end GoGuard
