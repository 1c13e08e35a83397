import GoGuard.Dlq.Wal

/-!
# What the steps of a store do to its files

Writing an entry and starting a segment keep every frame that is there.  A cut of
the last segment keeps the entries that lie wholly before it and leaves a torn
frame.  Of the files a compaction leaves behind, recovery reads exactly those its
snapshot does not cover.
-/

namespace GoGuard
namespace Dlq

open Lib Machine List

section Growing

/-- Every file of one list is in the other, perhaps with more bytes. -/
def FilesGrow (fs fs' : List File) : Prop :=
  ∀ id f, fs.find? (·.id = id) = some f →
    ∃ f' more, fs'.find? (·.id = id) = some f' ∧ f'.data = f.data ++ more

theorem FilesGrow.refl (fs : List File) : FilesGrow fs fs :=
  fun _ f hf => ⟨f, [], hf, (append_nil _).symm⟩

theorem FilesGrow.trans {fs fs' fs'' : List File} (h : FilesGrow fs fs') (h' : FilesGrow fs' fs'') :
    FilesGrow fs fs'' := by
  intro id f hf
  obtain ⟨f', more, hf', hdata⟩ := h id f hf
  obtain ⟨f'', more', hf'', hdata'⟩ := h' id f' hf'
  exact ⟨f'', more ++ more', hf'', by rw [hdata', hdata, append_assoc]⟩

theorem filesGrow_append (fs extra : List File) : FilesGrow fs (fs ++ extra) := by
  intro id f hf
  refine ⟨f, [], ?_, (append_nil _).symm⟩
  rw [List.find?_append, hf]
  rfl

theorem filesGrow_appendLast (bs : Bytes) (fs : List File) : FilesGrow fs (appendLast bs fs) := by
  induction fs with
  | nil => exact FilesGrow.refl []
  | cons f fs ih =>
    cases fs with
    | nil =>
      intro id g hg
      simp only [appendLast, List.find?_cons, List.find?_nil] at hg ⊢
      split at hg
      · next heq =>
        cases hg
        exact ⟨⟨f.id, f.data ++ bs⟩, bs, by simp only [heq], rfl⟩
      · cases hg
    | cons f' fs =>
      intro id g hg
      simp only [appendLast] at ih ⊢
      rw [List.find?_cons] at hg ⊢
      split at hg
      · cases hg
        exact ⟨f, [], rfl, (append_nil _).symm⟩
      · exact ih id g hg

theorem kept_of_grow {d d' : Dir} (hsegs : FilesGrow d.segs d'.segs)
    (hsnaps : FilesGrow d.snaps d'.snaps) : Dir.Kept d d' := by
  have hfile : ∀ snap id data, d.file snap id = some data →
      ∃ more, d'.file snap id = some (data ++ more) := by
    intro snap id data hdata
    obtain ⟨f, hf, rfl⟩ := Option.map_eq_some_iff.mp hdata
    cases snap with
    | false =>
      obtain ⟨f', more, hf', hmore⟩ := hsegs id f hf
      exact ⟨more, Option.map_eq_some_iff.mpr ⟨f', hf', hmore⟩⟩
    | true =>
      obtain ⟨f', more, hf', hmore⟩ := hsnaps id f hf
      exact ⟨more, Option.map_eq_some_iff.mpr ⟨f', hf', hmore⟩⟩
  intro snap id off n bs hread
  unfold readAt at hread
  split at hread
  · cases hread
  · next data hdata =>
    obtain ⟨more, hmore⟩ := hfile snap id data hdata
    obtain ⟨hlen, rfl⟩ := of_guard hread
    have hroom : n ≤ (data.drop off).length := by
      rw [length_take] at hlen
      omega
    have hsame : ((data ++ more).drop off).take n = (data.drop off).take n := by
      by_cases hoff : off ≤ data.length
      · rw [drop_append_of_le_length hoff, take_append_of_le_length hroom]
      · have hzero : n = 0 := by
          rw [length_drop] at hroom
          omega
        rw [hzero, take_zero, take_zero]
    simp only [readAt, hmore, hsame, hlen, if_true]

end Growing

section Writing

variable {sg : Option Signer} {start : Nat} {closed : List (List Entry)} {es : List Entry}

theorem segFiles_concat
    (sgs : Signing) (start : Nat) (closed : List (List Entry)) (es : List Entry) :
    segFiles sgs start (closed ++ [es]) =
      segFiles sgs start closed ++
        [⟨start + closed.flatten.length,
          segData (sgs (start + closed.flatten.length)) (start + closed.flatten.length) es⟩] :=
  segFiles_append sgs start closed [es]

theorem appendLast_concat (bs : Bytes) (fs : List File) (f : File) :
    appendLast bs (fs ++ [f]) = fs ++ [⟨f.id, f.data ++ bs⟩] := by
  induction fs with
  | nil => rfl
  | cons g fs ih =>
    cases fs with
    | nil => rfl
    | cons g' fs =>
      rw [cons_append, cons_append, appendLast, ← cons_append, ih]
      · rfl
      · intro heq
        simp at heq

theorem mem_appendLast {bs : Bytes} {fs : List File} {f : File} (hf : f ∈ appendLast bs fs) :
    f ∈ fs ∨ ∃ g, fs.getLast? = some g ∧ f.id = g.id := by
  rcases eq_nil_or_concat' fs with rfl | ⟨init, g, rfl⟩
  · cases hf
  · rw [appendLast_concat] at hf
    rcases mem_append.mp hf with hf | hf
    · exact .inl (mem_append_left _ hf)
    · rw [mem_singleton.mp hf]
      exact .inr ⟨g, by simp, rfl⟩

theorem cutLast_concat (k : Nat) (fs : List File) (f : File) :
    cutLast k (fs ++ [f]) = fs ++ [⟨f.id, f.data.take k⟩] := by
  induction fs with
  | nil => rfl
  | cons g fs ih =>
    cases fs with
    | nil => rfl
    | cons g' fs =>
      rw [cons_append, cons_append, cutLast, ← cons_append, ih]
      · rfl
      · intro heq
        simp at heq

theorem segData_concat (sg : Option Signer) (start : Nat) (es : List Entry) (e : Entry) :
    segData sg start (es ++ [e]) =
      segData sg start es ++ entryFrame sg (start + es.length) e := by
  rw [segData, segData, entryFrames_append, ← append_assoc]
  simp [entryFrames]

theorem appendLast_segFiles
    (sgs : Signing) (start : Nat) (closed : List (List Entry)) (es : List Entry) (e : Entry) :
    appendLast (entryFrame (sgs (start + closed.flatten.length))
        (start + closed.flatten.length + es.length) e) (segFiles sgs start (closed ++ [es])) =
      segFiles sgs start (closed ++ [es ++ [e]]) := by
  rw [segFiles_concat, segFiles_concat, appendLast_concat, segData_concat]

end Writing

section Cutting

variable {sg : Option Signer} {lsn start k : Nat} {es : List Entry}

/-- The number of entries that lie wholly before byte `k`. -/
def wholeBefore (sg : Option Signer) : Nat → Nat → List Entry → Nat
  | _, _, [] => 0
  | lsn, k, e :: es =>
    if (entryFrame sg lsn e).length ≤ k then
      wholeBefore sg (lsn + 1) (k - (entryFrame sg lsn e).length) es + 1
    else 0

theorem wholeBefore_le (sg : Option Signer) (lsn k : Nat) (es : List Entry) :
    wholeBefore sg lsn k es ≤ es.length := by
  induction es generalizing lsn k with
  | nil => exact le_refl _
  | cons e es ih =>
    simp only [wholeBefore]
    split
    · exact Nat.succ_le_succ (ih _ _)
    · exact Nat.zero_le _

/-- A cut leaves the entries wholly before it, and what is left of the next one is
no frame. -/
theorem take_entryFrames (h : AllReadable sg lsn es) (k : Nat) :
    ∃ torn err, (entryFrames sg lsn es).take k =
        entryFrames sg lsn (es.take (wholeBefore sg lsn k es)) ++ torn ∧
      readFrame torn = .error err := by
  induction es generalizing lsn k with
  | nil => exact ⟨[], .eof, take_nil, rfl⟩
  | cons e es ih =>
    obtain ⟨hone, hrest⟩ := h
    simp only [wholeBefore, entryFrames]
    split
    · next hle =>
      obtain ⟨torn, err, htake, htorn⟩ := ih hrest (k - (entryFrame sg lsn e).length)
      refine ⟨torn, err, ?_, htorn⟩
      rw [take_append, take_of_length_le hle, htake, take_succ_cons]
      simp only [entryFrames, append_assoc]
    · next hlt =>
      refine ⟨(entryFrame sg lsn e).take k, ?_⟩
      rw [take_append_of_le_length (by omega), take_zero]
      by_cases hk : (entryFrame sg lsn e).take k = []
      · exact ⟨.eof, rfl, by rw [hk]; rfl⟩
      · refine ⟨.torn, rfl, readFrame_cut hone.length (List.take_prefix _ _) hk ?_⟩
        rw [length_take]
        change min k (entryFrame sg lsn e).length < (entryFrame sg lsn e).length
        omega

theorem take_segData_cut (h : AllReadable sg start es) (hk : headerSize ≤ k) :
    ∃ torn err, (segData sg start es).take k =
        segData sg start (es.take (wholeBefore sg start (k - headerSize) es)) ++ torn ∧
      readFrame torn = .error err := by
  obtain ⟨torn, err, htake, htorn⟩ := take_entryFrames h (k - headerSize)
  refine ⟨torn, err, ?_, htorn⟩
  have hlen := length_segHeader sg start
  rw [segData, take_append, take_of_length_le (by omega), hlen, htake, segData,
    append_assoc]

theorem le_wholeBefore {j : Nat} (hj : j ≤ es.length)
    (hk : (entryFrames sg lsn (es.take j)).length ≤ k) : j ≤ wholeBefore sg lsn k es := by
  induction es generalizing lsn k j with
  | nil => exact hj
  | cons e es ih =>
    cases j with
    | zero => exact Nat.zero_le _
    | succ j =>
      simp only [take_succ_cons, entryFrames, length_append] at hk
      simp only [wholeBefore]
      rw [if_pos (by omega)]
      refine Nat.succ_le_succ (ih (Nat.le_of_succ_le_succ hj) ?_)
      omega

theorem allReadable_take (h : AllReadable sg lsn es) (j : Nat) :
    AllReadable sg lsn (es.take j) := by
  rw [← take_append_drop j es, allReadable_append] at h
  exact h.1

end Cutting

section Covered

variable {fs : List File} {f : File} {n : Nat} {parts : List (List Entry)}

theorem find_of_nodup (h : (fs.map File.id).Nodup) (hf : f ∈ fs) :
    fs.find? (fun g => decide (g.id = f.id)) = some f := by
  induction fs with
  | nil => cases hf
  | cons g fs ih =>
    obtain ⟨hnot, hrest⟩ := nodup_cons.mp h
    rcases mem_cons.mp hf with rfl | hf
    · simp
    · have hne : g.id ≠ f.id := by
        intro heq
        exact hnot (heq ▸ mem_map_of_mem hf)
      rw [List.find?_cons_of_neg (by simpa using hne)]
      exact ih hrest hf

theorem nodup_of_ascending (h : fs.Pairwise fun a b => a.id < b.id) : (fs.map File.id).Nodup :=
  pairwise_map.mpr (h.imp fun {_ _} hab => hab.ne)

theorem sorted_of_ascending (h : fs.Pairwise fun a b => a.id < b.id) : sorted fs = fs := by
  refine List.Pairwise.insertionSort_eq (h.imp fun {a b} hab => ?_)
  exact hab.le

theorem dropCovered_of_lt (h : ∀ f ∈ fs.tail, n < f.id) : dropCovered n fs = fs := by
  cases fs with
  | nil => rfl
  | cons a fs =>
    cases fs with
    | nil => rfl
    | cons b fs =>
      have hb := h b mem_cons_self
      simp only [dropCovered]
      rw [if_neg (by omega)]

theorem dropCovered_append {old : List File} {rest : List File} (hold : ∀ g ∈ old, g.id < n)
    (hf : f.id = n) (hrest : ∀ g ∈ rest, n < g.id) :
    dropCovered n (old ++ f :: rest) = f :: rest := by
  induction old with
  | nil => exact dropCovered_of_lt hrest
  | cons a old ih =>
    have ih := ih fun g hg => hold g (mem_cons_of_mem _ hg)
    cases old with
    | nil =>
      simp only [cons_append, nil_append, dropCovered] at ih ⊢
      rw [if_pos hf.le]
      exact ih
    | cons b old =>
      have hb := hold b (mem_cons_of_mem _ mem_cons_self)
      simp only [cons_append, dropCovered] at ih ⊢
      rw [if_pos hb.le]
      exact ih

theorem keepSome_sublist (bs : List Bool) (fs : List File) : (keepSome bs fs).Sublist fs := by
  induction bs generalizing fs with
  | nil => exact nil_sublist _
  | cons b bs ih =>
    cases fs with
    | nil => exact nil_sublist _
    | cons f fs =>
      simp only [keepSome]
      split
      · exact (ih fs).cons_cons f
      · exact (ih fs).cons f

theorem segFiles_lt (sgs : Signing) (start : Nat) (hne : ∀ part ∈ parts, part ≠ []) :
    ∀ f ∈ segFiles sgs start parts, start ≤ f.id ∧ f.id < start + parts.flatten.length := by
  induction parts generalizing start with
  | nil => exact fun _ hf => nomatch hf
  | cons es parts ih =>
    have hpos := length_pos_iff.mpr (hne es mem_cons_self)
    have hflat := start_add_flatten start es parts
    intro f hf
    rcases mem_cons.mp hf with rfl | hf
    · exact ⟨le_refl _, by simp only; omega⟩
    · have hrest := ih (start + es.length)
        (fun part hpart => hne part (mem_cons_of_mem _ hpart)) f hf
      omega

theorem segFiles_ids (sgs : Signing) (start : Nat) (hfilled : Filled parts) :
    (segFiles sgs start parts).Pairwise (fun a b => a.id < b.id) ∧
      (∀ f ∈ segFiles sgs start parts, start ≤ f.id ∧ f.id ≤ start + parts.flatten.length) ∧
        ∀ f ∈ (segFiles sgs start parts).tail, start < f.id := by
  induction parts generalizing start with
  | nil =>
    refine ⟨.nil, ?_, ?_⟩
    · exact fun _ hf => nomatch hf
    · exact fun _ hf => nomatch hf
  | cons es parts ih =>
    cases parts with
    | nil =>
      refine ⟨pairwise_singleton _ _, ?_, fun _ hf => nomatch hf⟩
      intro f hf
      rw [mem_singleton.mp hf]
      exact ⟨le_refl _, Nat.le_add_right _ _⟩
    | cons es' parts =>
      obtain ⟨hne, hfilled⟩ := hfilled
      have hpos := length_pos_iff.mpr hne
      obtain ⟨hpair, hrange, -⟩ := ih (start + es.length) hfilled
      have hlater : ∀ f ∈ segFiles sgs (start + es.length) (es' :: parts), start < f.id := by
        intro f hf
        have := (hrange f hf).1
        omega
      refine ⟨List.Pairwise.cons hlater hpair, ?_, hlater⟩
      intro f hf
      have hlen : (es :: es' :: parts).flatten.length =
          es.length + (es' :: parts).flatten.length := by
        rw [flatten_cons, length_append]
      rcases mem_cons.mp hf with rfl | hf
      · exact ⟨le_refl _, Nat.le_add_right _ _⟩
      · have := hrange f hf
        omega

end Covered

end Dlq
end GoGuard
