import GoGuard.Dlq.RoundTrip

/-!
# The resync scan

`validFrameAfter` reads one window of the log behind a damaged frame and tries every
offset of it. What it finds is what `readFrame` accepts at the same offset of the
file, provided the frame also ends inside the window.
-/

namespace GoGuard
namespace Dlq

open Lib List

variable {next maxEntry off k : Nat} {bs file : Bytes} {f : Frame}

/-- One candidate of the scan, as the loop tests the bytes of its buffer. -/
def candidate (next maxEntry : Nat) (bs : Bytes) : Bool :=
  if bs.length < frameOverhead + frameMeta then false
  else if leNat (bs.take 4) < frameMeta ∨ leNat (bs.take 4) > maxEntry + frameMeta ∨
      frameOverhead + leNat (bs.take 4) > bs.length then
    false
  else if crcUpdate (crcUpdate 0 (bs.take 4)) ((bs.drop 8).take (leNat (bs.take 4)))
      ≠ leNat ((bs.drop 4).take 4) then
    false
  else
    next ≤ leNat ((bs.drop 8).take 8) && entAppend ≤ ((bs.drop 16).head?).getD 0 &&
      ((bs.drop 16).head?).getD 0 ≤ entDiscard

/-- `validFrameAfter` of a file, with the entry limit it is told. -/
def validFrameAfterOf (file : Bytes) (off next maxEntry : Nat) : Bool :=
  ((file.drop (off + 1)).take resyncWindow).tails.any (candidate next maxEntry)

/-- A log entry type, and an LSN at or after `next`. -/
def LogEntry (next : Nat) (f : Frame) : Prop :=
  next ≤ f.lsn ∧ entAppend ≤ f.typ ∧ f.typ ≤ entDiscard

/-- What the bytes hold, read as a frame. -/
def heldFrame (bs : Bytes) : Frame :=
  ⟨leNat ((bs.drop 8).take 8), ((bs.drop 16).head?).getD 0,
    ((bs.drop 8).take (leNat (bs.take 4))).drop frameMeta,
    frameOverhead + leNat (bs.take 4)⟩

/-- The bytes begin with a whole frame of a size within the limit, and its checksum
is right. -/
structure Sound (maxEntry : Nat) (bs : Bytes) : Prop where
  lower : frameMeta ≤ leNat (bs.take 4)
  upper : leNat (bs.take 4) ≤ maxEntry + frameMeta
  whole : (heldFrame bs).size ≤ bs.length
  checksum : crcUpdate (crcUpdate 0 (bs.take 4)) ((bs.drop 8).take (leNat (bs.take 4))) =
    leNat ((bs.drop 4).take 4)

theorem readFrameOf_iff_sound :
    (∃ rest, readFrameOf bs.length maxEntry bs = .ok (f, rest)) ↔
      Sound maxEntry bs ∧ f = heldFrame bs := by
  constructor
  · rintro ⟨rest, h⟩
    unfold readFrameOf at h
    split at h
    · nomatch h
    split at h
    · nomatch h
    split at h
    · nomatch h
    next hlen =>
    split at h
    · nomatch h
    next hroom =>
    split at h
    · nomatch h
    split at h
    · nomatch h
    next hsum =>
    obtain ⟨rfl, -⟩ := Prod.mk.inj (Except.ok.inj h)
    have hwhole : frameOverhead + leNat (bs.take 4) ≤ bs.length := by omega
    exact ⟨⟨by omega, by omega, hwhole, not_not.mp hsum⟩, rfl⟩
  · rintro ⟨⟨hlower, hupper, hwhole, hsum⟩, rfl⟩
    simp only [heldFrame, frameOverhead, frameMeta] at hlower hupper hwhole
    have hne : bs ≠ [] := ne_nil_of_length_pos (by omega)
    have hdrop : ¬(bs.drop 8).length < leNat (bs.take 4) := by
      rw [length_drop]
      omega
    refine ⟨bs.drop (frameOverhead + leNat (bs.take 4)), ?_⟩
    rw [readFrameOf, if_neg hne, if_neg (by rw [frameOverhead]; omega),
      if_neg (by rw [frameMeta]; omega), if_neg (by rw [frameOverhead]; omega),
      if_neg hdrop, if_neg (not_not.mpr hsum)]
    rfl

theorem candidate_iff_sound :
    candidate next maxEntry bs = true ↔ Sound maxEntry bs ∧ LogEntry next (heldFrame bs) := by
  unfold candidate
  constructor
  · intro h
    split at h
    · nomatch h
    split at h
    · nomatch h
    next hlen =>
    split at h
    · nomatch h
    next hsum =>
    simp only [Bool.and_eq_true, decide_eq_true_eq, and_assoc] at h
    have hwhole : frameOverhead + leNat (bs.take 4) ≤ bs.length := by omega
    exact ⟨⟨by omega, by omega, hwhole, not_not.mp hsum⟩, h⟩
  · rintro ⟨⟨hlower, hupper, hwhole, hsum⟩, hentry⟩
    have hroom : frameOverhead + leNat (bs.take 4) ≤ bs.length := hwhole
    rw [if_neg (by omega), if_neg (by omega), if_neg (not_not.mpr hsum)]
    simp only [Bool.and_eq_true, decide_eq_true_eq, and_assoc]
    exact hentry

theorem take_drop_take {i n : Nat} (h : i + n ≤ k) :
    ((bs.take k).drop i).take n = (bs.drop i).take n := by
  rw [drop_take, take_take, min_eq_left (by omega)]

/-- A cut of the bytes holds the same frame, and soundly, as long as it holds the
whole of it. -/
theorem sound_take :
    Sound maxEntry (bs.take k) ∧ LogEntry next (heldFrame (bs.take k)) ↔
      Sound maxEntry bs ∧ LogEntry next (heldFrame bs) ∧ (heldFrame bs).size ≤ k := by
  by_cases hk : frameOverhead + frameMeta ≤ k
  · rw [frameOverhead, frameMeta] at hk
    have hfour : (bs.take k).take 4 = bs.take 4 := by
      rw [take_take, min_eq_left (by omega)]
    have hhead : ((bs.take k).drop 16).head? = (bs.drop 16).head? := by
      rw [drop_take, head?_take, if_neg (by omega)]
    have hsize : (heldFrame (bs.take k)).size = (heldFrame bs).size := by
      rw [heldFrame, heldFrame, hfour]
    have hentry : LogEntry next (heldFrame (bs.take k)) ↔ LogEntry next (heldFrame bs) := by
      simp only [LogEntry, heldFrame, hhead, take_drop_take (show 8 + 8 ≤ k by omega)]
    have hbody (h : (heldFrame bs).size ≤ k) :
        ((bs.take k).drop 8).take (leNat (bs.take 4)) =
          (bs.drop 8).take (leNat (bs.take 4)) := take_drop_take h
    have hsum : ((bs.take k).drop 4).take 4 = (bs.drop 4).take 4 := take_drop_take (by omega)
    constructor
    · rintro ⟨⟨hlower, hupper, hwhole, hcheck⟩, he⟩
      rw [hsize, length_take] at hwhole
      rw [hfour, hsum, hbody (by omega)] at hcheck
      rw [hfour] at hlower hupper
      exact ⟨⟨hlower, hupper, by omega, hcheck⟩, hentry.mp he, by omega⟩
    · rintro ⟨⟨hlower, hupper, hwhole, hcheck⟩, he, hin⟩
      rw [← hfour] at hlower hupper
      refine ⟨⟨hlower, hupper, ?_, ?_⟩, hentry.mpr he⟩
      · rw [hsize, length_take]
        exact le_min hin hwhole
      · rw [hfour, hsum, hbody hin, hcheck]
  · have hlong (t : Bytes) (h : frameMeta ≤ leNat (t.take 4)) : k < (heldFrame t).size :=
      Nat.lt_of_lt_of_le (Nat.lt_of_not_le hk) (Nat.add_le_add_left h _)
    constructor
    · rintro ⟨hs, -⟩
      have hwhole := hs.whole
      have hlt := hlong _ hs.lower
      rw [length_take] at hwhole
      omega
    · rintro ⟨hs, -, hin⟩
      exact absurd hin (Nat.not_le.mpr (hlong _ hs.lower))

/-- What the scan finds: an entry that starts behind the damage and ends in the
window. -/
theorem validFrameAfterOf_iff :
    validFrameAfterOf file off next maxEntry = true ↔
      ∃ p, off < p ∧ Sound maxEntry (file.drop p) ∧ LogEntry next (heldFrame (file.drop p)) ∧
        p + (heldFrame (file.drop p)).size ≤ off + 1 + resyncWindow := by
  have hpos : ∀ bs, 0 < (heldFrame bs).size := fun bs =>
    Nat.lt_of_lt_of_le (by decide : 0 < frameOverhead) (Nat.le_add_right _ _)
  rw [validFrameAfterOf, any_eq_true]
  constructor
  · rintro ⟨t, ht, hcand⟩
    obtain ⟨j, rfl⟩ : ∃ j, t = ((file.drop (off + 1)).take resyncWindow).drop j :=
      ⟨_, suffix_iff_eq_drop.mp ((mem_tails _ _).mp ht)⟩
    rw [drop_take, drop_drop, candidate_iff_sound, sound_take] at hcand
    obtain ⟨hs, hentry, hk⟩ := hcand
    have hlt := hpos (file.drop (off + 1 + j))
    exact ⟨off + 1 + j, by omega, hs, hentry, by omega⟩
  · rintro ⟨p, hp, hs, hentry, hk⟩
    obtain ⟨j, rfl⟩ := Nat.exists_eq_add_of_lt hp
    refine ⟨((file.drop (off + 1)).take resyncWindow).drop j,
      (mem_tails _ _).mpr (drop_suffix _ _), ?_⟩
    rw [drop_take, drop_drop, candidate_iff_sound, sound_take,
      show off + 1 + j = off + j + 1 by omega]
    exact ⟨hs, hentry, by omega⟩

/-- Recovery asks for the frames behind its damage with the limit of the format. -/
theorem validFrameAfter_eq (next off : Nat) (file : Bytes) :
    validFrameAfter next (file.drop off) =
      validFrameAfterOf file off next maxEntryBytes := by
  have hat : validFrameAt next = candidate next maxEntryBytes := by
    funext bs
    rw [Bool.eq_iff_iff, candidate_iff_sound]
    constructor
    · intro h
      unfold validFrameAt at h
      split at h
      · nomatch h
      next f rest hread =>
      rw [← readFrameOf_length] at hread
      obtain ⟨hs, rfl⟩ := readFrameOf_iff_sound.mp ⟨rest, hread⟩
      simp only [Bool.and_eq_true, decide_eq_true_eq, and_assoc] at h
      exact ⟨hs, h⟩
    · rintro ⟨hs, hentry⟩
      obtain ⟨rest, hread⟩ := readFrameOf_iff_sound.mpr ⟨hs, rfl⟩
      rw [readFrameOf_length] at hread
      simp only [validFrameAt, hread, Bool.and_eq_true, decide_eq_true_eq, and_assoc]
      exact hentry
  rw [validFrameAfter, validFrameAfterOf, drop_drop, hat]

/-- An offset of the window where `readFrame` accepts an entry at or after `next`. -/
def AcceptedAt (file : Bytes) (off next maxEntry p : Nat) (f : Frame) : Prop :=
  off < p ∧ p ≤ off + resyncWindow ∧ LogEntry next f ∧
    ∃ rest, readFrameOf (file.drop p).length maxEntry (file.drop p) = .ok (f, rest)

/-- The last offset of the window starts an entry, and the bytes before it are
zeros. -/
def straddling : Bytes :=
  replicate resyncWindow 0 ++ appendFrame 5 entAck []

theorem candidate_zeros {n : Nat} {b : UInt8} {t : Bytes} (h : t <:+ replicate n 0 ++ [b]) :
    candidate next maxEntry t = false := by
  by_cases hlen : t.length < frameOverhead + frameMeta
  · rw [candidate, if_pos hlen]
  · have hzero : t.take 4 = replicate 4 0 := by
      obtain ⟨s, hs⟩ := h
      rw [frameOverhead, frameMeta] at hlen
      have hsum := congrArg length hs
      simp only [length_append, length_replicate, length_singleton] at hsum
      have hdrop : t = (replicate n 0 ++ [b]).drop s.length := by
        rw [← hs, drop_left]
      rw [hdrop, drop_append_of_le_length (by rw [length_replicate]; omega),
        drop_replicate, take_append_of_le_length (by rw [length_replicate]; omega),
        take_replicate, min_eq_left (by omega)]
    rw [candidate, if_neg hlen, if_pos (.inl (by rw [hzero]; decide))]

end Dlq
end GoGuard
