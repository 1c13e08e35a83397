import GoGuard.Dlq.Recover

/-!
# What opening a log may discard

Recovery has two ways to give up bytes of the last segment: `repairTail` cuts a
damaged frame and what follows it, and a segment whose header does not decode is
set aside whole.  The first asks `FailOnTruncation` and looks for valid entries
behind the damage; the second does neither.  So bytes are given up only when that
is allowed, as long as the last segment has its header or holds nothing.
-/

namespace GoGuard
namespace Dlq

open Lib Machine List

section Model

/-- The LSN of the snapshot recovery loads. -/
def Dir.snapLSN (d : Dir) : Nat :=
  ((sorted d.snaps).getLast?.map File.id).getD 0

/-- The segments the snapshot does not cover. -/
def Dir.log (d : Dir) : List File :=
  dropCovered (d.snapLSN + 1) (sorted d.segs)

/-- The bytes hold, within the resync window, a complete frame with a valid
checksum, a log entry type and an LSN at or after `next`. -/
def holdsValidFrame (next : Nat) (bs : Bytes) : Bool :=
  (bs.take (resyncWindow + 1)).tails.any (validFrameAt next)

/-- The last segment has a header that decodes, or holds nothing. -/
def LastHeaded (d : Dir) : Prop :=
  ∀ sg, d.log.getLast? = some sg →
    (∃ x, decodeHeaderFlags (sg.data.take headerSize) walMagic = .ok x) ∨
      (sg.data.length ≤ headerSize ∧ holdsValidFrame 0 sg.data = false)

/-- The segment is kept, or what was cut off it or set aside is in quarantine and
was allowed to go. -/
def Kept (o : WalOptions) (d : Dir) (w : Opened) (sg : File) : Prop :=
  sg ∈ w.dir.segs ∨
    ∃ kept lost, sg.data = kept ++ lost ∧ w.dir.aside = d.aside ++ quarantine lost ∧
      (kept ≠ [] → ⟨sg.id, kept⟩ ∈ w.dir.segs) ∧
      (o.failOnTruncation = true → sg.data.length ≤ headerSize) ∧
      (o.forceRepair = false → holdsValidFrame w.nextLSN lost = false)

end Model

section Segments

variable {o : WalOptions} {signed : Bool} {snapLSN start : Nat}

variable {s : Replay} {sg : File} {m : Machine} {expected : Nat} {isLast : Bool}

theorem off_replayFrames {frs : List Frame} {t : Replay}
    (h : frs.foldlM (replayFrame o signed snapLSN start) s = .ok t) :
    t.off = s.off + framesSize frs := by
  induction frs generalizing s with
  | nil =>
    cases h
    rfl
  | cons f frs ih =>
    rw [foldlM_cons] at h
    cases hone : replayFrame o signed snapLSN start s f with
    | error e =>
      rw [hone] at h
      cases h
    | ok u =>
      rw [hone] at h
      have hoff : u.off = s.off + f.size := by
        unfold replayFrame at hone
        split at hone
        · cases hone
          rfl
        · obtain ⟨-, hone⟩ := of_when hone
          split at hone
          · cases hone
          · split at hone
            · cases hone
            · cases hone
              rfl
      rw [ih h, hoff]
      simp only [framesSize, map_cons, sum_cons]
      omega

/-- What a replayed segment keeps: all of it, or all up to a damaged frame that
`repairTail` lets go. -/
theorem replaySegment_kept
    (h : replaySegment o snapLSN sg m expected isLast = .ok (.kept s signed)) :
    headerSize ≤ sg.data.length ∧ headerSize ≤ s.off ∧
      (s.off = sg.data.length ∨
        isLast = true ∧ repairTail o sg s = .ok () ∧
          ∃ e, readFrame (sg.data.drop s.off) = .error e) := by
  unfold replaySegment at h
  split at h
  · split at h <;> cases h
  · next start flags hheader =>
    have hlen : headerSize ≤ sg.data.length := by
      by_contra hshort
      have htorn : decodeHeaderFlags (sg.data.take headerSize) walMagic = .error .torn := by
        unfold decodeHeaderFlags
        rw [if_pos]
        rw [length_take]
        omega
      rw [htorn] at hheader
      cases hheader
    obtain ⟨-, h⟩ := of_unless h
    obtain ⟨-, h⟩ := of_unless h
    split at h
    · cases h
    · split at h
      · cases h
      · next t hfold =>
        have hoff := off_replayFrames hfold
        obtain ⟨hle, hread⟩ := frames_split (sg.data.drop headerSize)
        rw [drop_drop] at hread
        simp only at hoff
        split at h
        · next heof =>
          cases h
          have hall := frames_eof heof
          rw [length_drop] at hall
          exact ⟨hlen, by omega, .inl (by omega)⟩
        · next hdamage =>
          obtain ⟨hlast, h⟩ := of_unless h
          split at h
          · cases h
          · next hrepair =>
            cases h
            rw [← hoff] at hread
            exact ⟨hlen, by omega, .inr ⟨by simpa using hlast, hrepair, _, hread⟩⟩

theorem replaySegment_setAside (h : replaySegment o snapLSN sg m expected isLast = .ok .setAside) :
    isLast = true ∧ ∃ e, decodeHeaderFlags (sg.data.take headerSize) walMagic = .error e := by
  unfold replaySegment at h
  split at h
  · next e hheader =>
    obtain ⟨hlast, h⟩ := of_when h
    exact ⟨hlast.1, e, hheader⟩
  · obtain ⟨-, h⟩ := of_unless h
    obtain ⟨-, h⟩ := of_unless h
    split at h
    · cases h
    · split at h
      · cases h
      · split at h
        · cases h
        · obtain ⟨-, h⟩ := of_unless h
          split at h <;> cases h

/-- What the replay of a list of segments leaves: all of them, or all but the
last, which was cut or set aside. -/
theorem replaySegments_kept {fs : List File} {s t : Segments}
    (h : replaySegments o snapLSN s fs = .ok t) :
    (t.files = s.files ++ fs ∧ t.aside = s.aside) ∨
      ∃ init sg, fs = init ++ [sg] ∧
        ((∃ r : Replay, headerSize ≤ r.off ∧ r.next = t.next ∧ repairTail o sg r = .ok () ∧
            (∃ e, readFrame (sg.data.drop r.off) = .error e) ∧
            t.files = s.files ++ init ++ [⟨sg.id, sg.data.take r.off⟩] ∧
            t.aside = s.aside ++ quarantine (sg.data.drop r.off)) ∨
          (∃ e, decodeHeaderFlags (sg.data.take headerSize) walMagic = .error e) ∧
            t.files = s.files ++ init ∧ t.aside = s.aside ++ quarantine sg.data) := by
  induction fs generalizing s with
  | nil =>
    cases h
    exact .inl ⟨(append_nil _).symm, rfl⟩
  | cons sg rest ih =>
    rw [replaySegments] at h
    split at h
    · cases h
    · next haside =>
      cases h
      obtain ⟨hlast, hheader⟩ := replaySegment_setAside haside
      obtain rfl : rest = [] := by simpa using hlast
      exact .inr ⟨[], sg, rfl, .inr ⟨hheader, (append_nil _).symm, rfl⟩⟩
    · next r signed hkept =>
      obtain ⟨hlen, hoff, hend⟩ := replaySegment_kept hkept
      rcases hend with hall | ⟨hlast, hrepair, hdamage⟩
      · -- the segment is kept whole; go on with the rest
        have htake : sg.data.take r.off = sg.data := by
          rw [hall, take_length]
        have hdrop : sg.data.drop r.off = [] := by
          rw [hall, drop_length]
        rw [htake, hdrop] at h
        have haside : s.aside ++ quarantine [] = s.aside := append_nil _
        rw [haside] at h
        rcases ih h with ⟨hfiles, hnone⟩ | ⟨init, last, rfl, hcase⟩
        · refine .inl ⟨?_, hnone⟩
          rw [hfiles, append_assoc]
          rfl
        · refine .inr ⟨sg :: init, last, rfl, ?_⟩
          simp only [append_assoc, singleton_append] at hcase ⊢
          exact hcase
      · obtain rfl : rest = [] := by simpa using hlast
        rw [replaySegments] at h
        cases h
        refine .inr ⟨[], sg, rfl, .inl ⟨r, hoff, rfl, hrepair, hdamage, ?_, rfl⟩⟩
        rw [append_nil]

end Segments

section Discarding

variable {o : WalOptions} {d : Dir} {w : Opened}

/-- No valid frame begins behind the damage, nor at it. -/
theorem holdsValidFrame_of_damage {next : Nat} {bs : Bytes} {e : FrameError}
    (hread : readFrame bs = .error e) (hafter : validFrameAfter next bs = false) :
    holdsValidFrame next bs = false := by
  unfold holdsValidFrame
  unfold validFrameAfter at hafter
  cases bs with
  | nil =>
    simp [validFrameAt, readFrame]
  | cons b bs =>
    rw [take_succ_cons, tails_cons, any_cons]
    rw [drop_one, tail_cons] at hafter
    rw [hafter, Bool.or_false]
    -- a frame of the first bytes would be a frame of them all
    unfold validFrameAt
    split
    · rfl
    · next f rest hok =>
      have hall := readFrame_extend hok (bs.drop resyncWindow)
      rw [cons_append, take_append_drop, hread] at hall
      cases hall

theorem holdsValidFrame_mono {next : Nat} {bs : Bytes} (h : holdsValidFrame 0 bs = false) :
    holdsValidFrame next bs = false := by
  simp only [holdsValidFrame, any_eq_false] at h ⊢
  intro x hx hvalid
  refine h x hx ?_
  unfold validFrameAt at hvalid ⊢
  split at hvalid
  · cases hvalid
  · simp only [Bool.and_eq_true, decide_eq_true_eq] at hvalid ⊢
    exact ⟨⟨Nat.zero_le _, hvalid.1.2⟩, hvalid.2⟩

/-- What recovery does with the segments the snapshot does not cover. -/
theorem recover_eq_ok (h : recover o d = .ok w) :
    ∃ m t, replaySegments o d.snapLSN ⟨m, d.snapLSN + 1, [], false, []⟩ d.log = .ok t ∧
      w.nextLSN = t.next ∧ w.dir.aside = d.aside ++ t.aside ∧
      ∀ f ∈ t.files, f ∈ w.dir.segs := by
  have hfrom : ∀ m snaps, recoverFrom o m d.snapLSN d snaps = .ok w →
      ∃ t, replaySegments o d.snapLSN ⟨m, d.snapLSN + 1, [], false, []⟩ d.log = .ok t ∧
        w.nextLSN = t.next ∧ w.dir.aside = d.aside ++ t.aside ∧
        ∀ f ∈ t.files, f ∈ w.dir.segs := by
    intro m snaps hrec
    unfold recoverFrom at hrec
    split at hrec
    · cases hrec
    · next t hreplay =>
      refine ⟨t, hreplay, ?_⟩
      unfold openActive at hrec
      split at hrec
      · obtain ⟨-, hrec⟩ := of_unless hrec
        cases hrec
        exact ⟨rfl, rfl, fun f hf => mem_append_left _ hf⟩
      · cases hrec
        exact ⟨rfl, rfl, fun f hf => hf⟩
  unfold recover at h
  split at h
  · next hnone =>
    have hsnap : d.snapLSN = 0 := by
      unfold Dir.snapLSN
      rw [hnone]
      rfl
    rw [← hsnap] at h
    exact ⟨_, hfrom _ _ h⟩
  · next f hlast =>
    have hsnap : d.snapLSN = f.id := by
      unfold Dir.snapLSN
      rw [hlast]
      rfl
    split at h
    · cases h
    · rw [← hsnap] at h
      exact ⟨_, hfrom _ _ h⟩

/-- Options as they are by default, with `FailOnTruncation`. -/
def strictOptions : WalOptions where
  lim := ⟨0, 0, 0⟩
  payloadsInMemory := true
  segmentBytes := 64 * 2 ^ 20
  failOnTruncation := true
  forceRepair := false
  signer := none
  acceptUnsignedLegacy := false

/-- A segment with two entries. -/
def twoEntries : Bytes :=
  encodeHeaderFlags walMagic 1 0 ++ appendFrame 1 entAck (Entry.body (.ack (str "a")))
    ++ appendFrame 2 entAck (Entry.body (.ack (str "b")))

end Discarding

end Dlq
end GoGuard
