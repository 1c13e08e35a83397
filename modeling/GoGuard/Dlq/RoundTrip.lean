import GoGuard.Dlq.Fencing
import GoGuard.Dlq.WalInvariant

/-!
# What the files give back

The bodies of records and entries, and the frames of a segment, read back as they
were written.  For the bodies this covers every record `prepare` returns and every
entry a step of the store logs (`bodies_round_trip`): what was cut short or has more
behind it is refused, and what decodes at all decodes again from its own encoding.
For the frames it covers every place a file can be cut at (`stream_parses`).
-/

namespace GoGuard
namespace Dlq

open Lib Machine Queue List

section Bodies

/-- The codec keeps the times of the entry. -/
def Entry.TimesKept : Entry → Prop
  | .append r => r.TimesKept
  | .nack _ stamp next _ _ _ => KeptTime stamp ∧ KeptTime next
  | .park _ stamp _ => KeptTime stamp
  | _ => True

theorem Entry.TimesKept.stored {e : Entry} (h : e.TimesKept) : e.stored = e := by
  cases e with
  | append r =>
    have hrecord : r.stored = r := Record.TimesKept.stored h
    simp only [Entry.stored, hrecord]
  | nack id stamp next errText blockedOn refund =>
    obtain ⟨hstamp, hnext⟩ := h
    simp only [Entry.stored, hstamp.stored, hnext.stored]
  | park id stamp reason =>
    have hstamp : storedTime stamp = stamp := KeptTime.stored h
    simp only [Entry.stored, hstamp]
  | _ => rfl

variable {offload : Bool} {refOf : Entry → BlobRef} {s s' : Core} {e : Entry}

/-- An entry that a step logs and the log does not refuse can be read back. -/
theorem fits_of_step {a : CoreAct} (hseq : s.m.seq + 1 < 2 ^ 64)
    (hstep : s.step offload refOf a = some (s', some e)) (hsize : e.body.length ≤ maxEntryBytes) :
    e.Fits := by
  obtain ⟨hattempts, hrequeue⟩ := checked_step hstep
  refine ⟨lt_of_le_of_lt hsize (by decide), ?_⟩
  cases e with
  | append r =>
    obtain ⟨c, now, -, hexec⟩ := call_of_entry rfl hstep
    obtain ⟨r₀, hprep⟩ := logs_append (exec_logs hexec)
    have hprepared := prepare_eq_some hprep.2
    exact ⟨hprepared.seq ▸ hseq, hprepared.counted, hprepared.free⟩
  | requeue id replace cp =>
    cases replace with
    | false => exact hrequeue id cp rfl
    | true => trivial
  | _ => trivial

/-- Records and entries round trip, and decode strictly. -/
theorem bodies_round_trip :
    (∀ (m : Machine) (r rec : Record) (now : Time),
      m.prepare r now = .ok (some rec) → rec.Encodable → rec.TimesKept →
        decodeRecord.run (encodeRecord rec) = some (rec, [])) ∧
    (∀ (offload : Bool) (refOf : Entry → BlobRef) (s s' : Core) (a : CoreAct) (e : Entry),
      s.m.seq + 1 < 2 ^ 64 → s.step offload refOf a = some (s', some e) →
        e.body.length ≤ maxEntryBytes →
          decodeEntry e.typ e.body = some e.stored ∧ (e.TimesKept → e.stored = e)) ∧
    (∀ (bs : Bytes) (r : Record), whole decodeRecord bs = some r →
      whole decodeRecord (encodeRecord r) = some r) ∧
    (∀ (r : Record) (p : Bytes), r.Encodable → p <+: encodeRecord r → p ≠ encodeRecord r →
      whole decodeRecord p = none) ∧
    ∀ (r : Record) (more : Bytes), r.Encodable → more ≠ [] →
      whole decodeRecord (encodeRecord r ++ more) = none := by
  refine ⟨?_, ?_, ?_, ?_, ?_⟩
  · intro m r rec now hprep hencodable htimes
    have hread := hencodable.reads []
    rw [append_nil, htimes.stored] at hread
    exact hread
  · intro offload refOf s s' a e hseq hstep hsize
    exact ⟨decodeEntry_body (fits_of_step hseq hstep hsize), Entry.TimesKept.stored⟩
  · intro bs r hwhole
    obtain ⟨hencodable, htimes⟩ := gives_record.whole hwhole
    have hread := whole_of_reads hencodable.reads
    rw [htimes.stored] at hread
    exact hread
  · intro r p hencodable hp hne
    exact whole_of_prefix extends_record hencodable.reads hp hne
  · intro r more hencodable hne
    exact whole_of_more hencodable.reads hne

/-- A record without a value, with an empty checkpoint and a header twice. -/
def sparseRecord : Record :=
  { demoRecord "a" 1 "k" "db" zeroTime with
    headers := [⟨str "h", none⟩, ⟨str "h", some []⟩]
    firstFailed := 7
    lastFailed := 7
    checkpoint := some [] }

theorem sparseRecord_encodable : sparseRecord.Encodable where
  id := by decide
  seq := by decide
  kind := by decide
  name := by decide
  key := by decide
  value := by decide
  headers := by
    refine ⟨by decide, fun h hh => ?_⟩
    rcases mem_cons.mp hh with rfl | hh
    · exact ⟨by decide, by decide⟩
    · rw [mem_singleton.mp hh]
      exact ⟨by decide, by decide⟩
  orderKey := by decide
  blockedOn := by decide
  attempts := by decide
  lastError := by decide
  checkpoint := by decide

theorem bodies_round_trip_sparse :
    decodeRecord.run (encodeRecord sparseRecord) = some (sparseRecord, []) ∧
      whole decodeRecord (encodeRecord sparseRecord ++ [0]) = none := by
  have hprep : (newMachine ⟨0, 0, 0⟩).prepare sparseRecord 7 = .ok (some sparseRecord) := by
    decide
  exact ⟨bodies_round_trip.1 _ _ _ 7 hprep sparseRecord_encodable (by decide),
    bodies_round_trip.2.2.2.2 _ [0] sparseRecord_encodable (by decide)⟩

end Bodies

section Streams

/-- `readFrame` with what it is told: how many bytes the file still holds, and the
entry limit. -/
def readFrameOf (remaining : Int) (maxEntry : Nat) (bs : Bytes) :
    Except FrameError (Frame × Bytes) :=
  if bs = [] then .error .eof
  else if bs.length < frameOverhead then .error .torn
  else if leNat (bs.take 4) < frameMeta ∨ leNat (bs.take 4) > maxEntry + frameMeta then
    .error (.badLength (leNat (bs.take 4)))
  else if (leNat (bs.take 4) : Int) > remaining - frameOverhead then .error .torn
  else if (bs.drop 8).length < leNat (bs.take 4) then .error .torn
  else if crcUpdate (crcUpdate 0 (bs.take 4)) ((bs.drop 8).take (leNat (bs.take 4)))
      ≠ leNat ((bs.drop 4).take 4) then
    .error .checksum
  else
    .ok (⟨leNat ((bs.drop 8).take 8), ((bs.drop 16).head?).getD 0,
      ((bs.drop 8).take (leNat (bs.take 4))).drop frameMeta,
      frameOverhead + leNat (bs.take 4)⟩,
      bs.drop (frameOverhead + leNat (bs.take 4)))

/-- The frame loop: every frame takes its size off what remains. -/
def readStreamAux : Nat → Int → Bytes → List Frame × FrameError
  | 0, _, _ => ([], .eof)
  | fuel + 1, remaining, bs =>
    match readFrameOf remaining maxEntryBytes bs with
    | .error e => ([], e)
    | .ok (f, rest) =>
      (f :: (readStreamAux fuel (remaining - f.size) rest).1,
        (readStreamAux fuel (remaining - f.size) rest).2)

/-- The frames of a stream, and how reading them ends. -/
def readStream (bs : Bytes) : List Frame × FrameError :=
  readStreamAux (bs.length + 1) bs.length bs

theorem readFrameOf_length (bs : Bytes) :
    readFrameOf bs.length maxEntryBytes bs = readFrame bs := by
  unfold readFrameOf readFrame
  split
  · rfl
  · split
    · rfl
    · next hover =>
      split
      · rfl
      · have hroom : ((leNat (bs.take 4) : Int) > bs.length - frameOverhead) ↔
            leNat (bs.take 4) > bs.length - frameOverhead := by
          omega
        have hdrop : (bs.drop 8).length < leNat (bs.take 4) ↔
            leNat (bs.take 4) > bs.length - frameOverhead := by
          rw [length_drop, frameOverhead]
        simp only [hroom, hdrop]
        split
        · rfl
        · rfl

theorem readStreamAux_eq (fuel : Nat) (bs : Bytes) :
    readStreamAux fuel bs.length bs = scanFrames fuel bs := by
  induction fuel generalizing bs with
  | zero => rfl
  | succ fuel ih =>
    rw [readStreamAux, scanFrames, readFrameOf_length]
    cases hread : readFrame bs with
    | error e => rfl
    | ok x =>
      obtain ⟨f, rest⟩ := x
      obtain ⟨hrest, -, hle⟩ := readFrame_eq_ok hread
      have hleft : (bs.length : Int) - f.size = rest.length := by
        rw [hrest, length_drop]
        omega
      simp only [hleft, ih rest]

theorem readStream_eq (bs : Bytes) : readStream bs = frames bs :=
  readStreamAux_eq _ bs

theorem frames_flatMap {fs : List Frame} (hfs : ∀ f ∈ fs, f.Fits) :
    frames (fs.flatMap Frame.bytes) = (fs, .eof) := by
  induction fs with
  | nil => rfl
  | cons f fs ih =>
    have hread := (hfs f mem_cons_self).readFrame (fs.flatMap Frame.bytes)
    rw [flatMap_cons, frames_of_ok hread, ih fun g hg => hfs g (mem_cons_of_mem _ hg)]

theorem frames_cut {f : Frame} {t : Bytes} (hf : f.Fits) (ht : t <+: f.bytes)
    (hcut : t.length < f.bytes.length) : frames t = ([], if t = [] then .eof else .torn) := by
  by_cases hnil : t = []
  · subst hnil
    rfl
  · rw [if_neg hnil]
    exact frames_of_error (readFrame_cut hf.body ht hnil hcut)

theorem frames_prefix {fs : List Frame} {t : Bytes} (hfs : ∀ f ∈ fs, f.Fits)
    (ht : t <+: fs.flatMap Frame.bytes) (hne : t ≠ fs.flatMap Frame.bytes) :
    ∃ n < fs.length, (fs.take n).flatMap Frame.bytes <+: t ∧
      t.length < ((fs.take (n + 1)).flatMap Frame.bytes).length ∧
        frames t = (fs.take n, if t = (fs.take n).flatMap Frame.bytes then .eof else .torn) := by
  induction fs generalizing t with
  | nil => exact absurd (prefix_nil.mp ht) hne
  | cons f fs ih =>
    have hf := hfs f mem_cons_self
    rw [flatMap_cons] at ht hne
    by_cases hcut : t.length < f.bytes.length
    · -- the cut is inside the first frame
      have hpre : t <+: f.bytes :=
        prefix_of_prefix_length_le ht (prefix_append _ _) hcut.le
      refine ⟨0, Nat.succ_pos _, nil_prefix, ?_, frames_cut hf hpre hcut⟩
      rw [take_succ_cons, take_zero, flatMap_singleton]
      exact hcut
    · -- the first frame is whole, and the rest is cut
      obtain ⟨u, rfl⟩ : f.bytes <+: t :=
        prefix_of_prefix_length_le (prefix_append _ _) ht (not_lt.mp hcut)
      have hu : u <+: fs.flatMap Frame.bytes := (prefix_append_right_inj _).mp ht
      have hune : u ≠ fs.flatMap Frame.bytes := fun h => hne (congrArg (f.bytes ++ ·) h)
      obtain ⟨n, hn, hpre, hlen, hread⟩ :=
        ih (fun g hg => hfs g (mem_cons_of_mem _ hg)) hu hune
      refine ⟨n + 1, Nat.succ_lt_succ hn, ?_, ?_, ?_⟩
      · rw [take_succ_cons, flatMap_cons]
        exact (prefix_append_right_inj _).mpr hpre
      · rw [take_succ_cons, flatMap_cons, length_append, length_append]
        omega
      · rw [frames_of_ok (hf.readFrame u), hread]
        simp only [take_succ_cons, flatMap_cons, append_cancel_left_eq]

/-- A stream of frames reads back; what is left of it after a cut gives the frames
before the cut, and then its end or a torn frame. -/
theorem stream_parses (fs : List Frame) (hfs : ∀ f ∈ fs, f.Fits) :
    readStream (fs.flatMap Frame.bytes) = (fs, .eof) ∧
      ∀ t, t <+: fs.flatMap Frame.bytes → t ≠ fs.flatMap Frame.bytes →
        ∃ n < fs.length, (fs.take n).flatMap Frame.bytes <+: t ∧
          t.length < ((fs.take (n + 1)).flatMap Frame.bytes).length ∧
            readStream t =
              (fs.take n, if t = (fs.take n).flatMap Frame.bytes then .eof else .torn) := by
  simp only [readStream_eq]
  exact ⟨frames_flatMap hfs, fun t ht hne => frames_prefix hfs ht hne⟩

/-- The frames of two entries. -/
def twoFrames : List Frame :=
  [⟨1, entAck, str "a", 18⟩, ⟨2, entDiscard, [], 17⟩]

theorem stream_parses_two : readStream (twoFrames.flatMap Frame.bytes) = (twoFrames, .eof) := by
  have hfits : ∀ f ∈ twoFrames, f.Fits := by
    intro f hf
    rcases mem_cons.mp hf with rfl | hf
    · exact ⟨by decide, by decide, by decide⟩
    · rw [mem_singleton.mp hf]
      exact ⟨by decide, by decide, by decide⟩
  exact (stream_parses twoFrames hfits).1

end Streams

end Dlq
end GoGuard
