import GoGuard.Dlq.Recover
import GoGuard.Dlq.Restart

/-!
# What was written is read back

The files a store writes: segments that hold entries with consecutive LSNs, and
snapshots.  Reading such a file replays exactly its entries, each at the reference
the store gave it when it was written (`replaySegments_written`), and loads
exactly the records of a snapshot (`loadSnapshot_written`).  The last segment may
end in bytes that are no frame, and may be followed by a segment whose header was
not written to the end.
-/

namespace GoGuard
namespace Dlq

open Lib Machine List

section Entries

variable (sg : Option Signer)

/-- What `logLocked` writes for an entry. -/
def entryFrame (lsn : Nat) (e : Entry) : Bytes :=
  appendFrame lsn e.typ (sealBody sg false lsn e.typ e.body)

/-- Entries with consecutive LSNs. -/
def entryFrames : Nat → List Entry → Bytes
  | _, [] => []
  | lsn, e :: es => entryFrame sg lsn e ++ entryFrames (lsn + 1) es

/-- A segment with its entries. -/
def segData (start : Nat) (es : List Entry) : Bytes :=
  encodeHeaderFlags walMagic start (fileFlags sg) ++ entryFrames sg start es

/-- The log can read the entry back: its numbers fit, and so does its sealed
body. -/
structure Readable (lsn : Nat) (e : Entry) : Prop where
  lsn_lt : lsn < 2 ^ 64
  fits : e.Fits
  length : (sealBody sg false lsn e.typ e.body).length ≤ maxEntryBytes

/-- Entries with consecutive LSNs that the log can read back. -/
def AllReadable : Nat → List Entry → Prop
  | _, [] => True
  | lsn, e :: es => Readable sg lsn e ∧ AllReadable (lsn + 1) es

/-- The frame of an entry. -/
def frameOf (lsn : Nat) (e : Entry) : Frame :=
  ⟨lsn, e.typ, sealBody sg false lsn e.typ e.body, (entryFrame sg lsn e).length⟩

def framesOf : Nat → List Entry → List Frame
  | _, [] => []
  | lsn, e :: es => frameOf sg lsn e :: framesOf (lsn + 1) es

/-- The entries of a segment as they are read back, and where they are. -/
def placed (start : Nat) : Nat → Nat → List Entry → List (Entry × BlobRef)
  | _, _, [] => []
  | off, lsn, e :: es =>
    (e.stored, segRef sg.isSome e.typ start off (entryFrame sg lsn e).length)
      :: placed start (off + (entryFrame sg lsn e).length) (lsn + 1) es

/-- The machine after entries are replayed. -/
def replayAll (offload : Bool) (m : Machine) (xs : List (Entry × BlobRef)) : Machine :=
  xs.foldl (fun m x => applyEntry offload m x.2 x.1) m

variable {sg} {lsn : Nat} {es : List Entry}

/-- The store reads the files that one with this signer wrote. -/
def WalOptions.Reads (o : WalOptions) (sg : Option Signer) : Prop :=
  sg = o.signer ∨ sg = none ∧ o.acceptUnsignedLegacy = true

theorem WalOptions.reads_own (o : WalOptions) : o.Reads o.signer :=
  .inl rfl

variable {o : WalOptions} {base : Nat}

theorem WalOptions.Reads.opens (h : o.Reads sg) : Opens o.signer sg :=
  h.imp id fun h => h.1

theorem WalOptions.Reads.flags (h : o.Reads sg) :
    checkFileFlags o.signer o.acceptUnsignedLegacy (fileFlags sg) = .ok sg.isSome := by
  rcases h with rfl | ⟨rfl, haccept⟩
  · exact checkFileFlags_fileFlags o.signer o.acceptUnsignedLegacy
  · rw [haccept]
    simp [checkFileFlags, fileFlags]

theorem entryFrames_append (sg : Option Signer) (lsn : Nat) (es fs : List Entry) :
    entryFrames sg lsn (es ++ fs) =
      entryFrames sg lsn es ++ entryFrames sg (lsn + es.length) fs := by
  induction es generalizing lsn with
  | nil => rfl
  | cons e es ih =>
    have hnext : lsn + 1 + es.length = lsn + (es.length + 1) := by omega
    simp only [cons_append, entryFrames, ih, append_assoc, length_cons, hnext]

theorem allReadable_append {fs : List Entry} :
    AllReadable sg lsn (es ++ fs) ↔
      AllReadable sg lsn es ∧ AllReadable sg (lsn + es.length) fs := by
  induction es generalizing lsn with
  | nil => simp [AllReadable]
  | cons e es ih =>
    have hnext : lsn + 1 + es.length = lsn + (es.length + 1) := by omega
    simp only [cons_append, AllReadable, ih, length_cons, hnext, and_assoc]

theorem frames_entryFrames (h : AllReadable sg lsn es) (tail : Bytes) :
    frames (entryFrames sg lsn es ++ tail) =
      (framesOf sg lsn es ++ (frames tail).1, (frames tail).2) := by
  induction es generalizing lsn with
  | nil => rfl
  | cons e es ih =>
    obtain ⟨⟨hlsn, -, hlen⟩, hrest⟩ := h
    have hread : readFrame (entryFrame sg lsn e ++ (entryFrames sg (lsn + 1) es ++ tail)) =
        .ok (frameOf sg lsn e, entryFrames sg (lsn + 1) es ++ tail) :=
      readFrame_appendFrame hlsn hlen e.typ _
    simp only [entryFrames, append_assoc]
    rw [frames_of_ok hread, ih hrest]
    rfl

theorem replayFrame_frameOf {start off : Nat} {e : Entry} (hsg : o.Reads sg) (h : Readable sg lsn e)
    (hbase : base < lsn) (m : Machine) :
    replayFrame o sg.isSome base start ⟨m, lsn, off⟩ (frameOf sg lsn e) =
      .ok ⟨applyEntry o.offload m
          (segRef sg.isSome e.typ start off (entryFrame sg lsn e).length) e.stored,
        lsn + 1, off + (entryFrame sg lsn e).length⟩ := by
  have hopen := hsg.opens.openBody false lsn e.typ e.body
  have hdecode := decodeEntry_body h.fits
  simp only [replayFrame, frameOf, hopen, hdecode, not_le.mpr hbase, if_false, if_true]

theorem replayFrames_framesOf (hsg : o.Reads sg) (h : AllReadable sg lsn es) (hbase : base < lsn)
    (start off : Nat) (m : Machine) :
    (framesOf sg lsn es).foldlM (replayFrame o sg.isSome base start) ⟨m, lsn, off⟩ =
      .ok ⟨replayAll o.offload m (placed sg start off lsn es), lsn + es.length,
        off + (entryFrames sg lsn es).length⟩ := by
  induction es generalizing lsn off m with
  | nil => rfl
  | cons e es ih =>
    obtain ⟨hone, hrest⟩ := h
    simp only [framesOf, foldlM_cons]
    rw [replayFrame_frameOf hsg hone hbase]
    have hnext : lsn + 1 + es.length = lsn + (es.length + 1) := by omega
    have hoff : off + (entryFrame sg lsn e).length
        + (entryFrames sg (lsn + 1) es).length =
        off + (entryFrames sg lsn (e :: es)).length := by
      simp only [entryFrames, length_append]
      omega
    refine (ih hrest (Nat.lt_succ_of_lt hbase) _ _).trans ?_
    rw [hoff, hnext]
    rfl

end Entries

section Segments

variable {o : WalOptions} {sg : Option Signer} {base start : Nat} {es : List Entry}
variable {tail : Bytes}

theorem length_walMagic : walMagic.length = 8 := by
  decide

theorem length_snapMagic : snapMagic.length = 8 := by
  decide

theorem fileFlags_le (sg : Option Signer) : fileFlags sg ≤ knownFlags := by
  cases sg <;> simp [fileFlags, knownFlags]

section

variable (sg start)

theorem length_segHeader : (encodeHeaderFlags walMagic start (fileFlags sg)).length = headerSize :=
  length_header length_walMagic

theorem length_segData (es : List Entry) :
    (segData sg start es).length = headerSize + (entryFrames sg start es).length := by
  rw [segData, length_append, length_segHeader]

theorem take_segData (es : List Entry) (tail : Bytes) :
    (segData sg start es ++ tail).take headerSize =
      encodeHeaderFlags walMagic start (fileFlags sg) := by
  have hlen := length_segHeader sg start
  rw [segData, append_assoc, take_append_of_le_length hlen.ge,
    take_of_length_le hlen.le]

theorem drop_segData (es : List Entry) (tail : Bytes) :
    (segData sg start es ++ tail).drop headerSize = entryFrames sg start es ++ tail := by
  have hlen := length_segHeader sg start
  rw [segData, append_assoc, drop_append_of_le_length hlen.ge,
    drop_of_length_le hlen.le, nil_append]

end

/-- The state after the entries of a segment. -/
def afterSegment (o : WalOptions) (sg : Option Signer) (m : Machine) (start : Nat)
    (es : List Entry) :
    Replay where
  m := replayAll o.offload m (placed sg start headerSize start es)
  next := start + es.length
  off := (segData sg start es).length

variable {e : FrameError} {lsn : Nat} {parts ys : List (List Entry)} {s : Segments}

section

variable (hsg : o.Reads sg) (h : AllReadable sg start es) (hstart : start < 2 ^ 64)
    (hbase : base < start) (m : Machine)
include hsg h hstart hbase m

theorem replay_written (htail : readFrame tail = .error e) :
    decodeHeaderFlags ((segData sg start es ++ tail).take headerSize) walMagic =
        .ok (start, fileFlags sg) ∧
      frames ((segData sg start es ++ tail).drop headerSize) =
        (framesOf sg start es, e) ∧
      (framesOf sg start es).foldlM (replayFrame o sg.isSome base start)
        ⟨m, start, headerSize⟩ = .ok (afterSegment o sg m start es) := by
  refine ⟨?_, ?_, ?_⟩
  · rw [take_segData]
    exact decodeHeaderFlags_encode length_walMagic hstart (fileFlags_le sg)
  · rw [drop_segData, frames_entryFrames h tail, frames_of_error htail, append_nil]
  · rw [replayFrames_framesOf hsg h hbase start headerSize m, afterSegment, length_segData]

theorem replaySegment_whole (isLast : Bool) :
    replaySegment o base ⟨start, segData sg start es⟩ m start isLast =
      .ok (.kept (afterSegment o sg m start es) sg.isSome) := by
  have hnil : readFrame [] = .error .eof := rfl
  obtain ⟨hheader, hframes, hreplay⟩ := replay_written hsg h hstart hbase m hnil
  have hflags := hsg.flags
  rw [append_nil] at hheader hframes
  simp only [replaySegment, hheader, hflags, hframes, hreplay, ne_eq, not_true_eq_false,
    gt_iff_lt, lt_irrefl, if_false]

/-- The last segment is replayed up to the bytes that are no frame, and those are
for `repairTail`. -/
theorem replaySegment_torn (htail : readFrame tail = .error e) (htorn : tail ≠ []) :
    replaySegment o base ⟨start, segData sg start es ++ tail⟩ m start true =
      match repairTail o ⟨start, segData sg start es ++ tail⟩
          (afterSegment o sg m start es) with
      | .error err => .error err
      | .ok () => .ok (.kept (afterSegment o sg m start es) sg.isSome) := by
  obtain ⟨hheader, hframes, hreplay⟩ := replay_written hsg h hstart hbase m htail
  have hflags := hsg.flags
  simp only [replaySegment, hheader, hflags, hframes, hreplay, ne_eq, not_true_eq_false,
    gt_iff_lt, lt_irrefl, if_false, Bool.true_eq_false]
  cases e with
  | eof => exact absurd (readFrame_eq_eof htail) htorn
  | torn | badLength | checksum => rfl

end

/-- The signer of the files that a store begins when this LSN comes next. -/
abbrev Signing : Type :=
  Nat → Option Signer

/-- Segments that follow one another, from the first LSN on. -/
def segFiles (sgs : Signing) : Nat → List (List Entry) → List File
  | _, [] => []
  | start, es :: rest =>
    ⟨start, segData (sgs start) start es⟩ :: segFiles sgs (start + es.length) rest

/-- The entries of such segments as they are read back, and where they are. -/
def placedParts (sgs : Signing) : Nat → List (List Entry) → List (Entry × BlobRef)
  | _, [] => []
  | start, es :: rest =>
    placed (sgs start) start headerSize start es ++ placedParts sgs (start + es.length) rest

/-- Such segments with entries that the log can read back. -/
def PartsReadable (sgs : Signing) : Nat → List (List Entry) → Prop
  | _, [] => True
  | start, es :: rest =>
    AllReadable (sgs start) start es ∧ PartsReadable sgs (start + es.length) rest

/-- Entries with consecutive LSNs, each of which the log can read back. -/
def LogReadable (sgs : Signing) : Nat → List Entry → Prop
  | _, [] => True
  | lsn, e :: es => Readable (sgs lsn) lsn e ∧ LogReadable sgs (lsn + 1) es

theorem logReadable_append {sgs : Signing} {es fs : List Entry} :
    LogReadable sgs lsn (es ++ fs) ↔
      LogReadable sgs lsn es ∧ LogReadable sgs (lsn + es.length) fs := by
  induction es generalizing lsn with
  | nil => simp [LogReadable]
  | cons e es ih =>
    have hnext : lsn + 1 + es.length = lsn + (es.length + 1) := by omega
    simp only [cons_append, LogReadable, ih, length_cons, hnext, and_assoc]

theorem logReadable_congr {sgs sgs' : Signing} {es : List Entry}
    (h : ∀ n, lsn ≤ n → n < lsn + es.length → sgs n = sgs' n) (hread : LogReadable sgs lsn es) :
    LogReadable sgs' lsn es := by
  induction es generalizing lsn with
  | nil => trivial
  | cons e es ih =>
    simp only [length_cons] at h
    obtain ⟨hone, hrest⟩ := hread
    rw [h lsn (le_refl _) (by omega)] at hone
    exact ⟨hone, ih (fun n hle hlt => h n (by omega) (by omega)) hrest⟩

theorem allReadable_of_log (h : LogReadable (fun _ => sg) lsn es) : AllReadable sg lsn es := by
  induction es generalizing lsn with
  | nil => trivial
  | cons e es ih => exact ⟨h.1, ih h.2⟩

theorem partsReadable_of_all (h : AllReadable sg start parts.flatten) :
    PartsReadable (fun _ => sg) start parts := by
  induction parts generalizing start with
  | nil => trivial
  | cons es parts ih =>
    obtain ⟨hes, hparts⟩ := allReadable_append.mp h
    exact ⟨hes, ih hparts⟩

theorem replayAll_append (offload : Bool) (m : Machine) (xs ys : List (Entry × BlobRef)) :
    replayAll offload m (xs ++ ys) = replayAll offload (replayAll offload m xs) ys :=
  foldl_append

theorem start_add_flatten (start : Nat) (es : List Entry) (xs : List (List Entry)) :
    start + es.length + xs.flatten.length = start + (es :: xs).flatten.length := by
  simp only [flatten_cons, length_append]
  omega

theorem mem_segFiles {sgs : Signing} {start : Nat} {f : File} (hf : f ∈ segFiles sgs start parts) :
    ∃ es, f.data = segData (sgs f.id) f.id es := by
  induction parts generalizing start with
  | nil => cases hf
  | cons es parts ih =>
    rcases mem_cons.mp hf with rfl | hf
    · exact ⟨es, rfl⟩
    · exact ih hf

theorem segFiles_append (sgs : Signing) (start : Nat) (xs ys : List (List Entry)) :
    segFiles sgs start (xs ++ ys) =
      segFiles sgs start xs ++ segFiles sgs (start + xs.flatten.length) ys := by
  induction xs generalizing start with
  | nil => rfl
  | cons es xs ih =>
    simp only [cons_append, segFiles, ih, start_add_flatten]

theorem placedParts_append (sgs : Signing) (start : Nat) (xs ys : List (List Entry)) :
    placedParts sgs start (xs ++ ys) =
      placedParts sgs start xs ++ placedParts sgs (start + xs.flatten.length) ys := by
  induction xs generalizing start with
  | nil => rfl
  | cons es xs ih =>
    simp only [cons_append, placedParts, ih, start_add_flatten, append_assoc]

theorem partsReadable_append {sgs : Signing} {start : Nat} {xs : List (List Entry)} :
    PartsReadable sgs start (xs ++ ys) ↔
      PartsReadable sgs start xs ∧ PartsReadable sgs (start + xs.flatten.length) ys := by
  induction xs generalizing start with
  | nil => simp [PartsReadable]
  | cons es xs ih =>
    simp only [cons_append, PartsReadable, ih, start_add_flatten, and_assoc]

theorem segFiles_congr {sgs sgs' : Signing} {start : Nat}
    (h : ∀ n, start ≤ n → n ≤ start + parts.dropLast.flatten.length → sgs n = sgs' n) :
    segFiles sgs start parts = segFiles sgs' start parts ∧
      (PartsReadable sgs start parts ↔ PartsReadable sgs' start parts) := by
  induction parts generalizing start with
  | nil => exact ⟨rfl, Iff.rfl⟩
  | cons es parts ih =>
    have hfirst := h start (le_refl _) (Nat.le_add_right _ _)
    cases parts with
    | nil => simp only [segFiles, PartsReadable, hfirst, true_and]
    | cons es' parts =>
      have hrest : ∀ n, start + es.length ≤ n →
          n ≤ start + es.length + (es' :: parts).dropLast.flatten.length → sgs n = sgs' n := by
        intro n hle hlt
        refine h n (by omega) ?_
        rw [dropLast_cons₂, flatten_cons, length_append]
        omega
      obtain ⟨hfiles, hread⟩ := ih hrest
      rw [segFiles, hfiles, hfirst, PartsReadable, hread, hfirst]
      exact ⟨rfl, Iff.rfl⟩

/-- The signer of the last of such segments. -/
def lastSigner (sgs : Signing) (start : Nat) (parts : List (List Entry)) : Option Signer :=
  sgs (start + parts.dropLast.flatten.length)

theorem lastSigner_append (sgs : Signing) (start : Nat) (xs : List (List Entry)) (hne : ys ≠ []) :
    lastSigner sgs start (xs ++ ys) = lastSigner sgs (start + xs.flatten.length) ys := by
  unfold lastSigner
  rw [dropLast_append_of_ne_nil hne, flatten_append, length_append,
    Nat.add_assoc]

theorem lastSigner_concat (sgs : Signing) (start : Nat) (xs : List (List Entry)) (es : List Entry) :
    lastSigner sgs start (xs ++ [es]) = sgs (start + xs.flatten.length) :=
  lastSigner_append sgs start xs (cons_ne_nil es [])

/-- The segments after whole segments have been replayed. -/
def afterParts (o : WalOptions) (sgs : Signing) (s : Segments) (parts : List (List Entry)) :
    Segments where
  m := replayAll o.offload s.m (placedParts sgs s.next parts)
  next := s.next + parts.flatten.length
  files := s.files ++ segFiles sgs s.next parts
  signed := if parts = [] then s.signed else (lastSigner sgs s.next parts).isSome
  aside := s.aside

theorem afterParts_append
    (o : WalOptions) (sgs : Signing) (s : Segments) (xs ys : List (List Entry)) :
    afterParts o sgs (afterParts o sgs s xs) ys = afterParts o sgs s (xs ++ ys) := by
  have hsigned : (afterParts o sgs (afterParts o sgs s xs) ys).signed =
      (afterParts o sgs s (xs ++ ys)).signed := by
    cases ys with
    | nil => simp [afterParts]
    | cons es ys =>
      have hlast := lastSigner_append sgs s.next xs (cons_ne_nil es ys)
      simp [afterParts, hlast]
  simp only [afterParts, placedParts_append, segFiles_append, replayAll_append,
    append_assoc, flatten_append, length_append, Nat.add_assoc] at hsigned ⊢
  rw [hsigned]

theorem replaySegments_segFiles {sgs : Signing} (hsgs : ∀ n, s.next ≤ n → o.Reads (sgs n))
    (h : PartsReadable sgs s.next parts) (hlsn : s.next + parts.flatten.length < 2 ^ 64)
    (hbase : base < s.next) (rest : List File) :
    replaySegments o base s (segFiles sgs s.next parts ++ rest) =
      replaySegments o base (afterParts o sgs s parts) rest := by
  induction parts generalizing s with
  | nil =>
    have hnone : afterParts o sgs s [] = s := by
      simp [afterParts, segFiles, placedParts, replayAll]
    rw [hnone]
    rfl
  | cons es parts ih =>
    obtain ⟨hes, hparts⟩ := h
    simp only [flatten_cons, length_append] at hlsn
    have hkept := replaySegment_whole (hsgs s.next (le_refl _)) hes (by omega) hbase s.m
    have hoff : (segData (sgs s.next) s.next es).take
        (afterSegment o (sgs s.next) s.m s.next es).off = segData (sgs s.next) s.next es :=
      take_length
    have haside : (segData (sgs s.next) s.next es).drop
        (afterSegment o (sgs s.next) s.m s.next es).off = [] := drop_length
    simp only [segFiles, cons_append, replaySegments, hkept, hoff, haside, quarantine,
      if_true, append_nil]
    have hone : (⟨(afterSegment o (sgs s.next) s.m s.next es).m,
        (afterSegment o (sgs s.next) s.m s.next es).next,
        s.files ++ [⟨s.next, segData (sgs s.next) s.next es⟩], (sgs s.next).isSome, s.aside⟩ :
        Segments) = afterParts o sgs s [es] := by
      simp [afterParts, afterSegment, placedParts, segFiles, lastSigner]
    rw [hone]
    have hnext : (afterParts o sgs s [es]).next = s.next + es.length := by
      simp [afterParts]
    have hrest := ih (s := afterParts o sgs s [es]) (fun n hn => hsgs n (by omega))
      (hnext ▸ hparts) (by omega) (by omega)
    rw [hnext] at hrest
    rw [hrest, afterParts_append]
    rfl

/-- Whether recovery may cut what follows the last whole frame of the log. -/
def tailAllowed (o : WalOptions) (next : Nat) (torn : Bytes) : Bool :=
  torn = [] || !o.failOnTruncation && (o.forceRepair || !validFrameAfter next torn)

theorem repairTail_written (sg : Option Signer) (m : Machine) (htorn : tail ≠ []) :
    (∃ err, repairTail o ⟨start, segData sg start es ++ tail⟩ (afterSegment o sg m start es) =
        .error err ∧ tailAllowed o (start + es.length) tail = false) ∨
      repairTail o ⟨start, segData sg start es ++ tail⟩ (afterSegment o sg m start es) =
        .ok () ∧ tailAllowed o (start + es.length) tail = true := by
  have hdrop : (segData sg start es ++ tail).drop (afterSegment o sg m start es).off = tail :=
    drop_left
  have hnext : (afterSegment o sg m start es).next = start + es.length := rfl
  simp only [repairTail, tailAllowed, hdrop, hnext, htorn, decide_false, Bool.false_or]
  cases o.failOnTruncation with
  | true => exact .inl ⟨_, rfl, rfl⟩
  | false =>
    cases o.forceRepair with
    | true => exact .inr ⟨by simp, rfl⟩
    | false =>
      cases validFrameAfter (start + es.length) tail with
      | true =>
        refine .inl ⟨.corrupt false start (afterSegment o sg m start es).off .validFollows,
          ?_, rfl⟩
        simp
      | false => exact .inr ⟨by simp, rfl⟩

theorem replaySegments_torn {sgs : Signing} (hsg : o.Reads (sgs s.next))
    (h : AllReadable (sgs s.next) s.next es) (hlsn : s.next + es.length < 2 ^ 64)
    (hbase : base < s.next) (htail : readFrame tail = .error e)
    (hallowed : tailAllowed o (s.next + es.length) tail = true) :
    replaySegments o base s [⟨s.next, segData (sgs s.next) s.next es ++ tail⟩] =
      .ok { afterParts o sgs s [es] with aside := s.aside ++ quarantine tail } := by
  have hok : replaySegment o base ⟨s.next, segData (sgs s.next) s.next es ++ tail⟩ s.m s.next
      true = .ok (.kept (afterSegment o (sgs s.next) s.m s.next es) (sgs s.next).isSome) := by
    by_cases hne : tail = []
    · rw [hne, append_nil]
      exact replaySegment_whole hsg h (by omega) hbase s.m true
    · rw [replaySegment_torn hsg h (by omega) hbase s.m htail hne]
      rcases repairTail_written (sgs s.next) s.m hne with ⟨_, -, hrefused⟩ | ⟨hrepair, -⟩
      · rw [hallowed] at hrefused
        cases hrefused
      · rw [hrepair]
  have hoff : (segData (sgs s.next) s.next es ++ tail).take
      (afterSegment o (sgs s.next) s.m s.next es).off = segData (sgs s.next) s.next es :=
    take_left
  have haside : (segData (sgs s.next) s.next es ++ tail).drop
      (afterSegment o (sgs s.next) s.m s.next es).off = tail := drop_left
  simp only [replaySegments, decide_true, hok, hoff, haside]
  simp [afterParts, afterSegment, segFiles, placedParts, lastSigner]

theorem replaySegments_refused {sgs : Signing} (hsg : o.Reads (sgs s.next))
    (h : AllReadable (sgs s.next) s.next es) (hlsn : s.next + es.length < 2 ^ 64)
    (hbase : base < s.next) (htail : readFrame tail = .error e)
    (hrefused : tailAllowed o (s.next + es.length) tail = false) :
    ∃ err, replaySegments o base s [⟨s.next, segData (sgs s.next) s.next es ++ tail⟩] =
      .error err := by
  have hne : tail ≠ [] := by
    rintro rfl
    simp [tailAllowed] at hrefused
  have hlast := replaySegment_torn hsg h (by omega) hbase s.m htail hne
  rcases repairTail_written (sgs s.next) s.m hne with ⟨err, hrepair, -⟩ | ⟨-, hallowed⟩
  · rw [hrepair] at hlast
    exact ⟨err, by simp only [replaySegments, decide_true, hlast]⟩
  · rw [hrefused] at hallowed
    cases hallowed

theorem replaySegments_half {hdr : Bytes} (hlen : hdr.length < headerSize) :
    replaySegments o base s [⟨s.next, hdr⟩] =
      .ok { s with aside := s.aside ++ quarantine hdr } := by
  have hshort : (hdr.take headerSize).length < headerSize := by
    rw [length_take]
    omega
  have hheader : decodeHeaderFlags (hdr.take headerSize) walMagic = .error .torn := by
    unfold decodeHeaderFlags
    rw [if_pos hshort]
  simp only [replaySegments, replaySegment, hheader, decide_true, le_refl, and_self, if_true]

end Segments

section Snapshots

variable (sg : Option Signer)

/-- The frame of a record in the snapshot at `lsn`. -/
def snapFrame (lsn : Nat) (r : Record) : Bytes :=
  appendFrame 0 snapRecord (sealBody sg true lsn snapRecord (encodeRecord r))

def snapFrames (lsn : Nat) : List Record → Bytes
  | [] => []
  | r :: recs => snapFrame sg lsn r ++ snapFrames lsn recs

/-- The footer: the number of records and the last Seq. -/
def snapFooter (lsn count seq : Nat) : Bytes :=
  appendFrame 0 snapEnd (sealBody sg true lsn snapEnd (uvarint count ++ uvarint seq))

/-- What `writeSnapshot` and `writeSnapshotOffload` write. -/
def snapData (lsn : Nat) (recs : List Record) (seq : Nat) : Bytes :=
  encodeHeaderFlags snapMagic lsn (fileFlags sg)
    ++ (snapFrames sg lsn recs ++ snapFooter sg lsn recs.length seq)

/-- A record whose frame in a snapshot can be read back. -/
structure Snappable (lsn : Nat) (r : Record) : Prop where
  fits : r.Fits
  length : (sealBody sg true lsn snapRecord (encodeRecord r)).length ≤ maxEntryBytes

/-- The records of a snapshot as they are read back, and where they are. -/
def placedRecs (lsn : Nat) : Nat → List Record → List (Record × BlobRef)
  | _, [] => []
  | off, r :: recs =>
    (r.stored, snapRef sg.isSome lsn off (snapFrame sg lsn r).length)
      :: placedRecs lsn (off + (snapFrame sg lsn r).length) recs

def snapFrameOf (lsn : Nat) (r : Record) : Frame :=
  ⟨0, snapRecord, sealBody sg true lsn snapRecord (encodeRecord r), (snapFrame sg lsn r).length⟩

def snapFooterOf (lsn count seq : Nat) : Frame :=
  ⟨0, snapEnd, sealBody sg true lsn snapEnd (uvarint count ++ uvarint seq),
    (snapFooter sg lsn count seq).length⟩

variable {sg} {lsn : Nat} {recs : List Record}

theorem frames_snapFrames (h : ∀ r ∈ recs, Snappable sg lsn r) (rest : Bytes) :
    frames (snapFrames sg lsn recs ++ rest) =
      (recs.map (snapFrameOf sg lsn) ++ (frames rest).1, (frames rest).2) := by
  induction recs with
  | nil => rfl
  | cons r recs ih =>
    have hread : readFrame (snapFrame sg lsn r ++ (snapFrames sg lsn recs ++ rest)) =
        .ok (snapFrameOf sg lsn r, snapFrames sg lsn recs ++ rest) :=
      readFrame_appendFrame (by norm_num) (h r mem_cons_self).length snapRecord _
    simp only [snapFrames, append_assoc]
    rw [frames_of_ok hread, ih fun x hx => h x (mem_cons_of_mem _ hx)]
    rfl

theorem readFrame_snapFooter (sg : Option Signer) (lsn count seq : Nat) :
    readFrame (snapFooter sg lsn count seq) = .ok (snapFooterOf sg lsn count seq, []) := by
  have hcount := length_uvarint_le count
  have hseq := length_uvarint_le seq
  have hlen : (sealBody sg true lsn snapEnd (uvarint count ++ uvarint seq)).length ≤
      maxEntryBytes := by
    refine le_trans (length_sealBody_le sg true lsn snapEnd _) ?_
    simp only [length_append, maxSigBytes, maxEntryBytes]
    omega
  have hzero : 0 < 2 ^ 64 := by norm_num
  have hread := readFrame_appendFrame hzero hlen snapEnd []
  rw [append_nil] at hread
  exact hread

theorem whole_footer {count seq : Nat} (hcount : count < 2 ^ 64) (hseq : seq < 2 ^ 64) :
    whole Dec.footer (uvarint count ++ uvarint seq) = some (count, seq) :=
  whole_of_reads ((reads_uvarint hcount).bind ((reads_uvarint hseq).last rfl))

theorem items_insertRecord (offload : Bool) {m : Machine} {r : Record} (ref : BlobRef) {id : Bytes}
    (hne : id ≠ r.id) : (insertRecord offload m r ref).items.get id = m.items.get id := by
  rw [insertRecord_eq]
  split
  · rfl
  · rw [(insertItem_fields m (newItem offload r ref) r.size).2.1, newItem_id, if_neg hne]

theorem loadFrames_written {o : WalOptions} {seq size : Nat} {s : Loading} (hsg : o.Reads sg)
    (fin : FrameError) (h : ∀ r ∈ recs, Snappable sg lsn r)
    (hnew : ∀ r ∈ recs, s.m.items.get r.id = none) (hnodup : (recs.map Record.id).Nodup)
    (hcount : s.count + recs.length < 2 ^ 64) (hseq : seq < 2 ^ 64)
    (hsize : s.off + (snapFrames sg lsn recs).length
      + (snapFooter sg lsn (s.count + recs.length) seq).length = size) :
    loadFrames o sg.isSome lsn size fin s
        (recs.map (snapFrameOf sg lsn)
          ++ [snapFooterOf sg lsn (s.count + recs.length) seq]) =
      .ok (raiseSeq (loadRecords o.offload s.m (placedRecs sg lsn s.off recs)) seq) := by
  induction recs generalizing s with
  | nil =>
    have hopen := hsg.opens.openBody true lsn snapEnd
      (uvarint s.count ++ uvarint seq)
    have hfooter := whole_footer hcount hseq
    have htyp : snapEnd ≠ snapRecord := by decide
    simp only [snapFrames, length_nil, Nat.add_zero] at hsize hfooter
    simp only [map_nil, nil_append, length_nil, Nat.add_zero, loadFrames,
      snapFooterOf, hopen, htyp, if_false, if_true, hfooter, hsize, ne_eq, not_true_eq_false]
    rfl
  | cons r recs ih =>
    have hopen := hsg.opens.openBody true lsn snapRecord (encodeRecord r)
    have hdecode : whole decodeRecord (encodeRecord r) = some r.stored :=
      whole_of_reads (reads_record (h r mem_cons_self).fits)
    have hfresh : s.m.items.get r.stored.id = none := hnew r mem_cons_self
    obtain ⟨hnotin, hnodup⟩ := nodup_cons.mp hnodup
    have hnext : s.count + 1 + recs.length = s.count + (recs.length + 1) := by omega
    simp only [length_cons] at hcount hsize
    simp only [map_cons, cons_append, loadFrames, snapFrameOf, hopen, if_true,
      hdecode, hfresh, Option.isSome_none, Bool.false_eq_true, if_false, length_cons]
    rw [← hnext] at hcount hsize ⊢
    refine ih (s := ⟨_, _, s.count + 1⟩) (fun x hx => h x (mem_cons_of_mem _ hx)) ?_
      hnodup hcount ?_
    · intro x hx
      have hne : x.id ≠ r.stored.id := by
        intro heq
        exact hnotin (heq ▸ mem_map_of_mem hx)
      rw [items_insertRecord o.offload _ hne]
      exact hnew x (mem_cons_of_mem _ hx)
    · simp only [snapFrames, length_append] at hsize ⊢
      omega

/-- A written snapshot loads its records. -/
theorem loadSnapshot_written {o : WalOptions} {seq : Nat} (hsg : o.Reads sg)
    (h : ∀ r ∈ recs, Snappable sg lsn r) (hnodup : (recs.map Record.id).Nodup) (hlsn : lsn < 2 ^ 64)
    (hcount : recs.length < 2 ^ 64) (hseq : seq < 2 ^ 64) :
    loadSnapshot o ⟨lsn, snapData sg lsn recs seq⟩ =
      .ok (raiseSeq (loadRecords o.offload (newMachine o.lim)
        (placedRecs sg lsn headerSize recs)) seq) := by
  have hlen : (encodeHeaderFlags snapMagic lsn (fileFlags sg)).length = headerSize :=
    length_header length_snapMagic
  have hheader := decodeHeaderFlags_encode length_snapMagic hlsn (fileFlags_le sg)
  have hflags := hsg.flags
  have htake : (snapData sg lsn recs seq).take headerSize =
      encodeHeaderFlags snapMagic lsn (fileFlags sg) := by
    rw [snapData, take_append_of_le_length hlen.ge, take_of_length_le hlen.le]
  have hdrop : (snapData sg lsn recs seq).drop headerSize =
      snapFrames sg lsn recs ++ snapFooter sg lsn recs.length seq := by
    rw [snapData, drop_append_of_le_length hlen.ge, drop_of_length_le hlen.le,
      nil_append]
  have hframes := frames_snapFrames h (snapFooter sg lsn recs.length seq)
  rw [frames_of_ok (readFrame_snapFooter sg lsn recs.length seq)] at hframes
  have hload := loadFrames_written hsg .eof (s := ⟨newMachine o.lim, headerSize, 0⟩) h
    (fun _ _ => rfl) hnodup (by simpa using hcount) hseq rfl
  simp only [Nat.zero_add] at hload
  have hsize : headerSize + (snapFrames sg lsn recs).length
      + (snapFooter sg lsn recs.length seq).length =
      (snapData sg lsn recs seq).length := by
    simp only [snapData, length_append, hlen]
    omega
  rw [hsize] at hload
  simp only [loadSnapshot, htake, hheader, hflags, hdrop, hframes, ne_eq, not_true_eq_false,
    if_false]
  exact hload

end Snapshots

section Opening

variable {o : WalOptions} {sgs : Signing} {d : Dir} {base : Nat} {m : Machine} {snaps : List File}

/-- An open log: the entries behind its snapshot are in segments that follow one
another. -/
def openedLog (o : WalOptions) (sgs : Signing) (base : Nat) (m : Machine) (snaps : List File)
    (aside : List Bytes) (parts : List (List Entry)) :
    Opened where
  m := (replayAll o.offload m (placedParts sgs (base + 1) parts)).endReplay
  nextLSN := base + 1 + parts.flatten.length
  snapLSN := base
  dir := ⟨segFiles sgs (base + 1) parts, snaps, aside⟩

/-- The segments a log begins with, when nothing is left of them but damage. -/
def orFresh (parts : List (List Entry)) : List (List Entry) :=
  if parts = [] then [[]] else parts

/-- The files of a log: whole segments, and one that may end in the middle of a
frame. -/
def tornFiles (sgs : Signing) (start : Nat) (closed : List (List Entry)) (es : List Entry)
    (torn : Bytes) : List File :=
  segFiles sgs start closed ++
    [⟨start + closed.flatten.length,
      segData (sgs (start + closed.flatten.length)) (start + closed.flatten.length) es ++ torn⟩]

/-- The files of a log: whole segments, and one whose header was not written to
the end. -/
def halfFiles (sgs : Signing) (start : Nat) (parts : List (List Entry)) (hdr : Bytes) : List File :=
  segFiles sgs start parts ++ [⟨start + parts.flatten.length, hdr⟩]

theorem openActive_written {s : Segments} {parts : List (List Entry)}
    (hown : lastSigner sgs s.next parts = o.signer) (hnone : s.files = []) (hne : parts ≠ [])
    (bs : List Bytes) (aside : List Bytes) :
    openActive o base snaps aside { afterParts o sgs s parts with aside := bs } =
      .ok ⟨(afterParts o sgs s parts).m.endReplay, (afterParts o sgs s parts).next, base,
        ⟨segFiles sgs s.next parts, snaps, aside ++ bs⟩⟩ := by
  have hfiles : segFiles sgs s.next parts ≠ [] := by
    cases parts with
    | nil => exact absurd rfl hne
    | cons es parts => exact cons_ne_nil _ _
  have hactive : ¬ (segFiles sgs s.next parts = [] ∨
      o.signer.isSome = true ∧ o.signer.isSome = false) := by
    rintro (h | ⟨h, h'⟩)
    · exact hfiles h
    · rw [h] at h'
      cases h'
  simp only [openActive, afterParts, hnone, nil_append, hne, if_false, hown, hactive]

theorem recoverFrom_torn
    {closed : List (List Entry)} {es : List Entry} {torn : Bytes} {e : FrameError}
    (hsgs : ∀ n, base < n → o.Reads (sgs n))
    (hown : sgs (base + 1 + closed.flatten.length) = o.signer)
    (hsegs : dropCovered (base + 1) (sorted d.segs) = tornFiles sgs (base + 1) closed es torn)
    (h : PartsReadable sgs (base + 1) (closed ++ [es]))
    (hlsn : base + 1 + (closed ++ [es]).flatten.length < 2 ^ 64)
    (htorn : readFrame torn = .error e) :
    (tailAllowed o (base + 1 + (closed ++ [es]).flatten.length) torn = true →
      recoverFrom o m base d snaps =
        .ok (openedLog o sgs base m snaps (d.aside ++ quarantine torn) (closed ++ [es]))) ∧
      (tailAllowed o (base + 1 + (closed ++ [es]).flatten.length) torn = false →
        ∃ err, recoverFrom o m base d snaps = .error err) := by
  have hflat : (closed ++ [es]).flatten = closed.flatten ++ es := by simp
  rw [hflat, length_append, ← Nat.add_assoc] at hlsn ⊢
  obtain ⟨hclosed, hes, -⟩ := partsReadable_append.mp h
  have hwhole := replaySegments_segFiles (s := ⟨m, base + 1, [], false, []⟩) hsgs hclosed
    (by simp only; omega) (Nat.lt_succ_self base)
    [⟨base + 1 + closed.flatten.length, segData (sgs (base + 1 + closed.flatten.length))
      (base + 1 + closed.flatten.length) es ++ torn⟩]
  have hbase : base < base + 1 + closed.flatten.length := by omega
  have hnext : (afterParts o sgs ⟨m, base + 1, [], false, []⟩ closed).next =
      base + 1 + closed.flatten.length := rfl
  simp only [recoverFrom, hsegs, tornFiles, hwhole]
  constructor
  · intro hallowed
    have hlast := replaySegments_torn
      (s := afterParts o sgs ⟨m, base + 1, [], false, []⟩ closed) (hsgs _ hbase) hes hlsn hbase htorn
      hallowed
    rw [hnext] at hlast
    rw [hlast, afterParts_append]
    refine openActive_written ?_ rfl (by simp) _ _
    rw [lastSigner_concat]
    exact hown
  · intro hrefused
    obtain ⟨err, hlast⟩ := replaySegments_refused
      (s := afterParts o sgs ⟨m, base + 1, [], false, []⟩ closed) (hsgs _ hbase) hes hlsn hbase htorn
      hrefused
    rw [hnext] at hlast
    exact ⟨err, by rw [hlast]⟩

theorem recoverFrom_half {parts : List (List Entry)} {hdr : Bytes}
    (hsgs : ∀ n, base < n → o.Reads (sgs n)) (hown : lastSigner sgs (base + 1) parts = o.signer)
    (hsegs : dropCovered (base + 1) (sorted d.segs) = halfFiles sgs (base + 1) parts hdr)
    (h : PartsReadable sgs (base + 1) parts) (hlsn : base + 1 + parts.flatten.length < 2 ^ 64)
    (hhdr : hdr.length < headerSize) :
    recoverFrom o m base d snaps =
      .ok (openedLog o sgs base m snaps (d.aside ++ quarantine hdr) (orFresh parts)) := by
  have hwhole := replaySegments_segFiles (s := ⟨m, base + 1, [], false, []⟩) hsgs h hlsn
    (Nat.lt_succ_self base) [⟨base + 1 + parts.flatten.length, hdr⟩]
  have hlast : replaySegments o base (afterParts o sgs ⟨m, base + 1, [], false, []⟩ parts)
      [⟨base + 1 + parts.flatten.length, hdr⟩] =
      .ok { afterParts o sgs ⟨m, base + 1, [], false, []⟩ parts with
        aside := [] ++ quarantine hdr } :=
    replaySegments_half hhdr
  simp only [recoverFrom, hsegs, halfFiles, hwhole, hlast]
  by_cases hne : parts = []
  · subst hne
    have hfirst : sgs (base + 1) = o.signer := hown
    have hfresh : orFresh [] = [[]] := rfl
    simp only [hfresh, openedLog, segFiles, segData, hfirst]
    rfl
  · rw [orFresh, if_neg hne]
    exact openActive_written hown rfl hne _ _

end Opening

end Dlq
end GoGuard
