import GoGuard.Dlq.Codec

/-!
# Files of the log: headers, frames and signatures

A segment is a header and frames; a snapshot is a header, one frame per record
and a footer frame.  A frame carries its length and a checksum over everything
else; with a signer its body is followed by a signature and the length of that.

`readFrame` and `validFrameAfter` follow the source on whatever bytes a file
holds.  The results are about what was written: a written frame reads back
(`readFrame_appendFrame`), and what is left of it after a cut is torn
(`readFrame_cut`).
-/

namespace GoGuard
namespace Dlq

open Lib List

section Headers

def walMagic : Bytes := str "GGUARDWL"
def snapMagic : Bytes := str "GGUARDSN"
def formatVersion : Nat := 1
def headerSize : Nat := 32

/-- `length` and `crc`. -/
def frameOverhead : Nat := 8

/-- `lsn` and `type`. -/
def frameMeta : Nat := 9

/-- `DefaultMaxEntryBytes`; only tests set another limit. -/
def maxEntryBytes : Nat := 64 * 2 ^ 20

def flagSigned : Nat := 1
def knownFlags : Nat := flagSigned

/-- What the checksum of a header covers. -/
def headerFields (magic : Bytes) (lsn flags : Nat) : Bytes :=
  magic ++ leBytes 4 formatVersion ++ leBytes 4 flags ++ leBytes 8 lsn

/-- `encodeHeaderFlags`. -/
def encodeHeaderFlags (magic : Bytes) (lsn flags : Nat) : Bytes :=
  headerFields magic lsn flags ++ leBytes 4 (crc32c (headerFields magic lsn flags))
    ++ leBytes 4 0

inductive HeaderError where
  | torn
  | badMagic
  | checksum
  | version (v : Nat)
  | flags (f : Nat)
deriving DecidableEq

/-- `decodeHeaderFlags`: the LSN and the flags. -/
def decodeHeaderFlags (h magic : Bytes) : Except HeaderError (Nat × Nat) :=
  if h.length < headerSize then .error .torn
  else if h.take 8 ≠ magic then .error .badMagic
  else if leNat ((h.drop 24).take 4) ≠ crc32c (h.take 24) then .error .checksum
  else if leNat ((h.drop 8).take 4) ≠ formatVersion then
    .error (.version (leNat ((h.drop 8).take 4)))
  else if leNat ((h.drop 12).take 4) > knownFlags then
    .error (.flags (leNat ((h.drop 12).take 4)))
  else .ok (leNat ((h.drop 16).take 8), leNat ((h.drop 12).take 4))

variable {magic : Bytes} {lsn flags : Nat}

theorem length_headerFields (hmagic : magic.length = 8) (lsn flags : Nat) :
    (headerFields magic lsn flags).length = 24 := by
  simp [headerFields, hmagic]

theorem length_header (hmagic : magic.length = 8) :
    (encodeHeaderFlags magic lsn flags).length = headerSize := by
  simp [encodeHeaderFlags, length_headerFields hmagic lsn flags, headerSize]

theorem decodeHeaderFlags_encode (hmagic : magic.length = 8) (hlsn : lsn < 2 ^ 64)
    (hflags : flags ≤ knownFlags) :
    decodeHeaderFlags (encodeHeaderFlags magic lsn flags) magic = .ok (lsn, flags) := by
  have hlen := length_headerFields hmagic lsn flags
  have hfields : (encodeHeaderFlags magic lsn flags).take 24 = headerFields magic lsn flags := by
    unfold encodeHeaderFlags
    rw [append_assoc, take_append_of_le_length hlen.ge, take_of_length_le hlen.le]
  have hcrc : ((encodeHeaderFlags magic lsn flags).drop 24).take 4 =
      leBytes 4 (crc32c (headerFields magic lsn flags)) := by
    unfold encodeHeaderFlags
    rw [append_assoc, drop_append_of_le_length hlen.ge, drop_of_length_le hlen.le]
    simp
  have hflags' : flags < 256 ^ 4 := lt_of_le_of_lt hflags (by decide)
  have hpart : ∀ i k, i + k ≤ 24 → ((encodeHeaderFlags magic lsn flags).drop i).take k =
      ((headerFields magic lsn flags).drop i).take k := by
    intro i k hik
    rw [← hfields, drop_take, take_take, min_eq_left (by omega)]
  have hmagic' : (encodeHeaderFlags magic lsn flags).take 8 = magic := by
    have h := hpart 0 8 (by norm_num)
    rw [drop_zero, drop_zero] at h
    rw [h, headerFields, append_assoc, append_assoc,
      take_append_of_le_length hmagic.ge, take_of_length_le hmagic.le]
  have hversion : (((encodeHeaderFlags magic lsn flags).drop 8).take 4) =
      leBytes 4 formatVersion := by
    rw [hpart 8 4 (by norm_num), headerFields, append_assoc, append_assoc,
      drop_append_of_le_length hmagic.ge, drop_of_length_le hmagic.le]
    simp
  have hflag : (((encodeHeaderFlags magic lsn flags).drop 12).take 4) = leBytes 4 flags := by
    rw [hpart 12 4 (by norm_num), headerFields, append_assoc,
      drop_append_of_le_length (by simp [hmagic]),
      drop_of_length_le (by simp [hmagic])]
    simp
  have hat : (((encodeHeaderFlags magic lsn flags).drop 16).take 8) = leBytes 8 lsn := by
    rw [hpart 16 8 (by norm_num), headerFields,
      drop_append_of_le_length (by simp [hmagic]),
      drop_of_length_le (by simp [hmagic])]
    simp
  unfold decodeHeaderFlags
  rw [if_neg (by rw [length_header hmagic]; exact lt_irrefl _), if_neg (not_not.mpr hmagic'),
    hcrc, hfields, leNat_leBytes_of_lt (by have := crc32c_lt (headerFields magic lsn flags); omega),
    if_neg (not_not.mpr rfl), hversion, hflag, hat, leNat_leBytes_of_lt (v := formatVersion) (by decide),
    if_neg (not_not.mpr rfl), leNat_leBytes_of_lt hflags', if_neg (not_lt.mpr hflags),
    leNat_leBytes_of_lt (by norm_num at hlsn ⊢; exact hlsn)]

end Headers

section Frames

/-- What the checksum of a frame covers besides its length. -/
def framePayload (lsn : Nat) (typ : UInt8) (body : Bytes) : Bytes :=
  leBytes 8 lsn ++ [typ] ++ body

/-- `appendFrame`: the frame that is appended. -/
def appendFrame (lsn : Nat) (typ : UInt8) (body : Bytes) : Bytes :=
  leBytes 4 (frameMeta + body.length)
    ++ leBytes 4 (crcUpdate (crcUpdate 0 (leBytes 4 (frameMeta + body.length)))
      (framePayload lsn typ body))
    ++ framePayload lsn typ body

/-- `frame`. -/
structure Frame where
  lsn : Nat
  typ : UInt8
  body : Bytes
  size : Nat
deriving DecidableEq

inductive FrameError where
  | eof
  | torn
  | badLength (length : Nat)
  | checksum
deriving DecidableEq

/-- `readFrame`: the next frame and what follows it. -/
def readFrame (bs : Bytes) : Except FrameError (Frame × Bytes) :=
  if bs = [] then .error .eof
  else if bs.length < frameOverhead then .error .torn
  else if leNat (bs.take 4) < frameMeta ∨ leNat (bs.take 4) > maxEntryBytes + frameMeta then
    .error (.badLength (leNat (bs.take 4)))
  else if leNat (bs.take 4) > bs.length - frameOverhead then .error .torn
  else if crcUpdate (crcUpdate 0 (bs.take 4)) ((bs.drop 8).take (leNat (bs.take 4)))
      ≠ leNat ((bs.drop 4).take 4) then
    .error .checksum
  else
    .ok (⟨leNat ((bs.drop 8).take 8), ((bs.drop 16).head?).getD 0,
      ((bs.drop 8).take (leNat (bs.take 4))).drop frameMeta,
      frameOverhead + leNat (bs.take 4)⟩,
      bs.drop (frameOverhead + leNat (bs.take 4)))

variable {lsn : Nat} {typ : UInt8} {body rest : Bytes}

theorem length_framePayload (lsn : Nat) (typ : UInt8) (body : Bytes) :
    (framePayload lsn typ body).length = frameMeta + body.length := by
  simp [framePayload, frameMeta]
  omega

theorem length_appendFrame (lsn : Nat) (typ : UInt8) (body : Bytes) :
    (appendFrame lsn typ body).length = frameOverhead + (frameMeta + body.length) := by
  simp [appendFrame, length_framePayload, frameOverhead]
  omega

theorem maxEntryBytes_lt : maxEntryBytes + frameMeta < 256 ^ 4 := by
  decide

variable {t bs : Bytes} {f : Frame}

theorem leNat_length_field (hbody : body.length ≤ maxEntryBytes)
    (ht : t <+: appendFrame lsn typ body) (hlen : 4 ≤ t.length) :
    leNat (t.take 4) = frameMeta + body.length := by
  obtain ⟨u, hu⟩ := ht
  have htake : t.take 4 = leBytes 4 (frameMeta + body.length) := by
    have h := congrArg (List.take 4) hu
    rw [take_append_of_le_length hlen] at h
    rw [h, appendFrame, append_assoc, take_append_of_le_length (by simp),
      take_of_length_le (by simp)]
  rw [htake, leNat_leBytes_of_lt]
  have := maxEntryBytes_lt
  omega

/-- A written frame reads back, whatever follows it. -/
theorem readFrame_appendFrame (hlsn : lsn < 2 ^ 64) (hbody : body.length ≤ maxEntryBytes)
    (typ : UInt8) (rest : Bytes) :
    readFrame (appendFrame lsn typ body ++ rest) =
      .ok (⟨lsn, typ, body, (appendFrame lsn typ body).length⟩, rest) := by
  have hfull := length_appendFrame lsn typ body
  have hpay := length_framePayload lsn typ body
  have hfield : leNat ((appendFrame lsn typ body ++ rest).take 4) = frameMeta + body.length := by
    rw [take_append_of_le_length (by rw [hfull]; simp [frameOverhead, frameMeta]; omega)]
    refine leNat_length_field hbody (prefix_refl _) ?_
    rw [hfull]
    simp [frameOverhead, frameMeta]
    omega
  have hfour : (appendFrame lsn typ body ++ rest).take 4 = leBytes 4 (frameMeta + body.length) := by
    rw [appendFrame, append_assoc, append_assoc,
      take_append_of_le_length (by simp), take_of_length_le (by simp)]
  have hcrcField : ((appendFrame lsn typ body ++ rest).drop 4).take 4 =
      leBytes 4 (crcUpdate (crcUpdate 0 (leBytes 4 (frameMeta + body.length)))
        (framePayload lsn typ body)) := by
    rw [appendFrame, append_assoc, append_assoc,
      drop_append_of_le_length (by simp), drop_of_length_le (by simp),
      nil_append, take_append_of_le_length (by simp), take_of_length_le (by simp)]
  have hdrop : (appendFrame lsn typ body ++ rest).drop 8 = framePayload lsn typ body ++ rest := by
    rw [appendFrame, append_assoc (_ ++ _), drop_append_of_le_length (by simp),
      drop_of_length_le (by simp), nil_append]
  have htake : (framePayload lsn typ body ++ rest).take (frameMeta + body.length) =
      framePayload lsn typ body := by
    rw [take_append_of_le_length hpay.ge, take_of_length_le hpay.le]
  have hcrc : crcUpdate (crcUpdate 0 (leBytes 4 (frameMeta + body.length)))
      (framePayload lsn typ body) < 256 ^ 4 := by
    have h := crcUpdate_lt (framePayload lsn typ body)
      (crcUpdate_lt (c := 0) (leBytes 4 (frameMeta + body.length)) (by norm_num))
    exact h
  have hlsnField : ((appendFrame lsn typ body ++ rest).drop 8).take 8 = leBytes 8 lsn := by
    rw [hdrop, framePayload, append_assoc, append_assoc,
      take_append_of_le_length (by simp), take_of_length_le (by simp)]
  have htypField : (((appendFrame lsn typ body ++ rest).drop 16).head?).getD 0 = typ := by
    have h16 : (appendFrame lsn typ body ++ rest).drop 16 =
        ((appendFrame lsn typ body ++ rest).drop 8).drop 8 := by
      rw [drop_drop]
    rfl
  have hbodyField : (framePayload lsn typ body).drop frameMeta = body := by
    rw [framePayload, drop_append_of_le_length (by simp [frameMeta]),
      drop_of_length_le (by simp [frameMeta]), nil_append]
  have hrest : (appendFrame lsn typ body ++ rest).drop (frameOverhead + (frameMeta + body.length)) =
      rest := by
    rw [← hfull, drop_left]
  have hne : appendFrame lsn typ body ++ rest ≠ [] := by
    intro h
    have hnil := congrArg List.length h
    rw [length_append, hfull] at hnil
    simp [frameOverhead] at hnil
  unfold readFrame
  rw [if_neg hne, if_neg (by rw [length_append, hfull]; omega), hfield,
    if_neg (by omega), if_neg (by rw [length_append, hfull]; omega), hfour, hcrcField,
    hlsnField, htypField, hdrop, htake, leNat_leBytes_of_lt hcrc, if_neg (not_not.mpr rfl),
    hbodyField, hrest, leNat_leBytes_of_lt (by norm_num at hlsn ⊢; exact hlsn), hfull]

theorem readFrame_cut (hbody : body.length ≤ maxEntryBytes) (ht : t <+: appendFrame lsn typ body)
    (hne : t ≠ []) (hcut : t.length < (appendFrame lsn typ body).length) :
    readFrame t = .error .torn := by
  rw [length_appendFrame] at hcut
  unfold readFrame
  rw [if_neg hne]
  split
  · rfl
  · next hlen =>
    have hfield := leNat_length_field hbody ht (by simp only [frameOverhead] at hlen; omega)
    rw [hfield, if_neg (by omega), if_pos (by omega)]

/-- The bytes of a frame. -/
def Frame.bytes (f : Frame) : Bytes :=
  appendFrame f.lsn f.typ f.body

/-- A frame as it is read: its numbers fit, and its size is that of its bytes. -/
structure Frame.Fits (f : Frame) : Prop where
  lsn : f.lsn < 2 ^ 64
  body : f.body.length ≤ maxEntryBytes
  size : f.size = f.bytes.length

/-- A frame that is read is one that might have been written, and what follows it. -/
theorem readFrame_inv (h : readFrame bs = .ok (f, rest)) : f.Fits ∧ bs = f.bytes ++ rest := by
  obtain ⟨-, h⟩ := of_unless h
  obtain ⟨hover, h⟩ := of_unless h
  obtain ⟨hlength, h⟩ := of_unless h
  obtain ⟨hroom, h⟩ := of_unless h
  obtain ⟨hcrc, h⟩ := of_unless h
  cases h
  generalize hn : leNat (bs.take 4) = n at hlength hroom hcrc
  simp only [frameOverhead, frameMeta, not_or, not_lt] at hover hlength hroom
  have hfour : leBytes 4 n = bs.take 4 := by
    have hback := leBytes_leNat (bs.take 4)
    rw [length_take, min_eq_left (by omega), hn] at hback
    exact hback
  have hfield : ∀ i k, i + k ≤ bs.length →
      leBytes k (leNat ((bs.drop i).take k)) = (bs.drop i).take k := by
    intro i k hik
    have hback := leBytes_leNat ((bs.drop i).take k)
    rw [length_take, length_drop, min_eq_left (by omega)] at hback
    exact hback
  have hbody : (((bs.drop 8).take n).drop 9).length = n - 9 := by
    simp only [length_drop, length_take]
    omega
  have htyp : ∃ b more, bs.drop 16 = b :: more := by
    cases hdrop : bs.drop 16 with
    | nil =>
      have hlen := congrArg List.length hdrop
      rw [length_drop, length_nil] at hlen
      omega
    | cons b more => exact ⟨b, more, rfl⟩
  obtain ⟨b, more, htyp⟩ := htyp
  -- the payload is the LSN, the type and the body
  have hpayload : framePayload (leNat ((bs.drop 8).take 8))
      ((bs.drop 16).head?.getD 0) (((bs.drop 8).take n).drop 9) =
      (bs.drop 8).take n := by
    have hdrop : ∀ k, (bs.drop 8).drop (8 + k) = (b :: more).drop k := by
      intro k
      rw [← htyp, drop_drop, drop_drop]
      congr 1
      omega
    have hrest : (bs.drop 8).take n =
        (bs.drop 8).take 8 ++ ([b] ++ ((bs.drop 8).take n).drop 9) := by
      have h8 := take_append_drop 8 ((bs.drop 8).take n)
      rw [take_take, min_eq_left (by omega), drop_take, hdrop 0,
        drop_zero] at h8
      have hn9 : n - 8 = (n - 9) + 1 := by omega
      rw [drop_take, hdrop 1, ← h8, hn9]
      rfl
    rw [framePayload, hfield 8 8 (by omega), append_assoc, htyp]
    exact hrest.symm
  have hframe : appendFrame (leNat ((bs.drop 8).take 8))
      ((bs.drop 16).head?.getD 0) (((bs.drop 8).take n).drop 9) =
      bs.take (8 + n) := by
    have hlen : frameMeta + (((bs.drop 8).take n).drop 9).length = n := by
      rw [hbody, frameMeta]
      omega
    rw [appendFrame, hlen, hpayload, hfour, not_not.mp hcrc,
      hfield 4 4 (by omega), take_add, take_add (i := 4) (j := 4)]
  refine ⟨⟨?_, ?_, ?_⟩, ?_⟩
  · have hlt := leNat_lt ((bs.drop 8).take 8)
    rw [length_take, length_drop, min_eq_left (by omega)] at hlt
    exact hlt
  · simp only [frameMeta]
    omega
  · simp only [Frame.bytes, frameMeta, frameOverhead]
    rw [hframe, length_take]
    omega
  · simp only [Frame.bytes, frameMeta, frameOverhead]
    rw [hframe, take_append_drop]

theorem Frame.Fits.readFrame (h : f.Fits) (rest : Bytes) :
    readFrame (f.bytes ++ rest) = .ok (f, rest) := by
  have hread := readFrame_appendFrame h.lsn h.body f.typ rest
  rw [← Frame.bytes, ← h.size] at hread
  exact hread

theorem readFrame_eq_ok (h : readFrame bs = .ok (f, rest)) :
    rest = bs.drop f.size ∧ frameOverhead + frameMeta ≤ f.size ∧ f.size ≤ bs.length := by
  obtain ⟨hfits, rfl⟩ := readFrame_inv h
  have hlen := length_appendFrame f.lsn f.typ f.body
  rw [← Frame.bytes, ← hfits.size] at hlen
  refine ⟨?_, by omega, ?_⟩
  · rw [hfits.size, drop_left]
  · rw [length_append, ← hfits.size]
    omega

end Frames

section Scanning

/-- The frames of a file behind its header, and how reading them ends.  `fuel`
bounds their number. -/
def scanFrames : Nat → Bytes → List Frame × FrameError
  | 0, _ => ([], .eof)
  | fuel + 1, bs =>
    match readFrame bs with
    | .error e => ([], e)
    | .ok (f, rest) => (f :: (scanFrames fuel rest).1, (scanFrames fuel rest).2)

/-- The frames of a file behind its header, and how reading them ends. -/
def frames (bs : Bytes) : List Frame × FrameError :=
  scanFrames (bs.length + 1) bs

variable {bs rest : Bytes} {f : Frame}

theorem scanFrames_fuel {n k : Nat} (hn : bs.length < n) (hk : bs.length < k) :
    scanFrames n bs = scanFrames k bs := by
  induction n generalizing bs k with
  | zero => omega
  | succ n ih =>
    cases k with
    | zero => omega
    | succ k =>
      simp only [scanFrames]
      split
      · rfl
      · next f rest hread =>
        obtain ⟨rfl, hmin, hmax⟩ := readFrame_eq_ok hread
        have hlen : (bs.drop f.size).length = bs.length - f.size := length_drop
        simp only [frameOverhead, frameMeta] at hmin
        rw [ih (k := k) (by omega) (by omega)]

theorem frames_of_error {e : FrameError} (h : readFrame bs = .error e) : frames bs = ([], e) := by
  simp only [frames, scanFrames, h]

theorem frames_of_ok (h : readFrame bs = .ok (f, rest)) :
    frames bs = (f :: (frames rest).1, (frames rest).2) := by
  obtain ⟨hrest, hmin, hmax⟩ := readFrame_eq_ok h
  have hlen : rest.length = bs.length - f.size := by
    rw [hrest, length_drop]
  simp only [frameOverhead, frameMeta] at hmin
  have hfuel : scanFrames bs.length rest = frames rest :=
    scanFrames_fuel (by omega) (by omega)
  unfold frames
  rw [scanFrames, h]
  simp only [hfuel]
  rfl

/-- How far the frames of a file reach. -/
def framesSize (frs : List Frame) : Nat :=
  (frs.map Frame.size).sum

theorem frames_split (bs : Bytes) :
    framesSize (frames bs).1 ≤ bs.length ∧
      readFrame (bs.drop (framesSize (frames bs).1)) = .error (frames bs).2 := by
  induction hn : bs.length using Nat.strong_induction_on generalizing bs with
  | _ n ih =>
    cases hread : readFrame bs with
    | error e =>
      rw [frames_of_error hread]
      exact ⟨Nat.zero_le _, hread⟩
    | ok x =>
      obtain ⟨f, rest⟩ := x
      obtain ⟨hrest, hmin, hmax⟩ := readFrame_eq_ok hread
      simp only [frameOverhead, frameMeta] at hmin
      have hlen : rest.length = bs.length - f.size := by
        rw [hrest, length_drop]
      obtain ⟨hle, hend⟩ := ih rest.length (by omega) rest rfl
      rw [frames_of_ok hread]
      simp only [framesSize, map_cons, sum_cons] at hle hend ⊢
      refine ⟨by omega, ?_⟩
      rw [← drop_drop, ← hrest]
      exact hend

/-- Reading ends without an error only where nothing is left. -/
theorem readFrame_eq_eof (h : readFrame bs = .error .eof) : bs = [] := by
  unfold readFrame at h
  split at h
  · next hnil => exact hnil
  · obtain ⟨-, h⟩ := of_unless h
    obtain ⟨-, h⟩ := of_unless h
    split at h
    · cases h
    · split at h <;> cases h

theorem frames_eof (h : (frames bs).2 = .eof) : framesSize (frames bs).1 = bs.length := by
  obtain ⟨hle, hread⟩ := frames_split bs
  rw [h] at hread
  have := drop_eq_nil_iff.mp (readFrame_eq_eof hread)
  omega

theorem readFrame_extend (h : readFrame bs = .ok (f, rest)) (more : Bytes) :
    readFrame (bs ++ more) = .ok (f, rest ++ more) := by
  obtain ⟨hfits, rfl⟩ := readFrame_inv h
  rw [append_assoc]
  exact hfits.readFrame _

/-- `resyncWindow`: how far past damage recovery looks for valid entries. -/
def resyncWindow : Nat := 8 * 2 ^ 20

/-- The bytes begin with a complete frame with a valid checksum, a log entry type
and an LSN at or after `next`. -/
def validFrameAt (next : Nat) (bs : Bytes) : Bool :=
  match readFrame bs with
  | .error _ => false
  | .ok (f, _) => next ≤ f.lsn && entAppend ≤ f.typ && f.typ ≤ entDiscard

/-- `validFrameAfter`: a valid frame begins behind the first byte of what follows
the damage. -/
def validFrameAfter (next : Nat) (tail : Bytes) : Bool :=
  ((tail.drop 1).take resyncWindow).tails.any (validFrameAt next)

end Scanning

section Signatures

def maxSigBytes : Nat := 2 ^ 10

/-- `secure.Signer`: what it signs it verifies, and its signatures fit the
format. -/
structure Signer where
  sign : Bytes → Bytes
  verify : Bytes → Bytes → Bool
  verify_sign : ∀ data, verify data (sign data) = true
  length_sign : ∀ data, 0 < (sign data).length ∧ (sign data).length ≤ maxSigBytes

/-- `sigInput`. -/
def sigInput (snap : Bool) (lsn : Nat) (typ : UInt8) (body : Bytes) : Bytes :=
  str "goguard/wal/v1" ++ [0] ++ (if snap then str "s" else str "w") ++ leBytes 8 lsn
    ++ [typ] ++ body

/-- `sealBody`. -/
def sealBody (sg : Option Signer) (snap : Bool) (lsn : Nat) (typ : UInt8) (body : Bytes) : Bytes :=
  match sg with
  | none => body
  | some sg =>
    body ++ sg.sign (sigInput snap lsn typ body)
      ++ leBytes 2 (sg.sign (sigInput snap lsn typ body)).length

inductive SealError where
  | tampered
  | signerRequired
  | unsignedLog
deriving DecidableEq

/-- The length of the signature at the end of a body. -/
def sigLength (onDisk : Bytes) : Nat :=
  leNat (onDisk.drop (onDisk.length - 2))

/-- `openBody`. -/
def openBody (sg : Option Signer) (signed snap : Bool) (lsn : Nat) (typ : UInt8) (onDisk : Bytes) :
    Except SealError Bytes :=
  if !signed then .ok onDisk
  else
    match sg with
    | none => .error .signerRequired
    | some sg =>
      if onDisk.length < 2 then .error .tampered
      else if sigLength onDisk = 0 ∨ sigLength onDisk > maxSigBytes
          ∨ sigLength onDisk + 2 > onDisk.length then
        .error .tampered
      else if sg.verify
          (sigInput snap lsn typ (onDisk.take (onDisk.length - 2 - sigLength onDisk)))
          ((onDisk.drop (onDisk.length - 2 - sigLength onDisk)).take (sigLength onDisk)) then
        .ok (onDisk.take (onDisk.length - 2 - sigLength onDisk))
      else .error .tampered

/-- `fileFlags`: the header flags of a file created now. -/
def fileFlags (sg : Option Signer) : Nat :=
  if sg.isSome then flagSigned else 0

/-- `checkFileFlags`: whether the file is signed, if it may be read. -/
def checkFileFlags (sg : Option Signer) (acceptUnsignedLegacy : Bool) (flags : Nat) :
    Except SealError Bool :=
  if flags % 2 = 1 then
    if sg.isNone then .error .signerRequired else .ok true
  else if sg.isSome ∧ acceptUnsignedLegacy = false then .error .unsignedLog
  else .ok false

theorem checkFileFlags_fileFlags (sg : Option Signer) (legacy : Bool) :
    checkFileFlags sg legacy (fileFlags sg) = .ok sg.isSome := by
  cases sg <;> simp [checkFileFlags, fileFlags, flagSigned]

theorem openBody_sealed
    (sg : Signer) (snap snap' : Bool) (lsn lsn' : Nat) (typ typ' : UInt8) (body : Bytes) :
    openBody (some sg) true snap' lsn' typ' (sealBody (some sg) snap lsn typ body) =
      if sg.verify (sigInput snap' lsn' typ' body) (sg.sign (sigInput snap lsn typ body)) then
        .ok body
      else .error .tampered := by
  obtain ⟨hpos, hmax⟩ := sg.length_sign (sigInput snap lsn typ body)
  simp only [sealBody]
  generalize sg.sign (sigInput snap lsn typ body) = sig at hpos hmax
  have hlen : (body ++ sig ++ leBytes 2 sig.length).length = body.length + sig.length + 2 := by
    simp
    omega
  have hn : sigLength (body ++ sig ++ leBytes 2 sig.length) = sig.length := by
    unfold sigLength
    rw [hlen, Nat.add_sub_cancel, drop_left' (by simp), leNat_leBytes_of_lt]
    simp only [maxSigBytes] at hmax
    omega
  have hbody : (body ++ sig ++ leBytes 2 sig.length).take body.length = body := by
    rw [append_assoc, take_left]
  have hsig : ((body ++ sig ++ leBytes 2 sig.length).drop body.length).take sig.length = sig := by
    rw [append_assoc, drop_left, take_left]
  have hat : (body ++ sig ++ leBytes 2 sig.length).length - 2 - sig.length = body.length := by
    omega
  simp only [openBody, Bool.not_true, Bool.false_eq_true, if_false, hn, hat, hbody, hsig]
  rw [if_neg (by omega), if_neg (by omega)]

/-- A sealed body opens. -/
theorem openBody_sealBody
    (sg : Option Signer) (snap : Bool) (lsn : Nat) (typ : UInt8) (body : Bytes) :
    openBody sg sg.isSome snap lsn typ (sealBody sg snap lsn typ body) = .ok body := by
  cases sg with
  | none => rfl
  | some sg =>
    have hopen := openBody_sealed sg snap snap lsn lsn typ typ body
    rw [sg.verify_sign, if_pos rfl] at hopen
    exact hopen

/-- A store with the first signer opens what one with the second has sealed. -/
def Opens (sg' sg : Option Signer) : Prop :=
  sg = sg' ∨ sg = none

theorem Opens.openBody {sg' sg : Option Signer} (h : Opens sg' sg)
    (snap : Bool) (lsn : Nat) (typ : UInt8) (body : Bytes) :
    openBody sg' sg.isSome snap lsn typ (sealBody sg snap lsn typ body) = .ok body := by
  rcases h with rfl | rfl
  · exact openBody_sealBody sg snap lsn typ body
  · rfl

theorem length_sealBody
    (sg : Option Signer) (snap : Bool) (lsn : Nat) (typ : UInt8) (body : Bytes) :
    body.length ≤ (sealBody sg snap lsn typ body).length := by
  cases sg with
  | none => exact le_refl _
  | some sg =>
    simp only [sealBody, length_append]
    omega

theorem length_sealBody_le
    (sg : Option Signer) (snap : Bool) (lsn : Nat) (typ : UInt8) (body : Bytes) :
    (sealBody sg snap lsn typ body).length ≤ body.length + maxSigBytes + 2 := by
  cases sg with
  | none =>
    simp only [sealBody]
    omega
  | some sg =>
    have hsig := (sg.length_sign (sigInput snap lsn typ body)).2
    simp only [sealBody, length_append, length_leBytes]
    omega

end Signatures

end Dlq
end GoGuard
