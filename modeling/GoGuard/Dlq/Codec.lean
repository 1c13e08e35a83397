import GoGuard.Dlq.Queue

/-!
# The bodies of log entries

How the log writes a record and the other entries, and how it reads them back.
A decoder of the source remembers its first error and goes on; here it stops,
which is the same since every caller asks for that error before it looks at a
value.

The main result is that every entry reads back as its stored form
(`decodeEntry_body`): the codec keeps everything, nil and empty included, but
turns the instant of the epoch into the nanosecond after it.  A record that was
read, from whatever bytes, reads back as it is (`gives_record`).
-/

namespace GoGuard
namespace Dlq

open Lib List

/-- The types of frames. -/
def entAppend : UInt8 := 1
def entLease : UInt8 := 2
def entCheckpoint : UInt8 := 3
def entAck : UInt8 := 4
def entNack : UInt8 := 5
def entRelease : UInt8 := 6
def entPark : UInt8 := 7
def entRequeue : UInt8 := 8
def entDiscard : UInt8 := 9
def snapRecord : UInt8 := 64
def snapEnd : UInt8 := 65

section Fields

/-- `encoder.str`. -/
def Enc.str (s : Bytes) : Bytes :=
  uvarint s.length ++ s

/-- `encoder.nullable`: 0 for nil, the length plus one otherwise. -/
def Enc.nullable : Option Bytes → Bytes
  | none => uvarint 0
  | some b => uvarint (b.length + 1) ++ b

/-- `encoder.time`: 0 for the zero time; an exact 0 is nudged to 1. -/
def Enc.time (t : Time) : Bytes :=
  if isZero t then varint 0
  else varint (if unixNano t = 0 then 1 else unixNano t)

/-- `decoder.str`. -/
def Dec.str : Decoder Bytes := do
  let n ← readUvarint
  readN n

/-- `decoder.nullable`. -/
def Dec.nullable : Decoder (Option Bytes) := do
  let n ← readUvarint
  if n = 0 then return none
  else
    let b ← readN (n - 1)
    return some b

/-- `decoder.time`. -/
def Dec.time : Decoder Time := do
  let ns ← readVarint
  return if ns = 0 then zeroTime else ns

theorem reads_str {s : Bytes} (hs : s.length < 2 ^ 64) : Reads Dec.str (Enc.str s) s :=
  (reads_uvarint hs).bind (reads_readN s)

theorem reads_nullable {b : Option Bytes} (hb : lenBytes b + 1 < 2 ^ 64) :
    Reads Dec.nullable (Enc.nullable b) b := by
  cases b with
  | none => exact (reads_uvarint (v := 0) (by norm_num)).last rfl
  | some b =>
    refine (reads_uvarint hb).bind ?_
    exact (reads_readN b).last rfl

theorem reads_time (t : Time) : Reads Dec.time (Enc.time t) (storedTime t) := by
  have hlo : -2 ^ 63 ≤ unixNano t := by
    have h := Int.le_bmod (x := t) (m := 2 ^ 64) (by decide)
    unfold unixNano
    omega
  have hhi : unixNano t < 2 ^ 63 := by
    have h := Int.bmod_lt (x := t) (m := 2 ^ 64) (by decide)
    unfold unixNano
    omega
  unfold Enc.time storedTime
  split
  · exact (reads_varint (x := 0) (by norm_num) (by norm_num)).last rfl
  · split
    · exact (reads_varint (x := 1) (by norm_num) (by norm_num)).last rfl
    · next hnz =>
      refine (reads_varint hlo hhi).last ?_
      rw [if_neg hnz]

/-- An instant the codec keeps: the zero time, or one that is a number of nanoseconds
in an `int64` other than 0. -/
def KeptTime (t : Time) : Prop :=
  t = zeroTime ∨ -2 ^ 63 ≤ t ∧ t < 2 ^ 63 ∧ t ≠ 0

instance (t : Time) : Decidable (KeptTime t) :=
  inferInstanceAs (Decidable (t = zeroTime ∨ -2 ^ 63 ≤ t ∧ t < 2 ^ 63 ∧ t ≠ 0))

theorem KeptTime.stored {t : Time} (h : KeptTime t) : storedTime t = t := by
  rcases h with rfl | ⟨hlo, hhi, hne⟩
  · exact storedTime_zero
  · have hnano : unixNano t = t :=
        Int.bmod_eq_of_le (by norm_num at hlo ⊢; omega) (by norm_num at hhi ⊢; omega)
    unfold storedTime
    split
    · next hzero =>
      rw [isZero, decide_eq_true_eq] at hzero
      exact hzero.symm
    · rw [hnano, if_neg hne]

theorem gives_str : Gives Dec.str fun s => s.length < 2 ^ 64 := by
  refine gives_readUvarint.bind fun n hn => ?_
  intro bs v rest hrun
  rw [(readN_eq_some hrun).2]
  exact hn

theorem gives_nullable : Gives Dec.nullable fun b => lenBytes b + 1 < 2 ^ 64 := by
  refine gives_readUvarint.bind fun n hn => ?_
  split
  · exact gives_pure (by norm_num [lenBytes])
  · next hne =>
    have hread : Gives (readN (n - 1)) fun b => b.length + 1 < 2 ^ 64 := by
      intro bs v rest hrun
      have hlen := (readN_eq_some hrun).2
      omega
    exact hread.bind fun b hb => gives_pure hb

theorem gives_time : Gives Dec.time KeptTime := by
  refine gives_readVarint.bind fun ns hns => gives_pure ?_
  split
  · exact .inl rfl
  · next hne => exact .inr ⟨hns.1, hns.2, hne⟩

theorem extends_str : Extends Dec.str :=
  extends_readUvarint.bind extends_readN

theorem extends_nullable : Extends Dec.nullable := by
  refine extends_readUvarint.bind fun n => ?_
  split
  · exact extends_pure none
  · exact (extends_readN (n - 1)).bind fun b => extends_pure (some b)

theorem extends_time : Extends Dec.time :=
  extends_readVarint.bind fun _ => extends_pure _

theorem length_le_str (s : Bytes) : s.length ≤ (Enc.str s).length := by
  simp [Enc.str]

theorem length_uvarint_pos (v : Nat) : 0 < (uvarint v).length := by
  unfold uvarint uvarintAux
  split <;> simp

theorem length_lt_nullable (b : Option Bytes) : lenBytes b < (Enc.nullable b).length := by
  cases b with
  | none => exact length_uvarint_pos 0
  | some b =>
    have h := length_uvarint_pos (b.length + 1)
    simp only [Enc.nullable, lenBytes, Option.getD_some, length_append]
    omega

end Fields

section Records

/-- The byte a state is written as. -/
def State.code : State → UInt8
  | .pending => 0
  | .leased => 1
  | .parked => 2

/-- The state a byte stands for. -/
def State.ofCode (c : UInt8) : Option State :=
  if c = 0 then some .pending
  else if c = 1 then some .leased
  else if c = 2 then some .parked
  else none

theorem State.ofCode_code (s : State) : State.ofCode s.code = some s := by
  cases s <;> rfl

def Enc.header (h : Header) : Bytes :=
  Enc.str h.key ++ Enc.nullable h.value

/-- `encodeRecord`. -/
def encodeRecord (r : Record) : Bytes :=
  Enc.str r.id ++ uvarint r.seq ++ [r.state.code] ++ Enc.str r.source.kind
    ++ Enc.str r.source.name ++ varint r.source.partition.toInt
    ++ varint r.source.offset.toInt ++ Enc.nullable r.key ++ Enc.nullable r.value
    ++ uvarint r.headers.length ++ r.headers.flatMap Enc.header ++ Enc.str r.orderKey
    ++ Enc.str r.blockedOn ++ uvarint r.attempts.toUInt64.toNat ++ Enc.time r.firstFailed
    ++ Enc.time r.lastFailed ++ Enc.time r.nextAttempt ++ Enc.str r.lastError
    ++ Enc.nullable r.checkpoint ++ uvarint r.schemaVersion.toUInt64.toNat

/-- The loop over the headers. -/
def Dec.headersLoop : Nat → Decoder (List Header)
  | 0 => pure []
  | n + 1 => do
      let key ← Dec.str
      let value ← Dec.nullable
      let rest ← Dec.headersLoop n
      return ⟨key, value⟩ :: rest

/-- The headers of a record; more of them than bytes are refused. -/
def Dec.headers : Decoder (List Header) := do
  let n ← readUvarint
  let room ← left
  if n > room then failure else Dec.headersLoop n

/-- `decodeRecord`. -/
def decodeRecord : Decoder Record := do
  let id ← Dec.str
  let seq ← readUvarint
  let code ← readByte
  let kind ← Dec.str
  let name ← Dec.str
  let partition ← readVarint
  let offset ← readVarint
  let key ← Dec.nullable
  let value ← Dec.nullable
  let headers ← Dec.headers
  let orderKey ← Dec.str
  let blockedOn ← Dec.str
  let attempts ← readUvarint
  let firstFailed ← Dec.time
  let lastFailed ← Dec.time
  let nextAttempt ← Dec.time
  let lastError ← Dec.str
  let checkpoint ← Dec.nullable
  let schemaVersion ← readUvarint
  match State.ofCode code with
  | none => failure
  | some state =>
    if (UInt64.ofNat attempts).toInt64 < 0 then failure
    else
      return {
        id := id, seq := seq, state := state
        source := ⟨kind, name, Int32.ofInt partition, Int64.ofInt offset⟩
        key := key, value := value, headers := headers
        orderKey := orderKey, blockedOn := blockedOn
        attempts := (UInt64.ofNat attempts).toInt64
        firstFailed := firstFailed, lastFailed := lastFailed, nextAttempt := nextAttempt
        lastError := lastError, checkpoint := checkpoint
        schemaVersion := (UInt64.ofNat schemaVersion).toInt64 }

theorem length_le_headers (hs : List Header) :
    hs.length ≤ (hs.flatMap Enc.header).length ∧
      ∀ h ∈ hs, (Enc.header h).length ≤ (hs.flatMap Enc.header).length := by
  induction hs with
  | nil => exact ⟨le_refl _, fun _ h => nomatch h⟩
  | cons x hs ih =>
    have hpos := length_lt_nullable x.value
    have hx : 0 < (Enc.header x).length := by
      simp only [Enc.header, length_append]
      omega
    simp only [flatMap_cons, length_append, length_cons, mem_cons]
    refine ⟨by omega, ?_⟩
    rintro h (rfl | hh)
    · omega
    · have := ih.2 h hh
      omega

/-- A header whose lengths fit the format. -/
def Header.Encodable (h : Header) : Prop :=
  h.key.length < 2 ^ 64 ∧ lenBytes h.value + 1 < 2 ^ 64

theorem encodable_of_length {h : Header} (hlen : (Enc.header h).length < 2 ^ 64) : h.Encodable := by
  have hkey := length_le_str h.key
  have hvalue := length_lt_nullable h.value
  simp only [Enc.header, length_append] at hlen
  exact ⟨by omega, by omega⟩

variable {hs : List Header} {r : Record}

theorem reads_headersLoop (hsmall : ∀ h ∈ hs, h.Encodable) :
    Reads (Dec.headersLoop hs.length) (hs.flatMap Enc.header) hs := by
  induction hs with
  | nil => exact reads_pure []
  | cons h hs ih =>
    obtain ⟨hkey, hvalue⟩ := hsmall h mem_cons_self
    simp only [flatMap_cons, length_cons, Dec.headersLoop, Enc.header,
      append_assoc]
    refine (reads_str hkey).bind ?_
    refine (reads_nullable hvalue).bind ?_
    exact (ih fun x hx => hsmall x (mem_cons_of_mem _ hx)).last rfl

theorem reads_headers (hcount : hs.length < 2 ^ 64) (hsmall : ∀ h ∈ hs, h.Encodable) :
    Reads Dec.headers (uvarint hs.length ++ hs.flatMap Enc.header) hs := by
  have hle := (length_le_headers hs).1
  refine (reads_uvarint hcount).bind ?_
  intro rest
  have hroom : ¬ hs.length > (hs.flatMap Enc.header ++ rest).length := by
    rw [length_append]
    omega
  have hloop := reads_headersLoop hsmall rest
  rw [run_left, if_neg hroom]
  exact hloop

theorem gives_headersLoop (n : Nat) :
    Gives (Dec.headersLoop n) fun hs => hs.length = n ∧ ∀ h ∈ hs, h.Encodable := by
  induction n with
  | zero => exact gives_pure ⟨rfl, fun _ h => (nomatch h)⟩
  | succ n ih =>
    refine gives_str.bind fun key hkey => gives_nullable.bind fun value hvalue => ?_
    refine ih.bind fun hs hhs => gives_pure ⟨congrArg (· + 1) hhs.1, ?_⟩
    intro h hh
    rcases mem_cons.mp hh with rfl | hh
    · exact ⟨hkey, hvalue⟩
    · exact hhs.2 h hh

theorem gives_headers : Gives Dec.headers fun hs => hs.length < 2 ^ 64 ∧ ∀ h ∈ hs, h.Encodable := by
  refine gives_readUvarint.bind fun n hn => ?_
  intro bs v rest hrun
  rw [run_left] at hrun
  split at hrun
  · cases hrun
  · obtain ⟨hlen, hsmall⟩ := gives_headersLoop n _ _ _ hrun
    exact ⟨hlen ▸ hn, hsmall⟩

theorem extends_headersLoop (n : Nat) : Extends (Dec.headersLoop n) := by
  induction n with
  | zero => exact extends_pure []
  | succ n ih =>
    exact extends_str.bind fun key => extends_nullable.bind fun value =>
      ih.bind fun hs => extends_pure _

theorem extends_headers : Extends Dec.headers :=
  extends_readUvarint.bind fun n => extends_left n (extends_headersLoop n)

/-- A record whose numbers and lengths fit the format, and whose attempts have not
wrapped. -/
structure Record.Encodable (r : Record) : Prop where
  id : r.id.length < 2 ^ 64
  seq : r.seq < 2 ^ 64
  kind : r.source.kind.length < 2 ^ 64
  name : r.source.name.length < 2 ^ 64
  key : lenBytes r.key + 1 < 2 ^ 64
  value : lenBytes r.value + 1 < 2 ^ 64
  headers : r.headers.length < 2 ^ 64 ∧ ∀ h ∈ r.headers, h.Encodable
  orderKey : r.orderKey.length < 2 ^ 64
  blockedOn : r.blockedOn.length < 2 ^ 64
  attempts : 0 ≤ r.attempts
  lastError : r.lastError.length < 2 ^ 64
  checkpoint : lenBytes r.checkpoint + 1 < 2 ^ 64

/-- The codec keeps the times of the record. -/
def Record.TimesKept (r : Record) : Prop :=
  KeptTime r.firstFailed ∧ KeptTime r.lastFailed ∧ KeptTime r.nextAttempt

instance (r : Record) : Decidable r.TimesKept :=
  inferInstanceAs (Decidable
    (KeptTime r.firstFailed ∧ KeptTime r.lastFailed ∧ KeptTime r.nextAttempt))

theorem Record.TimesKept.stored (h : r.TimesKept) : r.stored = r := by
  obtain ⟨hfirst, hlast, hnext⟩ := h
  unfold Record.stored
  rw [hfirst.stored, hlast.stored, hnext.stored]

/-- A record the log can write and read: its numbers fit the format, and its
attempts have not wrapped. -/
structure Record.Fits (r : Record) : Prop where
  seq : r.seq < 2 ^ 64
  attempts : 0 ≤ r.attempts
  length : (encodeRecord r).length < 2 ^ 64

theorem Record.Fits.encodable (h : r.Fits) : r.Encodable := by
  obtain ⟨hseq, hattempts, hlen⟩ := h
  -- every part is shorter than the whole
  unfold encodeRecord at hlen
  simp only [length_append] at hlen
  have hstr : ∀ s : Bytes, (Enc.str s).length < 2 ^ 64 → s.length < 2 ^ 64 :=
    fun s => lt_of_le_of_lt (length_le_str s)
  have hnull : ∀ b, (Enc.nullable b).length < 2 ^ 64 → lenBytes b + 1 < 2 ^ 64 :=
    fun b => lt_of_le_of_lt (length_lt_nullable b)
  have hid := hstr r.id (by omega)
  have hkind := hstr r.source.kind (by omega)
  have hname := hstr r.source.name (by omega)
  have hkey := hnull r.key (by omega)
  have hvalue := hnull r.value (by omega)
  have hheaders : (r.headers.flatMap Enc.header).length < 2 ^ 64 := by omega
  have horder := hstr r.orderKey (by omega)
  have hblocked := hstr r.blockedOn (by omega)
  have herror := hstr r.lastError (by omega)
  have hckpt := hnull r.checkpoint (by omega)
  obtain ⟨hcount, heach⟩ := length_le_headers r.headers
  refine ⟨hid, hseq, hkind, hname, hkey, hvalue, ⟨lt_of_le_of_lt hcount hheaders, ?_⟩, horder,
    hblocked, hattempts, herror, hckpt⟩
  exact fun h hh => encodable_of_length (lt_of_le_of_lt (heach h hh) hheaders)

theorem Record.Encodable.reads (h : r.Encodable) :
    Reads decodeRecord (encodeRecord r) r.stored := by
  unfold encodeRecord
  simp only [append_assoc]
  have hplo := r.source.partition.le_toInt
  have hphi := r.source.partition.toInt_lt
  refine (reads_str h.id).bind ?_
  refine (reads_uvarint h.seq).bind ?_
  refine (reads_readByte _).bind ?_
  refine (reads_str h.kind).bind ?_
  refine (reads_str h.name).bind ?_
  refine (reads_varint (by omega) (by omega)).bind ?_
  refine (reads_varint r.source.offset.le_toInt r.source.offset.toInt_lt).bind ?_
  refine (reads_nullable h.key).bind ?_
  refine (reads_nullable h.value).bind ?_
  rw [← append_assoc (uvarint r.headers.length)]
  refine (reads_headers h.headers.1 h.headers.2).bind ?_
  refine (reads_str h.orderKey).bind ?_
  refine (reads_str h.blockedOn).bind ?_
  refine (reads_uvarint r.attempts.toUInt64.toNat_lt).bind ?_
  refine (reads_time _).bind ?_
  refine (reads_time _).bind ?_
  refine (reads_time _).bind ?_
  refine (reads_str h.lastError).bind ?_
  refine (reads_nullable h.checkpoint).bind ?_
  refine (reads_uvarint r.schemaVersion.toUInt64.toNat_lt).last ?_
  have hback : ∀ x : Int64, (UInt64.ofNat x.toUInt64.toNat).toInt64 = x := by
    simp
  simp only [State.ofCode_code, hback, Int32.ofInt_toInt, Int64.ofInt_toInt]
  rw [if_neg (Int64.not_lt.mpr h.attempts)]
  rfl

theorem reads_record (h : r.Fits) : Reads decodeRecord (encodeRecord r) r.stored :=
  h.encodable.reads

/-- A record that was read, from whatever bytes, can be written and read again. -/
theorem gives_record : Gives decodeRecord fun r => r.Encodable ∧ r.TimesKept := by
  have hbyte : Gives readByte fun _ => True := fun _ _ _ _ => trivial
  refine gives_str.bind fun id hid => gives_readUvarint.bind fun seq hseq =>
    hbyte.bind fun code _ => ?_
  refine gives_str.bind fun kind hkind => gives_str.bind fun name hname =>
    gives_readVarint.bind fun partition _ => gives_readVarint.bind fun offset _ => ?_
  refine gives_nullable.bind fun key hkey => gives_nullable.bind fun value hvalue =>
    gives_headers.bind fun headers hheaders => ?_
  refine gives_str.bind fun orderKey horder => gives_str.bind fun blockedOn hblocked =>
    gives_readUvarint.bind fun attempts _ => ?_
  refine gives_time.bind fun firstFailed hfirst => gives_time.bind fun lastFailed hlast =>
    gives_time.bind fun nextAttempt hnext => ?_
  refine gives_str.bind fun lastError herror => gives_nullable.bind fun checkpoint hckpt =>
    gives_readUvarint.bind fun schemaVersion _ => ?_
  split
  · exact gives_failure _
  · split
    · exact gives_failure _
    · next hattempts =>
      exact gives_pure ⟨⟨hid, hseq, hkind, hname, hkey, hvalue, hheaders, horder, hblocked,
        Int64.not_lt.mp hattempts, herror, hckpt⟩, hfirst, hlast, hnext⟩

theorem extends_record : Extends decodeRecord := by
  refine extends_str.bind fun id => extends_readUvarint.bind fun seq =>
    extends_readByte.bind fun code => ?_
  refine extends_str.bind fun kind => extends_str.bind fun name =>
    extends_readVarint.bind fun partition => extends_readVarint.bind fun offset => ?_
  refine extends_nullable.bind fun key => extends_nullable.bind fun value =>
    extends_headers.bind fun headers => ?_
  refine extends_str.bind fun orderKey => extends_str.bind fun blockedOn =>
    extends_readUvarint.bind fun attempts => ?_
  refine extends_time.bind fun firstFailed => extends_time.bind fun lastFailed =>
    extends_time.bind fun nextAttempt => ?_
  refine extends_str.bind fun lastError => extends_nullable.bind fun checkpoint =>
    extends_readUvarint.bind fun schemaVersion => ?_
  split
  · exact extends_failure
  · split
    · exact extends_failure
    · exact extends_pure _

end Records

section Entries

/-- The type of the frame of an entry. -/
def Entry.typ : Entry → UInt8
  | .append _ => entAppend
  | .lease _ => entLease
  | .checkpoint _ _ => entCheckpoint
  | .ack _ => entAck
  | .nack _ _ _ _ _ _ => entNack
  | .release _ => entRelease
  | .park _ _ _ => entPark
  | .requeue _ _ _ => entRequeue
  | .discard _ => entDiscard

/-- The body of the frame of an entry, as the call that logs it writes it. -/
def Entry.body : Entry → Bytes
  | .append r => encodeRecord r
  | .lease ids => uvarint ids.length ++ ids.flatMap Enc.str
  | .checkpoint id cp => Enc.str id ++ Enc.nullable cp
  | .ack id => Enc.str id
  | .nack id stamp next errText blockedOn refund =>
    Enc.str id ++ Enc.time stamp ++ Enc.time next ++ Enc.str errText ++ Enc.str blockedOn
      ++ (if refund then [1] else [])
  | .release id => Enc.str id
  | .park id stamp reason => Enc.str id ++ Enc.time stamp ++ Enc.str reason
  | .requeue id replace cp =>
    Enc.str id ++ (if replace then [1] ++ Enc.nullable cp else [])
  | .discard id => Enc.str id

/-- The loop over the identifiers of a lease. -/
def Dec.idsLoop : Nat → Decoder (List Bytes)
  | 0 => pure []
  | n + 1 => do
      let id ← Dec.str
      let rest ← Dec.idsLoop n
      return id :: rest

/-- The identifiers of a lease; more of them than bytes are refused. -/
def Dec.ids : Decoder (List Bytes) := do
  let n ← readUvarint
  let room ← left
  if n > room then failure else Dec.idsLoop n

def Dec.checkpoint : Decoder Entry := do
  let id ← Dec.str
  let cp ← Dec.nullable
  return .checkpoint id cp

/-- The checkpoint is missing from entries written before it existed. -/
def Dec.requeue : Decoder Entry := do
  let id ← Dec.str
  let room ← left
  if room > 0 then
    let flag ← readByte
    if flag = 1 then
      let cp ← Dec.nullable
      return .requeue id true cp
    else return .requeue id false none
  else return .requeue id false none

/-- The refund is missing from entries written before it existed. -/
def Dec.nack : Decoder Entry := do
  let id ← Dec.str
  let stamp ← Dec.time
  let next ← Dec.time
  let errText ← Dec.str
  let blockedOn ← Dec.str
  let room ← left
  if room > 0 then
    let flag ← readByte
    return .nack id stamp next errText blockedOn (flag = 1)
  else return .nack id stamp next errText blockedOn false

def Dec.park : Decoder Entry := do
  let id ← Dec.str
  let stamp ← Dec.time
  let reason ← Dec.str
  return .park id stamp reason

/-- The decoding in `applyEntry`. -/
def decodeEntry (typ : UInt8) (body : Bytes) : Option Entry :=
  if typ = entAppend then
    match whole decodeRecord body with
    | none => none
    | some r => if r.state = .leased then none else some (.append r)
  else if typ = entLease then (whole Dec.ids body).map .lease
  else if typ = entCheckpoint then whole Dec.checkpoint body
  else if typ = entRequeue then whole Dec.requeue body
  else if typ = entAck then (whole Dec.str body).map .ack
  else if typ = entRelease then (whole Dec.str body).map .release
  else if typ = entDiscard then (whole Dec.str body).map .discard
  else if typ = entNack then whole Dec.nack body
  else if typ = entPark then whole Dec.park body
  else none

/-- An entry the log can write and read. -/
def Entry.Fits (e : Entry) : Prop :=
  e.body.length < 2 ^ 64 ∧
    match e with
    | .append r => r.seq < 2 ^ 64 ∧ 0 ≤ r.attempts ∧ r.state ≠ .leased
    | .requeue _ false cp => cp = none
    | _ => True

theorem length_le_ids (ids : List Bytes) :
    ids.length ≤ (ids.flatMap Enc.str).length ∧
      ∀ id ∈ ids, id.length ≤ (ids.flatMap Enc.str).length := by
  induction ids with
  | nil => exact ⟨le_refl _, fun _ h => nomatch h⟩
  | cons x ids ih =>
    have hx := length_uvarint_pos x.length
    simp only [flatMap_cons, length_append, length_cons, mem_cons,
      Enc.str] at ih ⊢
    refine ⟨by omega, ?_⟩
    rintro id (rfl | hid)
    · omega
    · have := ih.2 id hid
      omega

theorem reads_idsLoop {ids : List Bytes} (hsmall : ∀ id ∈ ids, id.length < 2 ^ 64) :
    Reads (Dec.idsLoop ids.length) (ids.flatMap Enc.str) ids := by
  induction ids with
  | nil => exact reads_pure []
  | cons id ids ih =>
    refine (reads_str (hsmall id mem_cons_self)).bind ?_
    exact (ih fun x hx => hsmall x (mem_cons_of_mem _ hx)).last rfl

theorem reads_ids {ids : List Bytes} (hlen : (ids.flatMap Enc.str).length < 2 ^ 64) :
    Reads Dec.ids (uvarint ids.length ++ ids.flatMap Enc.str) ids := by
  obtain ⟨hcount, heach⟩ := length_le_ids ids
  refine (reads_uvarint (by omega)).bind ?_
  intro rest
  have hroom : ¬ ids.length > (ids.flatMap Enc.str ++ rest).length := by
    rw [length_append]
    omega
  have hloop := reads_idsLoop (fun id hid => lt_of_le_of_lt (heach id hid) hlen) rest
  rw [run_left, if_neg hroom]
  exact hloop

theorem whole_str {id : Bytes} (h : (Enc.str id).length < 2 ^ 64) :
    whole Dec.str (Enc.str id) = some id :=
  whole_of_reads (reads_str (lt_of_le_of_lt (length_le_str id) h))

/-- Every entry reads back as its stored form. -/
theorem decodeEntry_body {e : Entry} (h : e.Fits) : decodeEntry e.typ e.body = some e.stored := by
  obtain ⟨hlen, hrest⟩ := h
  have hstr : ∀ s : Bytes, (Enc.str s).length < 2 ^ 64 → s.length < 2 ^ 64 :=
    fun s => lt_of_le_of_lt (length_le_str s)
  have hnull : ∀ b, (Enc.nullable b).length < 2 ^ 64 → lenBytes b + 1 < 2 ^ 64 :=
    fun b => lt_of_le_of_lt (length_lt_nullable b)
  cases e with
  | append r =>
    have hread := whole_of_reads (reads_record ⟨hrest.1, hrest.2.1, hlen⟩)
    simp only [decodeEntry, Entry.typ, Entry.body, hread]
    exact if_neg hrest.2.2
  | lease ids =>
    have hids : (ids.flatMap Enc.str).length < 2 ^ 64 := by
      simp only [Entry.body, length_append] at hlen
      omega
    have hdec : ∀ b, decodeEntry entLease b = (whole Dec.ids b).map .lease := fun _ => rfl
    rw [Entry.typ, hdec, Entry.body, whole_of_reads (reads_ids hids)]
    rfl
  | checkpoint id cp =>
    simp only [Entry.body, length_append] at hlen
    have hid := hstr id (by omega)
    have hcp := hnull cp (by omega)
    have hdec : ∀ b, decodeEntry entCheckpoint b = whole Dec.checkpoint b := fun _ => rfl
    rw [Entry.typ, hdec, Dec.checkpoint, Entry.body, (reads_str hid).whole_bind]
    exact whole_of_reads ((reads_nullable hcp).last rfl)
  | ack id =>
    have hdec : ∀ b, decodeEntry entAck b = (whole Dec.str b).map .ack := fun _ => rfl
    rw [Entry.typ, hdec, Entry.body, whole_str hlen]
    rfl
  | release id =>
    have hdec : ∀ b, decodeEntry entRelease b = (whole Dec.str b).map .release := fun _ => rfl
    rw [Entry.typ, hdec, Entry.body, whole_str hlen]
    rfl
  | discard id =>
    have hdec : ∀ b, decodeEntry entDiscard b = (whole Dec.str b).map .discard := fun _ => rfl
    rw [Entry.typ, hdec, Entry.body, whole_str hlen]
    rfl
  | nack id stamp next errText blockedOn refund =>
    simp only [Entry.body, length_append] at hlen
    have hid := hstr id (by omega)
    have htext := hstr errText (by omega)
    have hblocked := hstr blockedOn (by omega)
    have hdec : ∀ b, decodeEntry entNack b = whole Dec.nack b := fun _ => rfl
    rw [Entry.typ, hdec, Dec.nack, Entry.body]
    simp only [append_assoc]
    rw [(reads_str hid).whole_bind, (reads_time stamp).whole_bind,
      (reads_time next).whole_bind, (reads_str htext).whole_bind,
      (reads_str hblocked).whole_bind]
    cases refund <;> rfl
  | park id stamp reason =>
    simp only [Entry.body, length_append] at hlen
    have hid := hstr id (by omega)
    have hreason := hstr reason (by omega)
    have hdec : ∀ b, decodeEntry entPark b = whole Dec.park b := fun _ => rfl
    rw [Entry.typ, hdec, Dec.park, Entry.body, append_assoc, (reads_str hid).whole_bind,
      (reads_time stamp).whole_bind]
    exact whole_of_reads ((reads_str hreason).last rfl)
  | requeue id replace cp =>
    simp only [Entry.body, length_append] at hlen
    have hid := hstr id (by omega)
    have hdec : ∀ b, decodeEntry entRequeue b = whole Dec.requeue b := fun _ => rfl
    rw [Entry.typ, hdec, Dec.requeue, Entry.body, (reads_str hid).whole_bind]
    cases replace with
    | false =>
      obtain rfl : cp = none := hrest
      rfl
    | true =>
      have hcp := hnull cp (by simp only [if_true, length_append] at hlen; omega)
      rw [whole_left, if_pos (by simp), if_pos rfl, (reads_readByte 1).whole_bind, if_pos rfl]
      exact whole_of_reads ((reads_nullable hcp).last rfl)

end Entries

end Dlq
end GoGuard
