import GoGuard.Lib.Wire

/-!
# The dead-letter record

The data model of package `dlq`: a record is a unit of work set aside for
later, with where it came from, its payload, the order key it queues under, the
dependency it waits for, its attempts and its times.

Go strings and byte slices are byte strings; a slice whose nil is kept apart
from empty is an `Option`.  A time is a number of nanoseconds since the Unix
epoch, unbounded as `time.Time` is, with Go's zero time in the year 1.  `int`
is 64 bits wide.
-/

namespace GoGuard
namespace Dlq

open Lib

/-- A Go string constant as bytes (the constants here are ASCII). -/
def str (s : String) : Bytes :=
  s.toList.map fun c => UInt8.ofNat c.toNat

/-- An instant, in nanoseconds since the Unix epoch. -/
abbrev Time := Int

/-- The zero `time.Time`: January 1 of the year 1. -/
def zeroTime : Time :=
  -62135596800 * 10 ^ 9

/-- `time.Time.IsZero`. -/
def isZero (t : Time) : Bool :=
  t = zeroTime

/-- The errors callers compare with `errors.Is`. -/
inductive Sentinel where
  | errInvalidRecord
  | errNotFound
  | errLeaseLost
  | errNotParked
  | errFull
  | errClosed
  | errStoreFailed
  | errCorrupt
  | errDiskLow
deriving DecidableEq, Repr

/-- An error: the sentinels it wraps and its text. -/
structure Error where
  is : List Sentinel
  text : String
deriving DecidableEq, Repr

/-- `errors.Is`. -/
def Error.Is (e : Error) (s : Sentinel) : Bool :=
  e.is.contains s

/-- Where a record is in its life. -/
inductive State where
  | pending
  | leased
  | parked
deriving DecidableEq, Repr

/-- One message header. -/
structure Header where
  key : Bytes
  value : Option Bytes
deriving DecidableEq, Repr

/-- Where a record came from. -/
structure Source where
  kind : Bytes
  name : Bytes
  partition : Int32
  offset : Int64
deriving DecidableEq

/-- A unit of work set aside for later. -/
structure Record where
  id : Bytes
  seq : Nat
  state : State
  source : Source
  key : Option Bytes
  value : Option Bytes
  headers : List Header
  orderKey : Bytes
  blockedOn : Bytes
  attempts : Int64
  firstFailed : Time
  lastFailed : Time
  nextAttempt : Time
  lastError : Bytes
  checkpoint : Option Bytes
  schemaVersion : Int64
deriving DecidableEq

/-- The record layout version written by the package. -/
def currentSchema : Int64 := 1

def maxIDLen : Nat := 256

/-- `len` of a slice that may be nil. -/
def lenBytes (b : Option Bytes) : Nat :=
  (b.getD []).length

/-- `Record.Size`: an estimate of the bytes the record occupies. -/
def Record.size (r : Record) : Nat :=
  r.id.length + lenBytes r.key + lenBytes r.value + lenBytes r.checkpoint
    + r.orderKey.length + r.blockedOn.length + r.lastError.length
    + r.source.kind.length + r.source.name.length + 64
    + (r.headers.map fun h => h.key.length + lenBytes h.value).sum

/-- `Record.Validate`. -/
def Record.validate (r : Record) : Except Error Unit :=
  if r.id = [] ∨ r.id.length > maxIDLen then
    .error ⟨[.errInvalidRecord],
      s!"dlq: invalid record: id must be 1 to {maxIDLen} bytes"⟩
  else if r.attempts < 0 then
    .error ⟨[.errInvalidRecord], "dlq: invalid record: negative attempts"⟩
  else if r.state = .leased then
    .error ⟨[.errInvalidRecord],
      "dlq: invalid record: a record cannot be appended already leased"⟩
  else
    .ok ()

theorem Record.validate_eq_ok {r : Record} (h : r.validate = .ok ()) :
    r.id ≠ [] ∧ r.id.length ≤ maxIDLen ∧ 0 ≤ r.attempts ∧ r.state ≠ .leased := by
  obtain ⟨hid, h⟩ := of_unless h
  obtain ⟨hatt, h⟩ := of_unless h
  obtain ⟨hstate, h⟩ := of_unless h
  simp only [not_or, not_lt] at hid
  exact ⟨hid.1, by omega, Int64.not_lt.mp hatt, hstate⟩

section Identifiers

variable (sha256 : Bytes → Bytes)

/-- A lower-case hexadecimal digit. -/
def hexDigit (n : Nat) : UInt8 :=
  if n < 10 then UInt8.ofNat (48 + n) else UInt8.ofNat (87 + n)

/-- `hex.Encode`. -/
def hexEncode (bs : Bytes) : Bytes :=
  bs.flatMap fun b => [hexDigit (b.toNat / 16), hexDigit (b.toNat % 16)]

/-- `formatUUID`: sixteen bytes in groups of 4, 2, 2, 2 and 6. -/
def formatUUID (b : Bytes) : Bytes :=
  hexEncode (b.take 4) ++ str "-" ++ hexEncode ((b.drop 4).take 2) ++ str "-"
    ++ hexEncode ((b.drop 6).take 2) ++ str "-" ++ hexEncode ((b.drop 8).take 2)
    ++ str "-" ++ hexEncode (b.drop 10)

/-- What `DeterministicID` hashes: every part behind its length. -/
def idPreimage (parts : List Bytes) : Bytes :=
  parts.flatMap fun p => beBytes 8 p.length ++ p

/-- `DeterministicID`: the first sixteen bytes of the hash with the version and
variant bits of a UUID. -/
def deterministicID (parts : List Bytes) : Bytes :=
  let b := (sha256 (idPreimage parts)).take 16
  let b := b.modify 6 fun x => x &&& 0x0f ||| 0x80
  let b := b.modify 8 fun x => x &&& 0x3f ||| 0x80
  formatUUID b

/-- `strconv.FormatInt(n, 10)`. -/
def formatInt (n : Int) : Bytes :=
  str (toString n)

/-- `KafkaID`. -/
def kafkaID (topic : Bytes) (partition : Int32) (offset : Int) : Bytes :=
  deterministicID sha256
    [str "kafka", topic, formatInt partition.toInt, formatInt offset]

/-- `KafkaIDIn`: `KafkaID` scoped to a namespace. -/
def kafkaIDIn (ns topic : Bytes) (partition : Int32) (offset : Int) : Bytes :=
  if ns = [] then kafkaID sha256 topic partition offset
  else
    deterministicID sha256
      [str "kafka", ns, topic, formatInt partition.toInt, formatInt offset]

end Identifiers

end Dlq
end GoGuard
