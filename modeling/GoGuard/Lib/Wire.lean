import GoGuard.Lib.Transition
import Mathlib.Data.Nat.Bitwise
import Mathlib.Tactic

/-!
# Byte strings, fixed-width and variable-length integers, CRC-32C

The pieces a binary file format is made of: byte strings as lists of `UInt8`,
little- and big-endian integers of a given width, the base-128 variable-length
integers of the Go standard library (unsigned, and signed by zigzag), decoders
that consume a prefix of their input, and the Castagnoli checksum.

Everything here computes by structural recursion, so that files can be
evaluated by the kernel.
-/

namespace GoGuard
namespace Lib

open List

/-- A byte string. -/
abbrev Bytes := List UInt8

instance : LawfulBEq Bytes := inferInstance

theorem ne_of_notMem {a : Bytes} {c : UInt8} (h : c ∉ a) : ∀ b ∈ a, decide (b ≠ c) = true := by
  intro b hb
  simpa using fun heq : b = c => h (heq ▸ hb)

section FixedWidth

/-- The `k` low bytes of `v`, least significant first. -/
def leBytes : Nat → Nat → Bytes
  | 0, _ => []
  | k + 1, v => UInt8.ofNat (v % 256) :: leBytes k (v / 256)

/-- The number written by a byte string, least significant byte first. -/
def leNat : Bytes → Nat
  | [] => 0
  | b :: bs => b.toNat + 256 * leNat bs

/-- The `k` low bytes of `v`, most significant first. -/
def beBytes (k v : Nat) : Bytes :=
  (leBytes k v).reverse

@[simp] theorem length_leBytes (k v : Nat) : (leBytes k v).length = k := by
  induction k generalizing v with
  | zero =>
    rfl
  | succ k ih =>
    simp [leBytes, ih]

theorem toNat_ofNat_mod (v : Nat) : (UInt8.ofNat (v % 256)).toNat = v % 256 := by
  rw [UInt8.toNat_ofNat']
  omega

theorem leNat_leBytes (k v : Nat) : leNat (leBytes k v) = v % 256 ^ k := by
  induction k generalizing v with
  | zero =>
    simp [leBytes, leNat, Nat.mod_one]
  | succ k ih =>
    rw [leBytes, leNat, ih, toNat_ofNat_mod, pow_succ', Nat.mod_mul]

theorem leNat_leBytes_of_lt {k v : Nat} (h : v < 256 ^ k) : leNat (leBytes k v) = v := by
  rw [leNat_leBytes, Nat.mod_eq_of_lt h]

theorem leNat_lt (bs : Bytes) : leNat bs < 256 ^ bs.length := by
  induction bs with
  | nil =>
    simp [leNat]
  | cons b bs ih =>
    have hb : b.toNat < 256 := b.toNat_lt
    rw [leNat, length_cons, pow_succ']
    omega

/-- The bytes of the number they write. -/
theorem leBytes_leNat (bs : Bytes) : leBytes bs.length (leNat bs) = bs := by
  induction bs with
  | nil =>
    rfl
  | cons b bs ih =>
    have hb : b.toNat < 256 := b.toNat_lt
    have hmod : (b.toNat + 256 * leNat bs) % 256 = b.toNat := by omega
    have hdiv : (b.toNat + 256 * leNat bs) / 256 = leNat bs := by omega
    rw [length_cons, leNat, leBytes, hmod, hdiv, ih, UInt8.ofNat_toNat]

end FixedWidth

section Decoders

/-- A decoder consumes a prefix of its input or fails. -/
abbrev Decoder (α : Type) := StateT Bytes Option α

/-- `dec` reads back what `enc` wrote for `v` and leaves the rest alone. -/
def Reads {α : Type} (dec : Decoder α) (bs : Bytes) (v : α) : Prop :=
  ∀ rest : Bytes, dec.run (bs ++ rest) = some (v, rest)

theorem reads_pure {α : Type} (v : α) : Reads (pure v : Decoder α) [] v := by
  intro rest
  rfl

variable {as bs rest : Bytes}

/-- Decoders compose as the encodings are concatenated. -/
theorem Reads.bind {α β : Type} {d : Decoder α} {f : α → Decoder β} {a : α} {b : β}
    (hd : Reads d as a) (hf : Reads (f a) bs b) : Reads (d >>= f) (as ++ bs) b := by
  intro rest
  have hfirst := hd (bs ++ rest)
  rw [StateT.run_bind, append_assoc, hfirst]
  exact hf rest

/-- A decoder whose last step computes. -/
theorem Reads.last {α β : Type} {d : Decoder α} {f : α → Decoder β} {a : α} {b : β}
    (hd : Reads d bs a) (hf : f a = pure b) : Reads (d >>= f) bs b := by
  have h := hd.bind (f := f) (hf ▸ reads_pure b)
  rwa [append_nil] at h

/-- The value of a decoder that takes its whole input. -/
def whole {α : Type} (d : Decoder α) (bs : Bytes) : Option α :=
  match d.run bs with
  | some (v, []) => some v
  | _ => none

theorem whole_of_reads {α : Type} {d : Decoder α} {v : α} (h : Reads d bs v) :
    whole d bs = some v := by
  have hrun := h []
  rw [append_nil] at hrun
  unfold whole
  rw [hrun]

theorem Reads.whole_bind {α β : Type} {d : Decoder α} {f : α → Decoder β} {a : α}
    (hd : Reads d as a) : whole (d >>= f) (as ++ bs) = whole (f a) bs := by
  unfold whole
  rw [StateT.run_bind, hd bs]
  rfl

theorem run_bind_eq_some {α β : Type} {d : Decoder α} {f : α → Decoder β} {b : β}
    (h : (d >>= f).run bs = some (b, rest)) :
    ∃ a mid, d.run bs = some (a, mid) ∧ (f a).run mid = some (b, rest) := by
  rw [StateT.run_bind] at h
  obtain ⟨⟨a, mid⟩, hd, hf⟩ := Option.bind_eq_some_iff.mp h
  exact ⟨a, mid, hd, hf⟩

/-- What a decoder reads does not depend on what follows. -/
def Extends {α : Type} (d : Decoder α) : Prop :=
  ∀ bs v rest, d.run bs = some (v, rest) → ∀ more, d.run (bs ++ more) = some (v, rest ++ more)

theorem extends_pure {α : Type} (v : α) : Extends (pure v : Decoder α) := by
  intro bs w rest h more
  cases h
  rfl

theorem extends_failure {α : Type} : Extends (failure : Decoder α) := by
  intro bs w rest h more
  cases h

theorem Extends.bind {α β : Type} {d : Decoder α} {f : α → Decoder β} (hd : Extends d)
    (hf : ∀ a, Extends (f a)) : Extends (d >>= f) := by
  intro bs v rest h more
  obtain ⟨a, mid, hfirst, hsecond⟩ := run_bind_eq_some h
  rw [StateT.run_bind, hd _ _ _ hfirst more]
  exact hf a _ _ _ hsecond more

/-- A strict prefix of what a decoder takes is not taken. -/
theorem whole_of_prefix {α : Type} {d : Decoder α} {p : Bytes} {v : α} (hext : Extends d)
    (hread : Reads d bs v) (hp : p <+: bs) (hne : p ≠ bs) : whole d p = none := by
  obtain ⟨more, rfl⟩ := hp
  have hmore : more ≠ [] := by
    rintro rfl
    exact hne (append_nil p).symm
  unfold whole
  split
  · next w hrun =>
    have hlong := hext _ _ _ hrun more
    have hall := hread []
    rw [append_nil, hlong] at hall
    exact absurd (congrArg Prod.snd (Option.some.inj hall)) hmore
  · rfl

/-- What a decoder takes is not taken with more behind it. -/
theorem whole_of_more {α : Type} {d : Decoder α} {more : Bytes} {v : α} (hread : Reads d bs v)
    (hne : more ≠ []) : whole d (bs ++ more) = none := by
  unfold whole
  rw [hread more]
  cases more with
  | nil => exact absurd rfl hne
  | cons b more => rfl

/-- Every value of a decoder has the property. -/
def Gives {α : Type} (d : Decoder α) (P : α → Prop) : Prop :=
  ∀ bs v rest, d.run bs = some (v, rest) → P v

theorem gives_pure {α : Type} {P : α → Prop} {v : α} (h : P v) : Gives (pure v : Decoder α) P := by
  intro bs w rest hrun
  cases hrun
  exact h

theorem gives_failure {α : Type} (P : α → Prop) : Gives (failure : Decoder α) P := by
  intro bs w rest hrun
  cases hrun

theorem Gives.bind {α β : Type} {P : α → Prop} {Q : β → Prop} {d : Decoder α} {f : α → Decoder β}
    (hd : Gives d P) (hf : ∀ a, P a → Gives (f a) Q) : Gives (d >>= f) Q := by
  intro bs v rest h
  obtain ⟨a, mid, hfirst, hsecond⟩ := run_bind_eq_some h
  exact hf a (hd _ _ _ hfirst) _ _ _ hsecond

theorem Gives.whole {α : Type} {P : α → Prop} {d : Decoder α} {v : α} (h : Gives d P)
    (hwhole : whole d bs = some v) : P v := by
  unfold Lib.whole at hwhole
  split at hwhole
  · next w hrun =>
    cases hwhole
    exact h _ _ _ hrun
  · cases hwhole

/-- One byte. -/
def readByte : Decoder UInt8 := fun bs =>
  match bs with
  | [] => none
  | b :: rest => some (b, rest)

/-- The next `n` bytes; refused when fewer are left. -/
def readN (n : Nat) : Decoder Bytes := fun bs =>
  if n > bs.length then none else some (bs.take n, bs.drop n)

/-- How much input is left. -/
def left : Decoder Nat := fun bs => some (bs.length, bs)

theorem run_left {α : Type} (f : Nat → Decoder α) (bs : Bytes) :
    (left >>= f).run bs = (f bs.length).run bs := by
  rfl

theorem whole_left {α : Type} (f : Nat → Decoder α) (bs : Bytes) :
    whole (left >>= f) bs = whole (f bs.length) bs := by
  rfl

theorem reads_readByte (b : UInt8) : Reads readByte [b] b := by
  intro rest
  rfl

theorem reads_readN (bs : Bytes) : Reads (readN bs.length) bs bs := by
  intro rest
  simp [readN, StateT.run]

theorem extends_readByte : Extends readByte := by
  intro bs v rest h more
  cases bs with
  | nil => cases h
  | cons b bs =>
    cases h
    rfl

/-- What a decoder is given is what it consumed followed by what it left. -/
theorem readN_eq_some {n : Nat} {v : Bytes} (h : readN n bs = some (v, rest)) :
    bs = v ++ rest ∧ v.length = n := by
  unfold readN at h
  obtain ⟨hn, h⟩ := of_unless h
  simp only [Option.some.injEq, Prod.mk.injEq] at h
  obtain ⟨rfl, rfl⟩ := h
  refine ⟨(take_append_drop n bs).symm, ?_⟩
  rw [length_take]
  omega

theorem extends_readN (n : Nat) : Extends (readN n) := by
  intro bs v rest h more
  obtain ⟨rfl, rfl⟩ := readN_eq_some h
  rw [append_assoc]
  exact reads_readN v (rest ++ more)

/-- A decoder that only refuses when too little is left. -/
theorem extends_left {α : Type} {d : Decoder α} (n : Nat) (hd : Extends d) :
    Extends (left >>= fun room => if n > room then failure else d) := by
  intro bs v rest h more
  rw [run_left] at h ⊢
  split at h
  · cases h
  · next hroom =>
    rw [if_neg (by rw [length_append]; omega)]
    exact hd _ _ _ h more

end Decoders

section Varints

/-- `binary.AppendUvarint`, with `n` continuation bytes left. -/
def uvarintAux : Nat → Nat → Bytes
  | 0, v => [UInt8.ofNat v]
  | n + 1, v =>
    if v < 128 then [UInt8.ofNat v]
    else UInt8.ofNat (v % 128 + 128) :: uvarintAux n (v / 128)

/-- The bytes `binary.AppendUvarint` appends for a `uint64`. -/
def uvarint (v : Nat) : Bytes :=
  uvarintAux 9 v

/-- The loop of `binary.Uvarint`, with at most `n` bytes left to read.  The
tenth byte of a `uint64` may only be 0 or 1. -/
def readUvarintAux : Nat → Bytes → Option (Nat × Bytes)
  | 0, _ => none
  | _ + 1, [] => none
  | n + 1, b :: bs =>
    if b.toNat < 128 then
      if n = 0 ∧ b.toNat > 1 then none else some (b.toNat, bs)
    else
      match readUvarintAux n bs with
      | none => none
      | some (v, rest) => some (b.toNat - 128 + 128 * v, rest)

/-- `binary.Uvarint`. -/
def readUvarint : Decoder Nat :=
  readUvarintAux 10

/-- The zigzag image of an `int64`. -/
def zigzag (x : Int) : Nat :=
  if 0 ≤ x then 2 * x.toNat else 2 * (-x).toNat - 1

/-- The inverse of `zigzag`. -/
def unzigzag (u : Nat) : Int :=
  if u % 2 = 0 then (u / 2 : Nat) else -((u / 2 : Nat) : Int) - 1

/-- The bytes `binary.AppendVarint` appends for an `int64`. -/
def varint (x : Int) : Bytes :=
  uvarint (zigzag x)

/-- `binary.Varint`. -/
def readVarint : Decoder Int := do
  let u ← readUvarint
  return unzigzag u

theorem length_uvarintAux_le (n v : Nat) : (uvarintAux n v).length ≤ n + 1 := by
  induction n generalizing v with
  | zero => exact le_refl _
  | succ n ih =>
    simp only [uvarintAux]
    split
    · simp
    · exact Nat.succ_le_succ (ih _)

/-- A varint takes up at most ten bytes. -/
theorem length_uvarint_le (v : Nat) : (uvarint v).length ≤ 10 :=
  length_uvarintAux_le 9 v

theorem readUvarintAux_uvarintAux (n v : Nat) (hv : v < 2 * 128 ^ n) (rest : Bytes) :
    readUvarintAux (n + 1) (uvarintAux n v ++ rest) = some (v, rest) := by
  induction n generalizing v with
  | zero =>
    have hv2 : v < 2 := by simpa using hv
    have hb : (UInt8.ofNat v).toNat = v := by
      rw [UInt8.toNat_ofNat']
      omega
    simp only [uvarintAux, singleton_append, readUvarintAux, hb]
    rw [if_pos (by omega), if_neg (by omega)]
  | succ n ih =>
    by_cases hsmall : v < 128
    · have hb : (UInt8.ofNat v).toNat = v := by
        rw [UInt8.toNat_ofNat']
        omega
      simp only [uvarintAux, if_pos hsmall, singleton_append,
        readUvarintAux, hb]
      rw [if_neg (by omega)]
    · have hb : (UInt8.ofNat (v % 128 + 128)).toNat = v % 128 + 128 := by
        rw [UInt8.toNat_ofNat']
        omega
      have hdiv : v / 128 < 2 * 128 ^ n := by
        rw [pow_succ] at hv
        omega
      rw [uvarintAux, if_neg hsmall, cons_append, readUvarintAux, hb,
        if_neg (by omega), ih (v / 128) hdiv]
      simp only [Option.some.injEq, Prod.mk.injEq, and_true]
      omega

variable {v n : Nat} {x : Int} {bs rest : Bytes}

theorem reads_uvarint (hv : v < 2 ^ 64) : Reads readUvarint (uvarint v) v := by
  intro rest
  exact readUvarintAux_uvarintAux 9 v (by norm_num at hv ⊢; omega) rest

theorem unzigzag_zigzag (x : Int) : unzigzag (zigzag x) = x := by
  unfold zigzag
  split <;> unfold unzigzag <;> split <;> omega

theorem zigzag_lt (hlo : -2 ^ 63 ≤ x) (hhi : x < 2 ^ 63) : zigzag x < 2 ^ 64 := by
  unfold zigzag
  split <;> omega

theorem reads_varint (hlo : -2 ^ 63 ≤ x) (hhi : x < 2 ^ 63) : Reads readVarint (varint x) x := by
  have h :=
    (reads_uvarint (zigzag_lt hlo hhi)).bind (f := fun u => pure (unzigzag u))
      (reads_pure (unzigzag (zigzag x)))
  rw [append_nil, unzigzag_zigzag] at h
  exact h

/-- A decoded value fits in a `uint64`. -/
theorem readUvarintAux_lt (h : readUvarintAux (n + 1) bs = some (v, rest)) : v < 2 * 128 ^ n := by
  induction n generalizing bs v rest with
  | zero =>
    cases bs with
    | nil =>
      cases h
    | cons b bs =>
      simp only [readUvarintAux] at h
      obtain ⟨-, h⟩ := of_when h
      obtain ⟨hb, h⟩ := of_unless h
      simp only [Option.some.injEq, Prod.mk.injEq] at h
      simp only [true_and, not_lt] at hb
      omega
  | succ n ih =>
    cases bs with
    | nil =>
      cases h
    | cons b bs =>
      rw [readUvarintAux] at h
      have hb : b.toNat < 256 := b.toNat_lt
      have hpos : 0 < 128 ^ n := by positivity
      split at h
      · rw [if_neg (by omega)] at h
        simp only [Option.some.injEq, Prod.mk.injEq] at h
        rw [pow_succ]
        omega
      · split at h
        · cases h
        · next v' rest' hrec =>
          have := ih hrec
          simp only [Option.some.injEq, Prod.mk.injEq] at h
          rw [pow_succ]
          omega

theorem readUvarint_lt (h : readUvarint bs = some (v, rest)) : v < 2 ^ 64 := by
  have := readUvarintAux_lt (n := 9) h
  norm_num at this ⊢
  omega

theorem gives_readUvarint : Gives readUvarint (· < 2 ^ 64) :=
  fun _ _ _ h => readUvarint_lt h

theorem unzigzag_range {u : Nat} (hu : u < 2 ^ 64) :
    -2 ^ 63 ≤ unzigzag u ∧ unzigzag u < 2 ^ 63 := by
  unfold unzigzag
  split <;> omega

theorem gives_readVarint : Gives readVarint fun x => -2 ^ 63 ≤ x ∧ x < 2 ^ 63 :=
  gives_readUvarint.bind fun _ hu => gives_pure (unzigzag_range hu)

theorem readUvarintAux_append (h : readUvarintAux n bs = some (v, rest)) (more : Bytes) :
    readUvarintAux n (bs ++ more) = some (v, rest ++ more) := by
  induction n generalizing bs v rest with
  | zero => cases h
  | succ n ih =>
    cases bs with
    | nil => cases h
    | cons b bs =>
      simp only [readUvarintAux, cons_append] at h ⊢
      split at h
      · next hlast =>
        rw [if_pos hlast]
        obtain ⟨hfits, h⟩ := of_unless h
        rw [if_neg hfits]
        cases h
        rfl
      · next hmore =>
        rw [if_neg hmore]
        split at h
        · cases h
        · next w mid hrec =>
          rw [ih hrec]
          cases h
          rfl

theorem extends_readUvarint : Extends readUvarint :=
  fun _ _ _ h more => readUvarintAux_append h more

theorem extends_readVarint : Extends readVarint :=
  extends_readUvarint.bind fun _ => extends_pure _

end Varints

section Checksum

/-- One bit of the reflected Castagnoli division. -/
def crcBit (c : Nat) : Nat :=
  if c % 2 = 1 then (c / 2) ^^^ 0x82F63B78 else c / 2

/-- One byte of the checksum. -/
def crcByte (c : Nat) (b : UInt8) : Nat :=
  crcBit (crcBit (crcBit (crcBit (crcBit (crcBit (crcBit (crcBit (c ^^^ b.toNat))))))))

/-- `crc32.Update` with the Castagnoli table. -/
def crcUpdate (c : Nat) (bs : Bytes) : Nat :=
  (bs.foldl crcByte (c ^^^ 0xFFFFFFFF)) ^^^ 0xFFFFFFFF

/-- `crc32.Checksum` with the Castagnoli table. -/
def crc32c (bs : Bytes) : Nat :=
  crcUpdate 0 bs

theorem crcBit_lt {c : Nat} (h : c < 2 ^ 32) : crcBit c < 2 ^ 32 := by
  unfold crcBit
  split
  · exact Nat.xor_lt_two_pow (by omega) (by norm_num)
  · omega

theorem crcByte_lt {c : Nat} (b : UInt8) (h : c < 2 ^ 32) : crcByte c b < 2 ^ 32 := by
  have hb : b.toNat < 2 ^ 32 := Nat.lt_trans b.toNat_lt (by norm_num)
  unfold crcByte
  iterate 8 apply crcBit_lt
  exact Nat.xor_lt_two_pow h hb

theorem foldl_crcByte_lt (bs : Bytes) {c : Nat} (h : c < 2 ^ 32) : bs.foldl crcByte c < 2 ^ 32 := by
  induction bs generalizing c with
  | nil =>
    exact h
  | cons b bs ih =>
    exact ih (crcByte_lt b h)

theorem crcUpdate_lt {c : Nat} (bs : Bytes) (h : c < 2 ^ 32) : crcUpdate c bs < 2 ^ 32 :=
  Nat.xor_lt_two_pow
    (foldl_crcByte_lt bs (Nat.xor_lt_two_pow h (by norm_num))) (by norm_num)

theorem crc32c_lt (bs : Bytes) : crc32c bs < 2 ^ 32 :=
  crcUpdate_lt bs (by norm_num)

end Checksum

end Lib
end GoGuard
