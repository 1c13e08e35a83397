import GoGuard.Dlq.Record
import GoGuard.Lib.GoMap

/-!
# AES-GCM with key rotation

Sealed data is a header (the format, the length of the key's name and the name), in
format 2 a salt, the nonce and the ciphertext.  The header is authenticated with the
caller's associated data.  In format 1 the configured key is used, in format 2 one
derived from it and the salt.  `Open` reads the header to find the key, so that a
changed header is another way to split the same bytes.

A slice or an index out of range gives `none`.  GCM and the key derivation come from
outside.  GCM is ideal: among the messages that were sealed it opens each, and it
opens nothing else.
-/

namespace GoGuard
namespace Secure

open Lib Dlq List

section Model

def keySize : Nat := 32
def saltSize : Nat := 16
def maxKeyID : Nat := 255

/-- `Key`. -/
structure Key where
  id : Bytes
  material : Bytes

inductive SecureError where
  /-- "id must be 1 to 255 bytes" -/
  | keyID
  /-- "key %q must be 32 bytes" -/
  | keySize (id : Bytes)
  /-- "duplicate key id %q" -/
  | duplicate (id : Bytes)
  | errUnknownKey
  | errMalformed
  | errDecrypt

/-- `validate(KeySize, true)`. -/
def Key.validate (k : Key) : Except SecureError Unit :=
  if k.id = [] ∨ k.id.length > maxKeyID then .error .keyID
  else if k.material.length ≠ Secure.keySize then .error (.keySize k.id)
  else .ok ()

/-- `AESGCM`; the AEAD of a key is GCM under its material. -/
structure AESGCM where
  activeID : Bytes
  masters : GoMap Bytes Bytes
  derive : Bool

/-- The loop of `NewAESGCM`. -/
def addKeys : GoMap Bytes Bytes → List Key → Except SecureError (GoMap Bytes Bytes)
  | masters, [] => .ok masters
  | masters, k :: ks =>
    match k.validate with
    | .error e => .error e
    | .ok () =>
      if (masters.get k.id).isSome then .error (.duplicate k.id)
      else addKeys (masters.set k.id k.material) ks

/-- `NewAESGCM`, or `NewAESGCMDerived`. -/
def newAESGCM (derive : Bool) (active : Key) (retired : List Key) : Except SecureError AESGCM :=
  (addKeys .empty (active :: retired)).map fun masters => ⟨active.id, masters, derive⟩

/-- `cipher.NewGCM` under a key, and `hkdf.Key`.  An opened plaintext may be nil. -/
structure Gcm where
  nonceSize : Nat
  overhead : Nat
  sealWith : Bytes → Bytes → Bytes → Bytes → Bytes
  openWith : Bytes → Bytes → Bytes → Bytes → Option (Option Bytes)
  hkdf : Bytes → Bytes → Bytes
  length_seal : ∀ key nonce plain ad,
    (sealWith key nonce plain ad).length = plain.length + overhead
  hkdf_inj : ∀ master master' salt salt', salt.length = salt'.length →
    hkdf master salt = hkdf master' salt' → master = master' ∧ salt = salt'

/-- `headerV`. -/
def headerV (version : UInt8) (keyID : Bytes) : Bytes :=
  version :: UInt8.ofNat keyID.length :: keyID

/-- `b[:n]`. -/
def sliceTo (b : Bytes) (n : Nat) : Option Bytes :=
  if n ≤ b.length then some (b.take n) else none

/-- `b[n:]`. -/
def sliceFrom (b : Bytes) (n : Nat) : Option Bytes :=
  if n ≤ b.length then some (b.drop n) else none

variable (g : Gcm)

/-- A call of `Seal`, with the randomness it draws. -/
structure Call where
  e : AESGCM
  salt : Bytes
  nonce : Bytes
  plain : Bytes
  aad : Bytes

namespace Call

variable (m : Call)

def version : UInt8 := if m.e.derive then 2 else 1

/-- `e.masters[e.activeID]`. -/
def master : Bytes := (m.e.masters.get m.e.activeID).getD []

/-- The key the message is sealed under. -/
def key : Bytes := if m.e.derive then g.hkdf m.master m.salt else m.master

def header : Bytes := headerV m.version m.e.activeID

def ciphertext : Bytes := g.sealWith (m.key g) m.nonce m.plain (m.header ++ m.aad)

/-- What `Seal` returns. -/
def sealed : Bytes :=
  m.header ++ (if m.e.derive then m.salt else []) ++ m.nonce ++ m.ciphertext g

/-- The encryptor was made by a constructor, and the randomness has its size. -/
structure Ok : Prop where
  made : ∃ active retired, newAESGCM m.e.derive active retired = .ok m.e
  salt : m.salt.length = saltSize
  nonce : m.nonce.length = g.nonceSize

end Call

/-- The end of `Open`. -/
def openRest (key ad rest : Bytes) : Option (Except SecureError (Option Bytes)) :=
  if rest.length < g.nonceSize + g.overhead then some (.error .errMalformed)
  else do
    let nonce ← sliceTo rest g.nonceSize
    let ct ← sliceFrom rest g.nonceSize
    match g.openWith key nonce ct ad with
    | none => some (.error .errDecrypt)
    | some pt => some (.ok (some (pt.getD [])))

/-- `Open`. -/
def AESGCM.openSealed (e : AESGCM) (s aad : Bytes) : Option (Except SecureError (Option Bytes)) :=
  if s.length < 2 then some (.error .errMalformed)
  else do
    let version ← s[0]?
    if version ≠ 1 ∧ version ≠ 2 then some (.error .errMalformed)
    else do
      let idLen ← s[1]?
      if s.length < 2 + idLen.toNat then some (.error .errMalformed)
      else do
        let h ← sliceTo s (2 + idLen.toNat)
        let keyID ← sliceFrom h 2
        match e.masters.get keyID with
        | none => some (.error .errUnknownKey)
        | some master => do
          let rest ← sliceFrom s (2 + idLen.toNat)
          if version = 2 then
            if rest.length < saltSize then some (.error .errMalformed)
            else do
              let salt ← sliceTo rest saltSize
              let rest ← sliceFrom rest saltSize
              openRest g (g.hkdf master salt) (h ++ aad) rest
          else openRest g master (h ++ aad) rest

/-- GCM opens the messages that were sealed, and nothing else. -/
structure Gcm.Ideal (made : Call → Prop) : Prop where
  opens : ∀ m, made m → ∃ pt,
    g.openWith (m.key g) m.nonce (m.ciphertext g) (m.header ++ m.aad) = some pt ∧
      pt.getD [] = m.plain
  only : ∀ key nonce ct ad pt, g.openWith key nonce ct ad = some pt →
    ∃ m, made m ∧ m.key g = key ∧ m.nonce = nonce ∧ m.ciphertext g = ct ∧
      m.header ++ m.aad = ad

end Model

section Keys

variable {masters masters' : GoMap Bytes Bytes} {ks : List Key}

theorem validate_ok {k : Key} (h : k.validate = .ok ()) : k.id.length ≤ maxKeyID := by
  unfold Key.validate at h
  obtain ⟨hid, h⟩ := of_unless h
  rw [not_or] at hid
  exact not_lt.mp hid.2

/-- Every key that is added is found under its name, and none is replaced. -/
theorem addKeys_ok (h : addKeys masters ks = .ok masters') :
    (∀ k ∈ ks, masters'.get k.id = some k.material ∧ k.id.length ≤ maxKeyID) ∧
      ∀ id v, masters.get id = some v → masters'.get id = some v := by
  induction ks generalizing masters with
  | nil =>
    cases h
    exact ⟨fun _ hk => (nomatch hk), fun _ _ hv => hv⟩
  | cons k ks ih =>
    simp only [addKeys] at h
    split at h
    · cases h
    · next hvalid =>
      obtain ⟨hnew, h⟩ := of_unless h
      obtain ⟨hadded, hkept⟩ := ih h
      refine ⟨?_, ?_⟩
      · intro x hx
        rcases mem_cons.mp hx with rfl | hx
        · exact ⟨hkept _ _ (by simp), validate_ok hvalid⟩
        · exact hadded x hx
      · intro id v hv
        refine hkept id v ?_
        rw [GoMap.get_set, if_neg]
        · exact hv
        · rintro rfl
          rw [hv] at hnew
          exact hnew rfl

theorem newAESGCM_ok {derive : Bool} {active : Key} {retired : List Key} {e : AESGCM}
    (h : newAESGCM derive active retired = .ok e) :
    e.activeID = active.id ∧ e.derive = derive ∧ ∀ k ∈ active :: retired,
      e.masters.get k.id = some k.material ∧ k.id.length ≤ maxKeyID := by
  unfold newAESGCM at h
  cases hadd : addKeys .empty (active :: retired) with
  | error err =>
    rw [hadd] at h
    cases h
  | ok masters =>
    rw [hadd] at h
    cases h
    exact ⟨rfl, rfl, (addKeys_ok hadd).1⟩

end Keys

section Parsing

variable {g : Gcm} {e : AESGCM} {s aad : Bytes}

/-- How `Open` splits its input. -/
structure Split where
  version : UInt8
  keyID : Bytes
  master : Bytes
  salt : Bytes
  nonce : Bytes
  ct : Bytes

namespace Split

variable (p : Split)

def bytes : Bytes := headerV p.version p.keyID ++ (p.salt ++ (p.nonce ++ p.ct))

/-- The key `Open` uses. -/
def key (g : Gcm) : Bytes :=
  if p.version = 2 then g.hkdf p.master p.salt else p.master

structure Fits (g : Gcm) (e : AESGCM) : Prop where
  name : p.keyID.length ≤ maxKeyID
  known : e.masters.get p.keyID = some p.master
  format : p.version = 1 ∧ p.salt = [] ∨ p.version = 2 ∧ p.salt.length = saltSize
  nonceSize : p.nonce.length = g.nonceSize
  overhead : g.overhead ≤ p.ct.length

end Split

theorem openSealed_cons (version idLen : UInt8) (body : Bytes) :
    e.openSealed g (version :: idLen :: body) aad =
      if version ≠ 1 ∧ version ≠ 2 then some (.error .errMalformed)
      else if body.length < idLen.toNat then some (.error .errMalformed)
      else
        match e.masters.get (body.take idLen.toNat) with
        | none => some (.error .errUnknownKey)
        | some master =>
          let rest := body.drop idLen.toNat
          let ad := version :: idLen :: body.take idLen.toNat ++ aad
          if version = 2 then
            if rest.length < saltSize then some (.error .errMalformed)
            else openRest g (g.hkdf master (rest.take saltSize)) ad (rest.drop saltSize)
          else openRest g master ad rest := by
  unfold AESGCM.openSealed
  rw [if_neg (by simp)]
  by_cases hversion : version ≠ 1 ∧ version ≠ 2
  · simp [hversion]
  · by_cases hbody : body.length < idLen.toNat
    · have hlen : (version :: idLen :: body).length < 2 + idLen.toNat := by
        simp only [length_cons]
        omega
      simp only [List.getElem?_cons_zero, List.getElem?_cons_succ, Option.bind_eq_bind,
        Option.bind_some, if_neg hversion, if_pos hbody, if_pos hlen]
    · have hlen : ¬ (version :: idLen :: body).length < 2 + idLen.toNat := by
        simp only [length_cons]
        omega
      have hto : sliceTo (version :: idLen :: body) (2 + idLen.toNat) =
          some (version :: idLen :: body.take idLen.toNat) := by
        rw [sliceTo, if_pos (not_lt.mp hlen), Nat.add_comm]
        rfl
      have hfrom : sliceFrom (version :: idLen :: body) (2 + idLen.toNat) =
          some (body.drop idLen.toNat) := by
        rw [sliceFrom, if_pos (not_lt.mp hlen), Nat.add_comm]
        rfl
      have hid : sliceFrom (version :: idLen :: body.take idLen.toNat) 2 =
          some (body.take idLen.toNat) := by
        rw [sliceFrom, if_pos (by simp)]
        rfl
      simp only [List.getElem?_cons_zero, List.getElem?_cons_succ, Option.bind_eq_bind,
        Option.bind_some, if_neg hversion, if_neg hbody, if_neg hlen, hto, hfrom, hid]
      cases e.masters.get (body.take idLen.toNat) with
      | none => rfl
      | some master =>
        dsimp only
        split
        · split
          · rfl
          · next hsalt =>
            simp only [sliceTo, sliceFrom, if_pos (not_lt.mp hsalt), Option.bind_some]
        · rfl

theorem openRest_append {key ad nonce ct : Bytes} (hnonce : nonce.length = g.nonceSize)
    (hct : g.overhead ≤ ct.length) :
    openRest g key ad (nonce ++ ct) =
      match g.openWith key nonce ct ad with
      | none => some (.error .errDecrypt)
      | some pt => some (.ok (some (pt.getD []))) := by
  have hto : sliceTo (nonce ++ ct) g.nonceSize = some nonce := by
    simp [sliceTo, ← hnonce]
  have hfrom : sliceFrom (nonce ++ ct) g.nonceSize = some ct := by
    simp [sliceFrom, ← hnonce]
  unfold openRest
  rw [if_neg (by rw [length_append]; omega), hto, hfrom]
  rfl

theorem toNat_length {id : Bytes} (h : id.length ≤ maxKeyID) :
    (UInt8.ofNat id.length).toNat = id.length := by
  rw [UInt8.toNat_ofNat']
  exact Nat.mod_eq_of_lt (Nat.lt_succ_of_le h)

/-- Data that splits is opened by GCM. -/
theorem Split.Fits.openSealed {p : Split} (h : p.Fits g e) :
    e.openSealed g p.bytes aad =
      match g.openWith (p.key g) p.nonce p.ct (headerV p.version p.keyID ++ aad) with
      | none => some (.error .errDecrypt)
      | some pt => some (.ok (some (pt.getD []))) := by
  obtain ⟨version, keyID, master, salt, nonce, ct⟩ := p
  obtain ⟨hname, hknown, hformat, hnonce, hct⟩ := h
  dsimp only at hname hknown hformat hnonce hct
  have hversion : ¬ (version ≠ 1 ∧ version ≠ 2) := by
    rcases hformat with ⟨rfl, -⟩ | ⟨rfl, -⟩ <;> decide
  simp only [Split.bytes, headerV, cons_append]
  rw [openSealed_cons, toNat_length hname, take_left, drop_left, hknown,
    if_neg hversion, if_neg (by simp)]
  rcases hformat with ⟨rfl, rfl⟩ | ⟨rfl, hsalt⟩
  · exact openRest_append hnonce hct
  · dsimp only
    rw [if_pos rfl, ← hsalt, take_left, drop_left, if_neg (by simp)]
    exact openRest_append hnonce hct

/-- Data that does not split is refused, and nothing is read out of range. -/
theorem split_or_error (g : Gcm) (e : AESGCM) (s aad : Bytes) :
    (∃ err, e.openSealed g s aad = some (.error err)) ∨ ∃ p : Split, p.bytes = s ∧ p.Fits g e := by
  match s with
  | [] => exact .inl ⟨_, rfl⟩
  | [_] => exact .inl ⟨_, rfl⟩
  | version :: idLen :: body =>
    rw [openSealed_cons]
    by_cases hversion : version ≠ 1 ∧ version ≠ 2
    · exact .inl ⟨_, if_pos hversion⟩
    by_cases hbody : body.length < idLen.toNat
    · exact .inl ⟨_, by rw [if_neg hversion, if_pos hbody]⟩
    rw [if_neg hversion, if_neg hbody]
    cases hmaster : e.masters.get (body.take idLen.toNat) with
    | none => exact .inl ⟨_, rfl⟩
    | some master =>
      -- the key's name, and what is left behind the salt
      have hlen : (body.take idLen.toNat).length = idLen.toNat := by
        rw [length_take]
        omega
      have hsplit : ∀ salt rest, body.drop idLen.toNat = salt ++ rest →
          (version = 1 ∧ salt = [] ∨ version = 2 ∧ salt.length = saltSize) → ∀ key ad,
          (∃ err, openRest g key ad rest = some (.error err)) ∨
            ∃ p : Split, p.bytes = version :: idLen :: body ∧ p.Fits g e := by
        intro salt rest hrest hformat key ad
        by_cases hshort : rest.length < g.nonceSize + g.overhead
        · exact .inl ⟨_, if_pos hshort⟩
        · refine .inr ⟨⟨version, body.take idLen.toNat, master, salt, rest.take g.nonceSize,
            rest.drop g.nonceSize⟩, ?_, ?_, hmaster, hformat, ?_, ?_⟩
          · simp only [Split.bytes, headerV, hlen, take_append_drop, ← hrest,
              UInt8.ofNat_toNat, cons_append]
          · rw [hlen]
            exact Nat.le_of_lt_succ idLen.toNat_lt
          · rw [length_take]
            omega
          · rw [length_drop]
            omega
      dsimp only
      by_cases htwo : version = 2
      · rw [if_pos htwo]
        split
        · exact .inl ⟨_, rfl⟩
        · next hsalt =>
          refine hsplit _ _ (take_append_drop saltSize _).symm (.inr ⟨htwo, ?_⟩) _ _
          rw [length_take]
          omega
      · rw [if_neg htwo]
        have hone : version = 1 := by
          by_contra hne
          exact hversion ⟨hne, htwo⟩
        exact hsplit [] _ rfl (.inl ⟨hone, rfl⟩) _ _

end Parsing

section Results

variable {g : Gcm} {made : Call → Prop}

theorem headerV_append_inj {v v' : UInt8} {id id' aad aad' : Bytes} (hid : id.length ≤ maxKeyID)
    (hid' : id'.length ≤ maxKeyID) (h : headerV v id ++ aad = headerV v' id' ++ aad') :
    v = v' ∧ id = id' ∧ aad = aad' := by
  simp only [headerV, cons_append, List.cons.injEq] at h
  obtain ⟨hversion, hlen, hrest⟩ := h
  have hnat := congrArg UInt8.toNat hlen
  rw [toNat_length hid, toNat_length hid'] at hnat
  exact ⟨hversion, append_inj hrest hnat⟩

theorem Call.Ok.master {m : Call} (h : m.Ok g) : m.e.activeID.length ≤ maxKeyID := by
  obtain ⟨active, retired, hnew⟩ := h.made
  obtain ⟨hid, -, hkeys⟩ := newAESGCM_ok hnew
  rw [hid]
  exact (hkeys active mem_cons_self).2

/-- What was sealed, as an encryptor that knows the key splits it. -/
theorem Call.Ok.split {m : Call} {e : AESGCM} (h : m.Ok g)
    (hknown : e.masters.get m.e.activeID = some m.master) :
    ∃ p : Split, p.bytes = m.sealed g ∧ p.Fits g e ∧ p.version = m.version ∧
      p.keyID = m.e.activeID ∧ p.key g = m.key g ∧ p.nonce = m.nonce ∧ p.ct = m.ciphertext g := by
  refine ⟨⟨m.version, m.e.activeID, m.master, if m.e.derive then m.salt else [], m.nonce,
    m.ciphertext g⟩, ?_, ⟨h.master, hknown, ?_, h.nonce, ?_⟩, rfl, rfl, ?_, rfl, rfl⟩
  · simp [Split.bytes, Call.sealed, Call.header]
  · unfold Call.version
    cases m.e.derive with
    | false => exact .inl ⟨rfl, rfl⟩
    | true => exact .inr ⟨rfl, h.salt⟩
  · unfold Call.ciphertext
    rw [g.length_seal]
    exact Nat.le_add_left _ _
  · unfold Split.key Call.key Call.version
    cases m.e.derive <;> rfl

theorem Split.Fits.eq_sealed {p : Split} {m : Call} {e : AESGCM} {aad : Bytes} (h : p.Fits g e)
    (hm : m.Ok g) (hkey : m.key g = p.key g) (hnonce : m.nonce = p.nonce)
    (hct : m.ciphertext g = p.ct) (had : m.header ++ m.aad = headerV p.version p.keyID ++ aad) :
    p.bytes = m.sealed g ∧ aad = m.aad := by
  obtain ⟨hversion, hid, haad⟩ := headerV_append_inj hm.master h.name had
  have hsalt : p.salt = if m.e.derive then m.salt else [] := by
    unfold Call.key Split.key at hkey
    rw [← hversion] at hkey
    rcases h.format with ⟨hv, hnil⟩ | ⟨hv, hlen⟩
    · rw [hnil]
      rw [← hversion] at hv
      unfold Call.version at hv
      obtain ⟨hderive, hv⟩ := of_unless hv
      rw [if_neg hderive]
    · rw [← hversion] at hv
      have hderive : m.e.derive = true := by
        unfold Call.version at hv
        split at hv
        · assumption
        · cases hv
      rw [hv, if_pos hderive, if_pos rfl] at hkey
      rw [if_pos hderive]
      exact (g.hkdf_inj _ _ _ _ (hm.salt.trans hlen.symm) hkey).2.symm
  refine ⟨?_, haad.symm⟩
  unfold Split.bytes Call.sealed Call.header
  rw [hversion, hid, hsalt, hnonce, hct]
  simp

/-- Data sealed under a key in either format opens, never as nil, with every encryptor
that holds the key; and what is no sealed message with its associated data is refused
by every encryptor, nothing being read out of range. -/
theorem sealed_opens_only_unchanged (g : Gcm) (made : Call → Prop) (hideal : g.Ideal made)
    (hmade : ∀ m, made m → m.Ok g) :
    (∀ m, made m → ∀ active retired, newAESGCM m.e.derive active retired = .ok m.e →
      ∀ derive active' retired' e, newAESGCM derive active' retired' = .ok e →
        active ∈ active' :: retired' →
        e.openSealed g (m.sealed g) m.aad = some (.ok (some m.plain))) ∧
    ∀ (e : AESGCM) (s aad : Bytes), (∀ m, made m → (s, aad) ≠ (m.sealed g, m.aad)) →
      ∃ err, e.openSealed g s aad = some (.error err) := by
  refine ⟨?_, ?_⟩
  · intro m hm active retired hnew derive active' retired' e hnew' hholds
    obtain ⟨hid, -, hkeys⟩ := newAESGCM_ok hnew
    have hmaster : m.master = active.material := by
      rw [Call.master, hid, (hkeys active mem_cons_self).1]
      rfl
    have hknown : e.masters.get m.e.activeID = some m.master := by
      rw [hid, hmaster]
      exact ((newAESGCM_ok hnew').2.2 active hholds).1
    obtain ⟨p, hbytes, hfits, hversion, hkeyID, hkey, hnonce, hct⟩ := (hmade m hm).split hknown
    obtain ⟨pt, hopen, hpt⟩ := hideal.opens m hm
    rw [← hbytes, hfits.openSealed, hversion, hkeyID, hkey, hnonce, hct]
    unfold Call.header at hopen
    rw [hopen, ← hpt]
  · intro e s aad hother
    rcases split_or_error g e s aad with herr | ⟨p, rfl, hfits⟩
    · exact herr
    · rw [hfits.openSealed]
      cases hopen : g.openWith (p.key g) p.nonce p.ct (headerV p.version p.keyID ++ aad) with
      | none => exact ⟨_, rfl⟩
      | some pt =>
        obtain ⟨m, hm, hkey, hnonce, hct, had⟩ := hideal.only _ _ _ _ _ hopen
        obtain ⟨hbytes, haad⟩ := hfits.eq_sealed (hmade m hm) hkey hnonce hct had
        exact absurd (Prod.ext hbytes haad) (hother m hm)

/-- An encryptor of format 2 and the one message it sealed, an empty one. -/
def oldKey : Key := ⟨str "k1", List.replicate 32 1⟩
def newKey : Key := ⟨str "k2", List.replicate 32 2⟩

def oneCall : Call where
  e := ⟨str "k1", GoMap.empty.set (str "k1") (List.replicate 32 1), true⟩
  salt := List.replicate 16 3
  nonce := [4, 4]
  plain := []
  aad := [5]

/-- A cipher that knows the one message. -/
def oneGcm : Gcm where
  nonceSize := 2
  overhead := 1
  sealWith _ _ plain _ := plain ++ [9]
  openWith key nonce ct ad :=
    if key = List.replicate 32 1 ++ List.replicate 16 3 ∧ nonce = [4, 4] ∧ ct = [9] ∧
      ad = [2, 2, 107, 49, 5] then some none else none
  hkdf master salt := master ++ salt
  length_seal := by simp
  hkdf_inj _ _ _ _ hlen h := append_inj' h hlen

theorem sealed_opens_only_unchanged_rotated :
    ∃ e, newAESGCM false newKey [oldKey] = .ok e ∧
      e.openSealed oneGcm (oneCall.sealed oneGcm) [5] = some (.ok (some [])) ∧
      ∃ err, e.openSealed oneGcm (oneCall.sealed oneGcm) [6] = some (.error err) := by
  have hnew : newAESGCM true oldKey [] = .ok oneCall.e := rfl
  have hideal : oneGcm.Ideal fun m => m = oneCall := by
    refine ⟨?_, ?_⟩
    · rintro m rfl
      exact ⟨none, by decide +kernel, rfl⟩
    · intro key nonce ct ad pt h
      simp only [oneGcm] at h
      obtain ⟨heq, h⟩ := of_when h
      obtain ⟨rfl, rfl, rfl, rfl⟩ := heq
      exact ⟨oneCall, rfl, by decide +kernel, rfl, rfl, by decide +kernel⟩
  have hall := sealed_opens_only_unchanged oneGcm (fun m => m = oneCall) hideal
    (by rintro m rfl; exact ⟨⟨oldKey, [], hnew⟩, rfl, rfl⟩)
  refine ⟨_, rfl, ?_, hall.2 _ _ _ ?_⟩
  · exact hall.1 oneCall rfl oldKey [] hnew false newKey [oldKey] _ rfl
      (mem_cons_of_mem _ mem_cons_self)
  · rintro m rfl h
    cases (Prod.mk.inj h).2

end Results

end Secure
end GoGuard
