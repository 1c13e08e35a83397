import GoGuard.Dlq.Fencing

/-!
# A store that seals what it keeps

`Secure` wraps a store.  Payload fields are sealed, each bound to the record and
the field, error texts are redacted, and an order key is replaced by its keyed
hash.  Under several peppers a key has a stored form for each of them; `orderKey`
asks the inner store for the forms one after the other and chooses the one that is
held, or the form of the current pepper.

`Append` is several calls of the inner store, which other calls may come between:
the questions of `orderKey`, and the append.
-/

namespace GoGuard
namespace Dlq

open Lib Machine Queue List

section Sealing

/-- `Encryptor`.  The first argument of `sealWith` is the randomness it draws. -/
structure Encryptor where
  sealWith : Bytes → Bytes → Bytes → Except Error Bytes
  openWith : Bytes → Bytes → Except Error Bytes

/-- HMAC-SHA256, assumed to be injective in the pepper and the message. -/
structure Hmac where
  sum : Bytes → Bytes → Bytes
  inj : ∀ p k p' k', sum p k = sum p' k' → p = p' ∧ k = k'
  ne_nil : ∀ p k, sum p k ≠ []

/-- `secureStore` without the inner store.  `redact` is the `Redactor`; the first of
the peppers is the current one, and none means that keys are stored in clear. -/
structure SecureStore where
  encryptor : Encryptor
  redact : Bytes → Bytes
  hmac : Hmac
  peppers : List Bytes

/-- `aad`. -/
def aad (id field : Bytes) : Bytes :=
  str "goguard/dlq/v1" ++ [0] ++ id ++ [0] ++ field

namespace SecureStore

variable (x : SecureStore)

/-- `seal`.  `rand` is the randomness drawn for a field. -/
def sealField (rand : Bytes → Bytes) (id field : Bytes) :
    Option Bytes → Except Error (Option Bytes)
  | none => .ok none
  | some plain => (x.encryptor.sealWith (rand field) plain (aad id field)).map some

/-- `headerField`. -/
def headerField (i : Nat) : Bytes :=
  str "header:" ++ formatInt i

/-- The loop of `sealRecord`. -/
def sealHeaders (rand : Bytes → Bytes) (id : Bytes) :
    Nat → List Header → Except Error (List Header)
  | _, [] => .ok []
  | i, h :: hs =>
    match x.sealField rand id (headerField i) h.value with
    | .error e => .error e
    | .ok value =>
      match sealHeaders rand id (i + 1) hs with
      | .error e => .error e
      | .ok rest => .ok (⟨h.key, value⟩ :: rest)

/-- `sealRecord` up to the order key. -/
def sealRecord (rand : Bytes → Bytes) (r : Record) : Except Error Record := do
  let key ← x.sealField rand r.id (str "key") r.key
  let value ← x.sealField rand r.id (str "value") r.value
  let checkpoint ← x.sealField rand r.id (str "checkpoint") r.checkpoint
  let headers ← x.sealHeaders rand r.id 0 r.headers
  .ok { r with
    key := key
    value := value
    checkpoint := checkpoint
    headers := headers
    lastError := x.redact r.lastError }

/-- `hashKey`. -/
def hashKey (pepper k : Bytes) : Bytes :=
  hexEncode (x.hmac.sum pepper k)

/-- `candidates`: every stored form of a key, current pepper first. -/
def candidates (k : Bytes) : List Bytes :=
  x.peppers.map fun p => x.hashKey p k

/-- Where `orderKey` is: the forms it has still to ask for, or its result. -/
inductive Choice where
  | asking (form : Bytes) (rest : List Bytes)
  | chosen (form : Bytes)
deriving DecidableEq

/-- The form of the current pepper. -/
def current (k : Bytes) : Bytes :=
  match x.peppers with
  | [] => k
  | p :: _ => if k = [] then k else x.hashKey p k

/-- `orderKey` up to its first question. -/
def orderKey (k : Bytes) : Choice :=
  if k = [] ∨ x.peppers.length ≤ 1 then .chosen (x.current k)
  else
    match x.candidates k with
    | [] => .chosen (x.current k)
    | form :: rest => .asking form rest

/-- The loop of `orderKey` behind an answer. -/
def answered (k form : Bytes) (rest : List Bytes) (held : Bool) : Choice :=
  if held then .chosen form
  else
    match rest with
    | [] => .chosen (x.current k)
    | form' :: rest' => .asking form' rest'

/-- `HasOrderKey`, with nothing between its questions. -/
def hasOrderKey (m : Machine) (k : Bytes) : Bool :=
  if k = [] ∨ x.peppers = [] then m.hasOrderKey k
  else (x.candidates k).any m.hasOrderKey

/-- The forms a key may be stored in. -/
def forms (k : Bytes) : List Bytes :=
  if k = [] ∨ x.peppers = [] then [k] else x.candidates k

end SecureStore

end Sealing

section Model

/-- An `Append` between its calls of the inner store.  The record is sealed, with its
order key in clear. -/
structure Appending where
  record : Record
  choice : SecureStore.Choice
deriving DecidableEq

/-- An inner store and the calls that run.  `plain` are the order keys of the records
in clear; no step reads it. -/
structure Secured where
  inner : Core
  appends : List Appending
  plain : GoMap Bytes Bytes

inductive SecureAct where
  /-- `Append` up to its first call of the inner store -/
  | append (r : Record) (rand : Bytes → Bytes)
  /-- `HasOrderKey` of the inner store, for the `Append` with this number -/
  | ask (i : Nat)
  /-- the inner `Append` -/
  | store (i : Nat) (now : Time) (ref : BlobRef)
  /-- a call of the inner store fails, and the `Append` with it -/
  | fail (i : Nat)
  /-- a step of any other call -/
  | other (a : CoreAct) (ref : BlobRef)

/-- A step of an `Append` of the inner store. -/
def CoreAct.appends : CoreAct → Bool
  | .call (.append _) _ => true
  | _ => false

/-- `Append` up to its first call of the inner store. -/
def SecureStore.begin (x : SecureStore) (r : Record) (rand : Bytes → Bytes) :
    Except Error Appending :=
  match r.validate with
  | .error e => .error e
  | .ok () =>
    match x.sealRecord rand r with
    | .error e => .error ⟨e.is, "dlq: sealing record: " ++ e.text⟩
    | .ok sealed => .ok ⟨sealed, x.orderKey r.orderKey⟩

def Secured.step (x : SecureStore) (offload : Bool) (s : Secured) : SecureAct → Option Secured
  | .append r rand =>
    match x.begin r rand with
    | .error _ => some s
    | .ok p => some { s with appends := s.appends ++ [p] }
  | .ask i =>
    match s.inner.commit, s.appends[i]? with
    | none, some ⟨r, .asking form rest⟩ =>
      some { s with
        appends := s.appends.set i
          ⟨r, x.answered r.orderKey form rest (s.inner.m.hasOrderKey form)⟩ }
    | _, _ => none
  | .store i now ref =>
    match s.appends[i]? with
    | some ⟨r, .chosen form⟩ =>
      match s.inner.step offload (fun _ => ref)
          (.call (.append { r with orderKey := form }) now) with
      | none => none
      | some (c, none) => some { s with inner := c, appends := s.appends.eraseIdx i }
      | some (c, some _) =>
        some ⟨c, s.appends.eraseIdx i, s.plain.set r.id r.orderKey⟩
    | _ => none
  | .fail i =>
    if i < s.appends.length then some { s with appends := s.appends.eraseIdx i } else none
  | .other a ref =>
    if a.appends then none
    else (s.inner.step offload (fun _ => ref) a).map fun y => { s with inner := y.1 }

/-- The record with this identifier is stored in this form. -/
def Machine.Filed (m : Machine) (id form : Bytes) : Prop :=
  ∃ it, m.items.get id = some it ∧ it.record.orderKey = form

/-- The records of each key are stored in one of its forms. -/
def Secured.Whole (x : SecureStore) (s : Secured) : Prop :=
  ∀ id form, s.inner.m.Filed id form →
    ∃ k, s.plain.get id = some k ∧ form ∈ x.forms k ∧
      ∀ id' form', s.inner.m.Filed id' form' → s.plain.get id' = some k → form' = form

/-- The record a step takes out. -/
def CoreAct.removes (m : Machine) : CoreAct → Option Item
  | .call (.ack id token) _ => (m.held id token).toOption
  | .call (.discard id) _ => (parkedItem m id).toOption
  | _ => none

/-- The last record in a form of an old pepper stays while an `Append` that has chosen
the form is about to store its record. -/
def Secured.Steady (x : SecureStore) (s : Secured) : SecureAct → Prop
  | .other a _ =>
    ∀ it ∈ a.removes s.inner.m, s.inner.m.keyLine it.record.orderKey = [it.ptr] →
      ∀ p ∈ s.appends, p.choice = .chosen it.record.orderKey →
        it.record.orderKey = x.current p.record.orderKey
  | _ => True

instance (x : SecureStore) (s : Secured) (a : SecureAct) : Decidable (s.Steady x a) :=
  match a with
  | .other a _ =>
    inferInstanceAs (Decidable (∀ it ∈ a.removes s.inner.m,
      s.inner.m.keyLine it.record.orderKey = [it.ptr] →
        ∀ p ∈ s.appends, p.choice = .chosen it.record.orderKey →
          it.record.orderKey = x.current p.record.orderKey))
  | .append .. | .ask _ | .store .. | .fail _ => isTrue trivial

end Model

section Forms

theorem hexDigit_inj : ∀ a < 16, ∀ b < 16, hexDigit a = hexDigit b → a = b := by
  decide

theorem hexEncode_inj {bs bs' : Bytes} (h : hexEncode bs = hexEncode bs') : bs = bs' := by
  induction bs generalizing bs' with
  | nil =>
    cases bs' with
    | nil => rfl
    | cons b bs' => cases h
  | cons a bs ih =>
    cases bs' with
    | nil => cases h
    | cons b bs' =>
      simp only [hexEncode, flatMap_cons, cons_append, nil_append,
        List.cons.injEq] at h
      obtain ⟨hhigh, hlow, hrest⟩ := h
      have ha := a.toNat_lt
      have hb := b.toNat_lt
      have hdiv := hexDigit_inj _ (by omega) _ (by omega) hhigh
      have hmod := hexDigit_inj _ (by omega) _ (by omega) hlow
      have hab : a = b := UInt8.toNat_inj.mp (by omega)
      rw [hab, ih hrest]

namespace SecureStore

variable {x : SecureStore} {k k' form : Bytes}

theorem hashKey_ne_nil (x : SecureStore) (p k : Bytes) : x.hashKey p k ≠ [] :=
  fun h => x.hmac.ne_nil p k (hexEncode_inj h)

theorem hashKey_inj {p p' : Bytes} (h : x.hashKey p k = x.hashKey p' k') : k = k' :=
  (x.hmac.inj p k p' k' (hexEncode_inj h)).2

theorem mem_forms :
    form ∈ x.forms k ↔
      ((k = [] ∨ x.peppers = []) ∧ form = k) ∨
        (k ≠ [] ∧ ∃ p ∈ x.peppers, x.hashKey p k = form) := by
  unfold forms
  split
  · next hclear =>
    rw [mem_singleton]
    constructor
    · exact fun h => .inl ⟨hclear, h⟩
    · rintro (⟨-, h⟩ | ⟨hk, p, hp, -⟩)
      · exact h
      · rcases hclear with hnil | hnone
        · exact absurd hnil hk
        · rw [hnone] at hp
          cases hp
  · next hclear =>
    rw [not_or] at hclear
    rw [candidates, mem_map]
    constructor
    · exact fun h => .inr ⟨hclear.1, h⟩
    · rintro (⟨hnot, -⟩ | ⟨-, h⟩)
      · exact absurd hnot (not_or.mpr hclear)
      · exact h

theorem forms_ne_nil (hk : k ≠ []) (hform : form ∈ x.forms k) : form ≠ [] := by
  rcases mem_forms.mp hform with ⟨-, rfl⟩ | ⟨-, p, -, rfl⟩
  · exact hk
  · exact x.hashKey_ne_nil p k

/-- A form is the form of one key. -/
theorem forms_inj (hform : form ∈ x.forms k) (hform' : form ∈ x.forms k') (hne : form ≠ []) :
    k = k' := by
  rcases mem_forms.mp hform with ⟨hclear, rfl⟩ | ⟨-, p, hp, rfl⟩
  · have hnone := hclear.resolve_left hne
    rcases mem_forms.mp hform' with ⟨-, h⟩ | ⟨-, p, hp, -⟩
    · exact h
    · rw [hnone] at hp
      cases hp
  · rcases mem_forms.mp hform' with ⟨hclear, h⟩ | ⟨-, p', -, h⟩
    · rcases hclear with rfl | hnone
      · exact absurd h (x.hashKey_ne_nil p k)
      · rw [hnone] at hp
        cases hp
    · exact (hashKey_inj h).symm

theorem current_mem_forms (x : SecureStore) (k : Bytes) : x.current k ∈ x.forms k := by
  rw [mem_forms]
  unfold current
  split
  · next hnone => exact .inl ⟨.inr hnone, rfl⟩
  · next p rest hsome =>
    split
    · next hk => exact .inl ⟨.inl hk, rfl⟩
    · next hk =>
      rw [hsome]
      exact .inr ⟨hk, p, mem_cons_self, rfl⟩

theorem eq_current (hfew : k = [] ∨ x.peppers.length ≤ 1) (hform : form ∈ x.forms k) :
    form = x.current k := by
  rcases mem_forms.mp hform with ⟨hclear, rfl⟩ | ⟨hk, p, hp, rfl⟩
  · unfold current
    split
    · rfl
    · next hsome =>
      have hnil : form = [] := by
        refine hclear.resolve_right ?_
        rw [hsome]
        exact cons_ne_nil _ _
      rw [if_pos hnil]
  · have hlen := hfew.resolve_left hk
    unfold current
    split
    · next hnone =>
      rw [hnone] at hp
      cases hp
    · next p' rest hsome =>
      rw [hsome] at hp hlen
      have hrest : rest = [] := length_eq_zero_iff.mp (by simpa using hlen)
      rw [hrest] at hp
      rw [if_neg hk, mem_singleton.mp hp]

end SecureStore

end Forms

section Filing

variable {R : Item → Record → Prop} {offload : Bool} {refOf : Entry → BlobRef}
variable {m : Machine} {q : Queue} {s s' : Core} {id form : Bytes}

theorem Shows.filed_iff (h : Indexed m) (hs : Shows R m q) :
    m.Filed id form ↔ ∃ r ∈ q.recs, r.id = id ∧ r.orderKey = form := by
  constructor
  · rintro ⟨it, hit, rfl⟩
    obtain ⟨r, hr, hread⟩ := hs.record h (h.get_ptr hit)
    obtain ⟨hid, -, hkey, -⟩ := hs.sight.same hread
    exact ⟨r, hr, hid.trans (h.live id it hit).1, hkey⟩
  · rintro ⟨r, hr, rfl, rfl⟩
    obtain ⟨it, hit, hread⟩ := hs.item h hr
    obtain ⟨-, -, hkey, -⟩ := hs.sight.same hread
    exact ⟨it, hit, hkey.symm⟩

theorem hasOrderKey_iff (h : Indexed m) (hne : form ≠ []) :
    m.hasOrderKey form = true ↔ ∃ id, m.Filed id form := by
  have hline : m.hasOrderKey form = true ↔ ∃ p, p ∈ m.keyLine form := by
    unfold Machine.hasOrderKey
    simp only [hne, ne_eq, not_false_eq_true, decide_true, Bool.true_and, decide_eq_true_eq]
    exact ⟨exists_mem_of_ne_nil _, fun h => ne_nil_of_mem h.choose_spec⟩
  rw [hline]
  constructor
  · rintro ⟨p, hp⟩
    obtain ⟨-, it, hit, -, hkey⟩ := (h.key_mem form p).mp hp
    exact ⟨p.id, it, hit, hkey⟩
  · rintro ⟨id, it, hit, hkey⟩
    exact ⟨it.ptr, (h.key_mem form it.ptr).mpr ⟨hne, it, h.get_ptr hit, rfl, hkey⟩⟩

/-- A record that is not alone in its line has another beside it. -/
theorem filed_beside {it : Item} (h : Indexed m) (hit : m.items.get id = some it)
    (hne : it.record.orderKey ≠ []) (hline : m.keyLine it.record.orderKey ≠ [it.ptr]) :
    ∃ id', id' ≠ id ∧ m.Filed id' it.record.orderKey := by
  by_contra hnone
  push Not at hnone
  refine hline (perm_singleton.mp ((perm_ext_iff_of_nodup (h.key_asc _).nodup
    (nodup_singleton it.ptr)).mpr fun p => ?_))
  rw [h.key_mem, mem_singleton]
  constructor
  · rintro ⟨-, y, hy, rfl, hkey⟩
    have hid : y.ptr.id = id := by
      by_contra hother
      exact hnone _ hother ⟨y, hy, hkey⟩
    rw [hid, hit] at hy
    rw [Option.some.inj hy]
  · rintro rfl
    exact ⟨hne, it, h.get_ptr hit, rfl, rfl⟩

/-- What a step of the inner store does to the filing: an append files its record, and
an Ack or a Discard takes its record out. -/
theorem filed_of_step {a : CoreAct} {out : Option Entry} (h : CoreOk s) (hs : Shows Bare s.m q)
    (hstep : s.step offload refOf a = some (s', out)) :
    (∃ q', Shows Bare s'.m q') ∧
      (∀ id form, s'.m.Filed id form → s.m.Filed id form ∨
        ∃ r now r', a = .call (.append r) now ∧ s.m.prepare r now = .ok (some r') ∧
          out = some (.append r') ∧ r'.id = id ∧ r'.orderKey = form) ∧
        ∀ id form, s.m.Filed id form → s'.m.Filed id form ∨
          ∃ it, a.removes s.m = some it ∧ s.m.items.get id = some it := by
  obtain ⟨hok, heff⟩ := core_step h hstep
  cases out with
  | none =>
    have hs' := heff Bare q hs
    refine ⟨⟨q, hs'⟩, ?_, ?_⟩
    · intro id form hfiled
      exact .inl ((hs.filed_iff h.indexed).mpr ((hs'.filed_iff hok.indexed).mp hfiled))
    · intro id form hfiled
      exact .inl ((hs'.filed_iff hok.indexed).mpr ((hs.filed_iff h.indexed).mp hfiled))
  | some e =>
    obtain ⟨-, hs'⟩ := hs.logged h.indexed heff (finds_bare offload _ e)
    refine ⟨⟨_, hs'⟩, ?_, ?_⟩
    · intro id form hfiled
      obtain ⟨r, hr, rfl, rfl⟩ := (hs'.filed_iff hok.indexed).mp hfiled
      rcases origin_or_append hr with ⟨y, hy, hid, -, hkey⟩ | ⟨y, hy, hid, -, hkey⟩
      · exact .inl ((hs.filed_iff h.indexed).mpr ⟨y, hy, hid.symm, hkey.symm⟩)
      · right
        cases e with
        | append r' =>
          cases hy
          obtain ⟨c, now, rfl, hexec⟩ := call_of_entry rfl hstep
          obtain ⟨r₀, rfl, hprep⟩ := logs_append (exec_logs hexec)
          exact ⟨r₀, now, r', rfl, hprep, rfl, hid.symm, hkey.symm⟩
        | requeue id replace cp => cases replace <;> cases hy
        | _ => cases hy
    · intro id form hfiled
      obtain ⟨r, hr, rfl, rfl⟩ := (hs.filed_iff h.indexed).mp hfiled
      rcases survives_apply (e := e.bare) hr with ⟨r', hr', hid, -, hkey⟩ | hremoves
      · exact .inl ((hs'.filed_iff hok.indexed).mpr ⟨r', hr', hid, hkey⟩)
      · right
        rcases call_of_removal hremoves hstep with
          ⟨token, now, it, rfl, hheld⟩ | ⟨now, it, rfl, hparked⟩
        · refine ⟨it, ?_, held_eq_ok hheld⟩
          simp only [CoreAct.removes, hheld]
          rfl
        · refine ⟨it, ?_, (parkedItem_eq_ok hparked).1⟩
          simp only [CoreAct.removes, hparked]
          rfl

end Filing

end Dlq
end GoGuard
