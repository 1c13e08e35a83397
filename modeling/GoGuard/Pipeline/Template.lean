import GoGuard.Pipeline.Build
import GoGuard.Pipeline.Rewind
import Mathlib.Data.List.TakeWhile

/-!
# URL templates

The URL of an HTTP step may name data in braces.  `parseTemplate` cuts it into
literal text and references, `render` puts the data in, and `lookup` finds it: the
message key, what an earlier step saved, or a field of that saved JSON.

A literal run is not searched for a closing brace when a reference follows it, so
`parseTemplate` takes more than the grammar: `}{a}` has the text `}` in front.

What `encoding/json` makes of the saved bytes comes from outside as a tree.  It
decodes a number into the nearest `float64`, which `FormatFloat` writes with the
fewest digits that are read back as the same one, so that only integers up to
`2 ^ 53` are sure to come out as they were sent.
-/

namespace GoGuard
namespace Pipe

open Lib Dlq List

section Parsing

/-- `tmplPart`: literal text, or the reference when `ref` is true. -/
structure TmplPart where
  text : Bytes
  ref : Bool
deriving DecidableEq

inductive TemplateError where
  /-- `URL has a "}" without a "{"` -/
  | unopened
  /-- `URL has a "{" without a "}"` -/
  | unclosed
  /-- `URL has a bad reference {%s}` -/
  | badReference (ref : Bytes)
deriving DecidableEq

/-- The loop of `parseTemplate`.  A round takes at least a pair of braces. -/
def parseLoop : Nat → Bytes → Except TemplateError (List TmplPart)
  | 0, _ => .ok []
  | n + 1, s =>
    match s.dropWhile (· ≠ 123) with
    | [] =>
      if 125 ∈ s then .error .unopened
      else .ok (if s = [] then [] else [⟨s, false⟩])
    | _ :: rest =>
      match rest.dropWhile (· ≠ 125) with
      | [] => .error .unclosed
      | _ :: after =>
        let text := s.takeWhile (· ≠ 123)
        let ref := rest.takeWhile (· ≠ 125)
        if ref = [] ∨ 123 ∈ ref ∨ 32 ∈ ref then .error (.badReference ref)
        else do
          let parts ← parseLoop n after
          .ok ((if text = [] then [] else [⟨text, false⟩]) ++ ⟨ref, true⟩ :: parts)

/-- `parseTemplate`. -/
def parseTemplate (s : Bytes) : Except TemplateError (List TmplPart) :=
  parseLoop (s.length + 1) s

/-- An upper-case hexadecimal digit. -/
def upperHex (n : UInt8) : UInt8 :=
  if n < 10 then 48 + n else 55 + n

/-- A byte `url.PathEscape` keeps: letters, digits and `-_.~$&+:=@`. -/
def pathByte (b : UInt8) : Bool :=
  (97 ≤ b && b ≤ 122) || (65 ≤ b && b ≤ 90) || (48 ≤ b && b ≤ 57) ||
    b ∈ str "-_.~$&+:=@"

/-- `url.PathEscape`. -/
def pathEscape (s : Bytes) : Bytes :=
  s.flatMap fun b => if pathByte b then [b] else [37, upperHex (b / 16), upperHex (b % 16)]

end Parsing

section Grammar

/-- A string is cut before the first `c`. -/
theorem cut_at {a : Bytes} {c : UInt8} (h : c ∉ a) (b : Bytes) :
    (a ++ c :: b).takeWhile (· ≠ c) = a ∧ (a ++ c :: b).dropWhile (· ≠ c) = c :: b := by
  rw [takeWhile_append_of_pos (ne_of_notMem h), dropWhile_append_of_pos (ne_of_notMem h)]
  simp

/-- What may stand between the braces of a reference. -/
def GoodRef (r : Bytes) : Prop :=
  r ≠ [] ∧ 123 ∉ r ∧ 125 ∉ r ∧ 32 ∉ r

/-- The grammar of a template: runs without braces, and references in braces. -/
inductive Grammar : Bytes → Prop
  | nil : Grammar []
  | text {t s : Bytes} : 123 ∉ t → 125 ∉ t → Grammar s → Grammar (t ++ s)
  | ref {r s : Bytes} : GoodRef r → Grammar s → Grammar (123 :: (r ++ 125 :: s))

/-- A part as it stands in the URL. -/
def TmplPart.source (p : TmplPart) : Bytes :=
  if p.ref then 123 :: (p.text ++ [125]) else p.text

/-- No closing brace before an opening one is without an opening brace of its own. -/
def NoStray (s : Bytes) : Prop :=
  ∀ a b, s = a ++ b → 123 ∈ b → a.count 125 ≤ a.count 123

variable {n : Nat} {s t r : Bytes}

/-- A template has no braces, or a first reference behind a run without braces. -/
theorem Grammar.first (h : Grammar s) :
    (123 ∉ s ∧ 125 ∉ s) ∨
      ∃ t r s', s = t ++ 123 :: (r ++ 125 :: s') ∧ 123 ∉ t ∧ 125 ∉ t ∧ GoodRef r ∧ Grammar s' := by
  induction h with
  | nil => simp
  | @text t s hopen hclose _ ih =>
    rcases ih with ⟨hopen', hclose'⟩ | ⟨t', r, s', rfl, ht, ht', hr, hs'⟩
    · exact .inl ⟨by simp [hopen, hopen'], by simp [hclose, hclose']⟩
    · exact .inr ⟨t ++ t', r, s', by simp, by simp [hopen, ht], by simp [hclose, ht'], hr, hs'⟩
  | @ref r s hr hs _ => exact .inr ⟨[], r, s, rfl, by simp, by simp, hr, hs⟩

theorem parseLoop_text (hs : 123 ∉ s) : parseLoop (n + 1) s =
    if 125 ∈ s then .error .unopened else .ok (if s = [] then [] else [⟨s, false⟩]) := by
  unfold parseLoop
  rw [dropWhile_eq_nil_iff.mpr (ne_of_notMem hs)]

theorem parseLoop_ref (ht : 123 ∉ t) (hr : 125 ∉ r) :
    parseLoop (n + 1) (t ++ 123 :: (r ++ 125 :: s)) =
      if r = [] ∨ 123 ∈ r ∨ 32 ∈ r then .error (.badReference r)
      else (parseLoop n s).map fun parts =>
        (if t = [] then [] else [⟨t, false⟩]) ++ ⟨r, true⟩ :: parts := by
  conv_lhs => rw [parseLoop]
  simp only [cut_at ht, cut_at hr]
  rfl

theorem parseLoop_unclosed (ht : 123 ∉ t) (hs : 125 ∉ s) :
    parseLoop (n + 1) (t ++ 123 :: s) = .error .unclosed := by
  unfold parseLoop
  simp only [cut_at ht, dropWhile_eq_nil_iff.mpr (ne_of_notMem hs)]

theorem NoStray.text (h : NoStray (t ++ 123 :: s)) (ht : 123 ∉ t) : 125 ∉ t := by
  have hcount := h t _ rfl mem_cons_self
  rw [count_eq_zero.mpr ht] at hcount
  exact count_eq_zero.mp (Nat.le_zero.mp hcount)

theorem NoStray.rest (h : NoStray (t ++ 123 :: (r ++ 125 :: s))) (hr : 125 ∉ r) (hr' : 123 ∉ r)
    (ht : 123 ∉ t) : NoStray s := by
  rintro a b rfl hb
  have hcount := h (t ++ 123 :: (r ++ 125 :: a)) b (by simp) hb
  simp [count_append, count_eq_zero.mpr ht, count_eq_zero.mpr (h.text ht), count_eq_zero.mpr hr,
    count_eq_zero.mpr hr'] at hcount
  exact hcount

theorem parseLoop_sound {parts : List TmplPart} (hn : s.length < n)
    (h : parseLoop n s = .ok parts) :
    parts.flatMap TmplPart.source = s ∧ (NoStray s → Grammar s) := by
  induction n generalizing s parts with
  | zero => cases hn
  | succ n ih =>
    by_cases hopen : 123 ∈ s
    · obtain ⟨t, rest, rfl, ht⟩ := eq_append_cons_of_mem hopen
      by_cases hclose : 125 ∈ rest
      · obtain ⟨r, s, rfl, hr⟩ := eq_append_cons_of_mem hclose
        rw [parseLoop_ref ht hr] at h
        obtain ⟨hgood, h⟩ := of_unless h
        simp only [not_or] at hgood
        obtain ⟨hne, hr', hspace⟩ := hgood
        cases hrest : parseLoop n s with
        | error e =>
          rw [hrest] at h
          cases h
        | ok ps =>
          rw [hrest] at h
          cases h
          obtain ⟨hsource, hgrammar⟩ := ih (by simp at hn; omega) hrest
          refine ⟨by split <;> simp [*, TmplPart.source], fun hstray => ?_⟩
          exact .text ht (hstray.text ht)
            (.ref ⟨hne, hr', hr, hspace⟩ (hgrammar (hstray.rest hr hr' ht)))
      · rw [parseLoop_unclosed ht hclose] at h
        cases h
    · rw [parseLoop_text hopen] at h
      obtain ⟨hclose, h⟩ := of_unless h
      cases h
      refine ⟨by split <;> simp [*, TmplPart.source], fun _ => ?_⟩
      simpa using Grammar.text hopen hclose .nil

theorem parseLoop_complete (hn : s.length < n) (h : Grammar s) :
    ∃ parts, parseLoop n s = .ok parts := by
  induction n generalizing s with
  | zero => cases hn
  | succ n ih =>
    rcases h.first with ⟨hopen, hclose⟩ | ⟨t, r, s', rfl, ht, -, ⟨hne, hopen, hclose, hspace⟩, hs'⟩
    · rw [parseLoop_text hopen, if_neg hclose]
      exact ⟨_, rfl⟩
    · obtain ⟨parts, hparts⟩ := ih (by simp at hn; omega) hs'
      rw [parseLoop_ref ht hclose, if_neg (by simp [hne, hopen, hspace]), hparts]
      exact ⟨_, rfl⟩

end Grammar
section Numbers

/-- The `float64` nearest to a natural number, the even one of two: its first 53
bits decide. -/
def nearest (n : Nat) : Nat :=
  let ulp := 2 ^ (n.log2 - 52)
  if 2 * (n % ulp) > ulp ∨ 2 * (n % ulp) = ulp ∧ n / ulp % 2 = 1 then (n / ulp + 1) * ulp
  else n / ulp * ulp

/-- The multiples of `p` around `v`, the nearer one first. -/
def around (v p : Nat) : List Nat :=
  if 2 * (v % p) < p then [v / p * p, (v / p + 1) * p] else [(v / p + 1) * p, v / p * p]

/-- The number with the fewest digits, up to zeros at its end, that is read back as
the `float64` `v`; at most `e` zeros are tried. -/
def shortest (v : Nat) : Nat → Nat
  | 0 => v
  | e + 1 => ((around v (10 ^ (e + 1))).find? fun m => nearest m = v).getD (shortest v e)

/-- `FormatFloat(v, 'f', -1, 64)` of the `float64` an integer is decoded into. -/
def formatFloat (n : Int) : Bytes :=
  let v := nearest n.natAbs
  formatInt (if n < 0 then -(shortest v v.log2 : Int) else shortest v v.log2)

theorem nearest_of_lt {n : Nat} (h : n < 2 ^ 53) : nearest n = n := by
  have hbits : n.log2 - 52 = 0 := by
    by_cases hn : n = 0
    · rw [hn]
      rfl
    · have hlog := (Nat.log2_lt hn).mpr h
      omega
  simp [nearest, hbits, Nat.mod_one]

theorem le_nearest {n : Nat} (h : 2 ^ 53 ≤ n) : 2 ^ 53 ≤ nearest n := by
  have hn : n ≠ 0 := by omega
  have hlog : 53 ≤ n.log2 := (Nat.le_log2 hn).mpr h
  have hsplit : 2 ^ n.log2 = 2 ^ 52 * 2 ^ (n.log2 - 52) := by
    rw [← Nat.pow_add]
    congr 1
    omega
  have hq : 2 ^ 52 ≤ n / 2 ^ (n.log2 - 52) := by
    rw [Nat.le_div_iff_mul_le (Nat.two_pow_pos _), ← hsplit]
    exact Nat.log2_self_le hn
  have hlow : 2 ^ 53 ≤ n / 2 ^ (n.log2 - 52) * 2 ^ (n.log2 - 52) :=
    calc 2 ^ 53 ≤ 2 ^ n.log2 := Nat.pow_le_pow_right (by decide) hlog
      _ = 2 ^ 52 * 2 ^ (n.log2 - 52) := hsplit
      _ ≤ _ := Nat.mul_le_mul_right _ hq
  unfold nearest
  dsimp only
  split
  · exact hlow.trans (Nat.mul_le_mul_right _ (Nat.le_succ _))
  · exact hlow

/-- Below `2 ^ 53` a number is the only one read as its `float64`. -/
theorem shortest_of_lt {v : Nat} (h : v < 2 ^ 53) (e : Nat) : shortest v e = v := by
  induction e with
  | zero => rfl
  | succ e ih =>
    unfold shortest
    cases hfind : (around v (10 ^ (e + 1))).find? fun m => nearest m = v with
    | none => exact ih
    | some m =>
      have hm : nearest m = v := by simpa using List.find?_some hfind
      have hlt : m < 2 ^ 53 := by
        by_contra hge
        have hle := le_nearest (not_lt.mp hge)
        omega
      exact (nearest_of_lt hlt).symm.trans hm

theorem shortest_nearest {n : Nat} (h : n ≤ 2 ^ 53) :
    shortest (nearest n) (nearest n).log2 = n := by
  rcases Nat.lt_or_eq_of_le h with hlt | rfl
  · rw [nearest_of_lt hlt]
    exact shortest_of_lt hlt _
  · decide +kernel

theorem formatFloat_eq {n : Int} (h : n.natAbs ≤ 2 ^ 53) : formatFloat n = formatInt n := by
  unfold formatFloat
  dsimp only
  rw [shortest_nearest h]
  congr 1
  split <;> omega

end Numbers

section Rendering

/-- What `encoding/json` decodes, as a tree.  An integer is given as it was sent; of
another number `text` is what `FormatFloat` makes.  The names of an object differ. -/
inductive Json where
  | null
  | bool (b : Bool)
  | int (n : Int)
  | number (text : Bytes)
  | str (s : Bytes)
  | arr (elems : List Json)
  | obj (fields : List (Bytes × Json))

inductive LookupError where
  /-- "nothing was saved under %q by an earlier step" -/
  | notSaved (name : Bytes)
  /-- "what was saved under %q is not JSON" -/
  | notJSON (name : Bytes)
  /-- "%q is not an object" -/
  | notObject (field : Bytes)
  /-- "no field %q" -/
  | noField (field : Bytes)
  /-- "is not a string, number or boolean" -/
  | notScalar
deriving DecidableEq

/-- The loop of `lookup` over the fields of a path. -/
def Json.walk : Json → List Bytes → Except LookupError Json
  | j, [] => .ok j
  | .obj fields, f :: path =>
    match fields.lookup f with
    | none => .error (.noField f)
    | some j => j.walk path
  | _, f :: _ => .error (.notObject f)

/-- `strconv.FormatBool`. -/
def formatBool (b : Bool) : Bytes :=
  Dlq.str (if b then "true" else "false")

/-- The switch at the end of `lookup`. -/
def Json.scalar : Json → Except LookupError Bytes
  | .str s => .ok s
  | .int n => .ok (formatFloat n)
  | .number text => .ok text
  | .bool b => .ok (formatBool b)
  | _ => .error .notScalar

/-- The part of `Exec` a template reads. -/
structure Exec where
  key : Option Bytes
  state : GoMap Bytes Bytes

variable (decode : Bytes → Option Json) (x : Exec)

/-- `lookup`. -/
def lookup (ref : Bytes) : Except LookupError Bytes :=
  let name := ref.takeWhile (· ≠ 46)
  let path := (ref.dropWhile (· ≠ 46)).drop 1
  if name = str "key" ∧ path = [] then .ok (x.key.getD [])
  else
    match x.state.get name with
    | none => .error (.notSaved name)
    | some raw =>
      if path = [] then .ok raw
      else
        match decode raw with
        | none => .error (.notJSON name)
        | some j => do
          let v ← j.walk (path.splitOn 46)
          v.scalar

/-- What `render` writes for a part. -/
def renderPart (p : TmplPart) : Except LookupError Bytes :=
  if p.ref then (lookup decode x p.text).map pathEscape else .ok p.text

/-- `render`. -/
def render : List TmplPart → Except LookupError Bytes
  | [] => .ok []
  | p :: rest => do
    let s ← renderPart decode x p
    let b ← render rest
    .ok (s ++ b)

/-- In every template the reference is replaced by `v`, escaped. -/
def Renders (ref v : Bytes) : Prop :=
  ∀ before after a b, render decode x before = .ok a → render decode x after = .ok b →
    render decode x (before ++ ⟨ref, true⟩ :: after) = .ok (a ++ pathEscape v ++ b)

/-- The reference to a field of what was saved under `name`. -/
def refTo (name : Bytes) (path : List Bytes) : Bytes :=
  name ++ 46 :: [46].intercalate path

variable {decode : Bytes → Option Json} {x : Exec}

theorem renders_of_lookup {ref v : Bytes} (h : lookup decode x ref = .ok v) :
    Renders decode x ref v := by
  intro before after a b hbefore hafter
  induction before generalizing a with
  | nil =>
    cases hbefore
    have hpart : renderPart decode x ⟨ref, true⟩ = .ok (pathEscape v) := by
      simp [renderPart, h, Except.map]
    simp only [nil_append, render, hpart, hafter]
    rfl
  | cons p before ih =>
    simp only [render] at hbefore
    cases hp : renderPart decode x p with
    | error e =>
      rw [hp] at hbefore
      cases hbefore
    | ok s =>
      cases hrest : render decode x before with
      | error e =>
        rw [hp, hrest] at hbefore
        cases hbefore
      | ok a' =>
        rw [hp, hrest] at hbefore
        cases hbefore
        rw [cons_append, render, hp, ih a' hrest]
        change Except.ok _ = Except.ok _
        rw [append_assoc, append_assoc, append_assoc]

theorem lookup_saved {name reply : Bytes} (hsaved : x.state.get name = some reply)
    (hname : 46 ∉ name) (hkey : name ≠ str "key") : lookup decode x name = .ok reply := by
  have htake : name.takeWhile (· ≠ 46) = name := takeWhile_eq_self_iff.mpr (ne_of_notMem hname)
  have hdrop : name.dropWhile (· ≠ 46) = [] := dropWhile_eq_nil_iff.mpr (ne_of_notMem hname)
  unfold lookup
  simp only [htake, hdrop, drop_nil, hkey, false_and, if_false, hsaved, if_true]

theorem lookup_field {name reply : Bytes} {j v : Json} {path : List Bytes}
    (hsaved : x.state.get name = some reply) (hname : 46 ∉ name) (hdecode : decode reply = some j)
    (hne : path ≠ []) (hpath : path ≠ [[]]) (hdots : ∀ f ∈ path, 46 ∉ f)
    (hwalk : j.walk path = .ok v) : lookup decode x (refTo name path) = v.scalar := by
  obtain ⟨htake, hdrop⟩ := cut_at hname ([46].intercalate path)
  have hsplit : ([46].intercalate path).splitOn 46 = path := splitOn_intercalate 46 hdots hne
  have hsome : [46].intercalate path ≠ [] := by
    intro hnil
    rw [hnil] at hsplit
    exact hpath hsplit.symm
  unfold lookup refTo
  simp only [htake, hdrop, drop_one, tail_cons, hsome, and_false, if_false, hsaved, hdecode, hsplit, hwalk]
  rfl

/-- `{"id":n}` as it was saved, and what the decoder makes of it. -/
def account (n : Int) : Bytes :=
  str "\x7b\"id\":" ++ formatInt n ++ str "\x7d"

def decodeAccount (n : Int) (raw : Bytes) : Option Json :=
  if raw = account n then some (.obj [(str "id", .int n)]) else none

/-- The data of a step after one that saved the account under `name`. -/
def afterSaving (name : Bytes) (n : Int) : Exec where
  key := some (str "k1")
  state := GoMap.empty.set name (account n)

/-- A step that reads an account and saves it, and one whose URL refers to it. -/
def twoSteps (saveAs : Bytes) : List StepDef :=
  [⟨str "read", [], none, [], 0, none, 0, false, some none, saveAs, false⟩,
    ⟨str "use", [], none, [], 0, none, 0, false, some none, [], false⟩]

/-- `New` accepts the steps. -/
def Accepted (defs : List StepDef) : Prop :=
  ∃ built, newPipeline (fun _ => none) 0 (str "p") [] defs false (fun _ => []) = .ok built

end Rendering

end Pipe
end GoGuard
