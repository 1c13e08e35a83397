import GoGuard.Breaker.Shard
import GoGuard.Lib.Transition

/-!
# The names of circuits

`New`, `getEntry` and `circuitName` of `goguard.go` and `Breakers` of `defer.go`.  A deferred
request is held back under the name of its circuit, so a live circuit is told apart from
the others by its name.
-/

namespace GoGuard
namespace Breaker

open Lib List Function

section Model

/-- What `New` reads of an `Endpoint`; `valid` is the answer of `Policy.validate`. -/
structure Endpoint where
  name : List UInt8
  perHost : Bool
  hasMatch : Bool
  valid : Bool
deriving DecidableEq

/-- What `New` reads of a `Config`; of `GuardAll`, whether it is valid and whether it sets
`HealthHeader`. -/
structure TransportConfig where
  endpoints : List Endpoint
  guardAll : Option (Bool × Bool)

/-- `"*"`. -/
def guardAllName : List UInt8 := [42]

/-- One round of the loop of `New`. -/
def addEndpoint (eps : List Endpoint) (e : Endpoint) : Option (List Endpoint) :=
  if e.name = [] ∨ e.name = guardAllName then none
  else if e.hasMatch = false then none
  else if ∃ x ∈ eps, x.name = e.name then none
  else if e.valid = false then none
  else some (eps ++ [e])

/-- The endpoints `New` makes, by their index; `none` where it fails. -/
def TransportConfig.new (cfg : TransportConfig) : Option (List Endpoint) :=
  (cfg.endpoints.foldlM addEndpoint []).bind fun eps =>
    match cfg.guardAll with
    | none => some eps
    | some (valid, healthHeader) =>
      if valid = false then none
      else if healthHeader then none
      else some (eps ++ [⟨guardAllName, true, true, true⟩])

/-- `strings.TrimSuffix`. -/
def trimSuffix (s suffix : List UInt8) : List UInt8 :=
  if suffix <:+ s then s.take (s.length - suffix.length) else s

/-- `canonHost`; `lower` is `strings.ToLower`, and the suffixes are `":443"`, `":80"` and `"."`. -/
def canonHost (lower : List UInt8 → List UInt8) (h : List UInt8) : List UInt8 :=
  let h := lower h
  let h := if [58, 52, 52, 51] <:+ h then trimSuffix h [58, 52, 52, 51] else trimSuffix h [58, 56, 48]
  trimSuffix h [46]

/-- `circuitName`, with `'@'` between name and host. -/
def circuitName (ep : Endpoint) (host : List UInt8) : List UInt8 :=
  if ep.perHost = false then ep.name
  else if ep.name = guardAllName then host
  else ep.name ++ 64 :: host

/-- What a transport is built with: `shardFor` is the hash of a host. -/
structure Setup where
  eps : List Endpoint
  lower : List UInt8 → List UInt8
  shardFor : List UInt8 → Nat
  maxBreakers : Int
  maxIdleTime : Int

/-- The endpoints whose shared circuit exists, and the shards. -/
structure Transport where
  shared : Nat → Bool
  shards : Nat → Shard

def Transport.new : Transport := ⟨fun _ => false, fun _ => .new⟩

inductive Request where
  /-- a request to a host under the endpoint of an index -/
  | guarded (i : Nat) (host : List UInt8) (now : Int) (state : Nat → BreakerState)
  | pruneIdle (shard : Nat) (now : Int)

def Transport.step (u : Setup) (t : Transport) : Request → Option Transport
  | .guarded i host now state =>
    u.eps[i]?.map fun ep =>
      if ep.perHost = false then { t with shared := update t.shared i true }
      else
        let canon := canonHost u.lower host
        let j := u.shardFor canon
        { t with
          shards := update t.shards j ((t.shards j).getEntry u.maxBreakers now ⟨i, canon⟩ state) }
  | .pruneIdle j now =>
    some { t with
      shards := update t.shards j
        ((t.shards j).pruneIdle u.maxIdleTime now (t.shards j).lru.length) }

inductive CircuitId where
  | shared (i : Nat)
  | ofHost (shard x : Nat)
deriving DecidableEq

def CircuitId.ofHost? : CircuitId → Bool
  | .shared _ => false
  | .ofHost _ _ => true

def Transport.Live (t : Transport) : CircuitId → Prop
  | .shared i => t.shared i = true
  | .ofHost j x => x ∈ (t.shards j).lru

def Transport.key (t : Transport) : CircuitId → Key
  | .shared i => ⟨i, []⟩
  | .ofHost j x => ((t.shards j).entry x).key

/-- The name `newEntry` gives a circuit. -/
def Transport.name (u : Setup) (t : Transport) (c : CircuitId) : List UInt8 :=
  (u.eps[(t.key c).idx.toNat]?.map fun ep => circuitName ep (t.key c).host).getD []

/-- `Breakers` of the circuits that `entries` lists. -/
def Transport.breakers (u : Setup) (t : Transport) (l : List CircuitId) :
    GoMap (List UInt8) CircuitId :=
  l.foldl (fun m c => m.set (t.name u c) c) .empty

/-- Whether the redriver skips a dependency: the circuit of that name refuses. -/
def skips (breakers : GoMap (List UInt8) CircuitId) (refusing : CircuitId → Bool)
    (dep : List UInt8) : Bool :=
  (breakers.get dep).any refusing

end Model

section Endpoints

variable {eps eps' : List Endpoint} {e : Endpoint}

theorem addEndpoint_eq_some (h : addEndpoint eps e = some eps') :
    eps' = eps ++ [e] ∧ e.name ≠ guardAllName ∧ ∀ x ∈ eps, x.name ≠ e.name := by
  simp only [addEndpoint, Option.ite_none_left_eq_some, not_or, not_exists, not_and,
    Option.some.injEq] at h
  exact ⟨h.2.2.2.2.symm, h.1.2, h.2.2.1⟩

/-- The names are all different, and `GuardAll` is the last endpoint. -/
theorem new_eq_some {cfg : TransportConfig} (h : cfg.new = some eps) :
    (eps.map Endpoint.name).Nodup ∧
      ∀ ep ∈ eps, ep ∈ cfg.endpoints ∨ ep.perHost = true ∧ ep.name = guardAllName := by
  have hloop : ∀ (l : List Endpoint) {eps eps'}, l.foldlM addEndpoint eps = some eps' →
      (eps.map Endpoint.name).Nodup → (∀ ep ∈ eps, ep.name ≠ guardAllName) →
        (eps'.map Endpoint.name).Nodup ∧ (∀ ep ∈ eps', ep.name ≠ guardAllName) ∧
          ∀ ep ∈ eps', ep ∈ eps ∨ ep ∈ l := by
    intro l
    induction l with
    | nil =>
      intro eps eps' h hnodup hname
      cases h
      exact ⟨hnodup, hname, fun _ hx => .inl hx⟩
    | cons e l ih =>
      intro eps eps' h hnodup hname
      obtain ⟨mid, hmid, hrest⟩ := Option.bind_eq_some_iff.mp h
      obtain ⟨rfl, hstar, hfresh⟩ := addEndpoint_eq_some hmid
      obtain ⟨hn, hs, hm⟩ := ih hrest (by grind) (by grind)
      exact ⟨hn, hs, by grind⟩
  obtain ⟨mid, hmid, hlast⟩ := Option.bind_eq_some_iff.mp h
  grind

end Endpoints

section Naming

variable {u : Setup} {t t' : Transport}

/-- A host that `GuardAll` guards holds no `'@'` and is no name of a shared circuit. -/
def Foreign (eps : List Endpoint) (ep : Endpoint) (host : List UInt8) : Prop :=
  ep.perHost = true → ep.name = guardAllName →
    64 ∉ host ∧ ∀ x ∈ eps, x.perHost = false → x.name ≠ host

theorem append_at_inj {a b c d : List UInt8} (ha : 64 ∉ a) (hb : 64 ∉ b)
    (h : a ++ 64 :: c = b ++ 64 :: d) : a = b ∧ c = d := by
  induction a generalizing b with
  | nil => cases b <;> grind
  | cons x a ih => cases b <;> grind

theorem circuitName_inj {eps : List Endpoint} (hnodup : (eps.map Endpoint.name).Nodup)
    (hplain : ∀ ep ∈ eps, 64 ∉ ep.name) {i j : Nat} {ep ep' : Endpoint} {host host' : List UInt8}
    (hi : eps[i]? = some ep) (hj : eps[j]? = some ep') (hfree : Foreign eps ep host)
    (hfree' : Foreign eps ep' host') (heq : circuitName ep host = circuitName ep' host') :
    i = j ∧ (ep.perHost = true → host = host') := by
  have hidx : ep.name = ep'.name → i = j := by
    intro hname
    have hlt := (List.getElem?_eq_some_iff.mp hi).1
    exact (getElem?_inj (by simpa using hlt) hnodup).mp (by simp [hi, hj, hname])
  have hep := mem_of_getElem? hi
  have hep' := mem_of_getElem? hj
  have hat := append_at_inj (c := host) (d := host') (hplain ep hep) (hplain ep' hep')
  unfold circuitName at heq
  unfold Foreign at hfree hfree'
  grind

/-- The key of a circuit of a host: under an endpoint with a circuit per host, in the shard
of the host. -/
structure Homed (u : Setup) (j : Nat) (k : Key) : Prop where
  shard : u.shardFor k.host = j
  idx : (k.idx.toNat : Int) = k.idx
  endpoint : ∃ ep, u.eps[k.idx.toNat]? = some ep ∧ ep.perHost = true ∧ Foreign u.eps ep k.host

structure NamedOk (u : Setup) (t : Transport) : Prop where
  shared : ∀ i, t.shared i = true → ∃ ep, u.eps[i]? = some ep ∧ ep.perHost = false
  shards : ∀ j, Filed (Homed u j) (t.shards j)

def Request.Foreign (u : Setup) : Request → Prop
  | .guarded i host _ _ =>
    ∀ ep, u.eps[i]? = some ep → Breaker.Foreign u.eps ep (canonHost u.lower host)
  | .pruneIdle _ _ => True

theorem NamedOk.step {r : Request} (h : NamedOk u t) (hr : r.Foreign u)
    (hstep : t.step u r = some t') : NamedOk u t' := by
  have hput : ∀ {j s}, Filed (Homed u j) s → ∀ j', Filed (Homed u j') (update t.shards j s j') := by
    intro j s hs j'
    have hold := h.shards j'
    grind [update_apply]
  cases r with
  | guarded i host now state =>
    obtain ⟨ep, hep, rfl⟩ := Option.map_eq_some_iff.mp hstep
    split
    · refine ⟨fun i' hi' => ?_, h.shards⟩
      have hold := h.shared i'
      grind
    · next hper =>
      refine ⟨h.shared, hput ((h.shards _).getEntry ⟨rfl, by simp, ep, ?_⟩)⟩
      exact ⟨by simpa using hep, by simpa using hper, hr ep hep⟩
  | pruneIdle i now =>
    cases hstep
    exact ⟨h.shared, hput ((h.shards _).pruneIdle _)⟩

/-- The endpoint of a live circuit. -/
theorem NamedOk.endpoint (h : NamedOk u t) {c : CircuitId} (hc : t.Live c) :
    ∃ ep, u.eps[(t.key c).idx.toNat]? = some ep ∧ t.name u c = circuitName ep (t.key c).host ∧
      Foreign u.eps ep (t.key c).host ∧ ep.perHost = c.ofHost? := by
  have hep : ∃ ep, u.eps[(t.key c).idx.toNat]? = some ep ∧ Foreign u.eps ep (t.key c).host ∧
      ep.perHost = c.ofHost? := by
    cases c with
    | shared i =>
      obtain ⟨ep, hep, hper⟩ := h.shared i hc
      exact ⟨ep, hep, by simp [Foreign, hper], hper⟩
    | ofHost j x =>
      obtain ⟨ep, hep, hper, hfree⟩ := ((h.shards j).keys x hc).endpoint
      exact ⟨ep, hep, hfree, hper⟩
  obtain ⟨ep, hget, hfree, hper⟩ := hep
  refine ⟨ep, hget, ?_, hfree, hper⟩
  rw [Transport.name, hget]
  rfl

theorem NamedOk.name_inj (h : NamedOk u t) (hnodup : (u.eps.map Endpoint.name).Nodup)
    (hplain : ∀ ep ∈ u.eps, 64 ∉ ep.name) {c d : CircuitId} (hc : t.Live c) (hd : t.Live d)
    (hname : t.name u c = t.name u d) : c = d := by
  obtain ⟨ep, hep, hn, hfree, hper⟩ := h.endpoint hc
  obtain ⟨ep', hep', hn', hfree', hper'⟩ := h.endpoint hd
  obtain ⟨hidx, hhost⟩ :=
    circuitName_inj hnodup hplain hep hep' hfree hfree' (hn.symm.trans (hname.trans hn'))
  rw [← hidx, hep] at hep'
  cases hep'
  have hkind := hper.symm.trans hper'
  cases c with
  | shared i =>
    cases d with
    | shared j => exact congrArg CircuitId.shared hidx
    | ofHost j x => cases hkind
  | ofHost j x =>
    cases d with
    | shared i => cases hkind
    | ofHost j' y =>
      have hhome := (h.shards j).keys x hc
      have hhome' := (h.shards j').keys y hd
      have hnum : (t.key (.ofHost j x)).idx = (t.key (.ofHost j' y)).idx :=
        hhome.idx.symm.trans ((congrArg Nat.cast hidx).trans hhome'.idx)
      have hkey : t.key (.ofHost j x) = t.key (.ofHost j' y) :=
        congrArg₂ Key.mk hnum (hhost hper)
      obtain rfl : j = j' := hhome.shard.symm.trans ((congrArg _ (hhost hper)).trans hhome'.shard)
      have hx := ((h.shards j).entries _ x).mpr ⟨hc, rfl⟩
      have hy := ((h.shards j).entries _ y).mpr ⟨hd, hkey.symm⟩
      rw [Option.some.inj (hx.symm.trans hy)]

theorem breakers_get {l : List CircuitId} {c : CircuitId} (hc : c ∈ l)
    (hinj : ∀ d ∈ l, t.name u d = t.name u c → d = c) :
    (t.breakers u l).get (t.name u c) = some c := by
  have hfold : ∀ (m : GoMap (List UInt8) CircuitId), m.get (t.name u c) = some c ∨ c ∈ l →
      (l.foldl (fun m c => m.set (t.name u c) c) m).get (t.name u c) = some c := by
    clear hc
    induction l with
    | nil => exact fun m hm => hm.resolve_right (not_mem_nil)
    | cons d l ih =>
      intro m hm
      refine ih (fun e he => hinj e (mem_cons_of_mem _ he)) _ ?_
      rw [GoMap.get_set]
      grind
  exact hfold _ (.inr hc)

/-- If no endpoint's name holds an `'@'` and no host that `GuardAll` guards holds one or is
the name of a shared circuit, then every live circuit has a name of its own: `Breakers` has it
under that name, and the redriver skips the name exactly while the circuit refuses. -/
theorem circuits_have_own_names (cfg : TransportConfig) (u : Setup) (hnew : cfg.new = some u.eps)
    (reqs : List Request) (t : Transport) (hrun : run (Transport.step u) .new reqs = some t)
    (hplain : ∀ ep ∈ cfg.endpoints, 64 ∉ ep.name) (hhosts : ∀ r ∈ reqs, r.Foreign u)
    (l : List CircuitId) (hl : ∀ c, c ∈ l ↔ t.Live c) :
    (∀ c d, t.Live c → t.Live d → t.name u c = t.name u d → c = d) ∧
      (∀ c, t.Live c → (t.breakers u l).get (t.name u c) = some c) ∧
        ∀ refusing c, t.Live c → skips (t.breakers u l) refusing (t.name u c) = refusing c := by
  obtain ⟨hnodup, hmem⟩ := new_eq_some hnew
  have hat : ∀ ep ∈ u.eps, 64 ∉ ep.name := by
    intro ep hep
    rcases hmem ep hep with hold | ⟨-, hname⟩
    · exact hplain ep hold
    · rw [hname]
      decide
  have hstart : NamedOk u .new :=
    ⟨nofun, fun j => ⟨nodup_nil, by simp [Transport.new, Shard.new], nofun, nofun⟩⟩
  have h : NamedOk u t := by
    refine run_invariant_of _ ?_ (runAll_of_mem _ hhosts _) hstart hrun
    exact fun s r s' hr hs hstep => hs.step hr hstep
  have hinj : ∀ c d, t.Live c → t.Live d → t.name u c = t.name u d → c = d :=
    fun c d hc hd => h.name_inj hnodup hat hc hd
  have hget : ∀ c, t.Live c → (t.breakers u l).get (t.name u c) = some c := fun c hc =>
    breakers_get ((hl c).mpr hc) fun d hd heq => hinj d c ((hl d).mp hd) hc heq
  refine ⟨hinj, hget, fun refusing c hc => ?_⟩
  rw [skips, hget c hc]
  rfl

/-- A shared endpoint with the given name, and one called `"a"` with a circuit per host. -/
def twoEndpoints (name : List UInt8) : TransportConfig :=
  ⟨[⟨name, false, true, true⟩, ⟨[97], true, true, true⟩], none⟩

def twoSetup (name : List UInt8) : Setup :=
  ⟨(twoEndpoints name).endpoints, id, fun _ => 0, 10, 10⟩

/-- A request under each, both to the host `"h"`. -/
def twoRequests : List Request :=
  [.guarded 0 [104] 1 fun _ => .stateClosed, .guarded 1 [104] 2 fun _ => .stateClosed]

theorem two_live (name : List UInt8) :
    ∃ t, run (Transport.step (twoSetup name)) .new twoRequests = some t ∧
      t.key (.ofHost 0 0) = ⟨1, [104]⟩ ∧
        ∀ c, c ∈ [.shared 0, .ofHost 0 0] ↔ t.Live c := by
  refine ⟨_, rfl, rfl, fun c => ?_⟩
  cases c with
  | shared i => simp [Transport.Live, update_apply, Transport.new]
  | ofHost j x =>
    by_cases hj : j = 0
    · subst hj
      change _ ↔ x ∈ [0]
      simp
    · simp [Transport.Live, Transport.new, Shard.new, twoSetup, hj]

theorem circuits_have_own_names_two :
    ∃ t, run (Transport.step (twoSetup [98])) .new twoRequests = some t ∧
      (t.breakers (twoSetup [98]) [.shared 0, .ofHost 0 0]).get
        (t.name (twoSetup [98]) (.shared 0)) = some (.shared 0) := by
  obtain ⟨t, hrun, -, hlive⟩ := two_live [98]
  refine ⟨t, hrun, (circuits_have_own_names (twoEndpoints [98]) (twoSetup [98]) (by decide)
    twoRequests t hrun (by decide) ?_ _ hlive).2.1 _ ((hlive _).mp (by simp))⟩
  simp [twoRequests, Request.Foreign, Foreign, twoSetup, twoEndpoints, guardAllName]

/-- A shared endpoint may be called `"a@h"`: the circuit of `"a"` for the host `"h"` takes its
place in `Breakers`, and requests deferred on the shared circuit are sent while it refuses. -/
theorem circuits_share_a_name :
    ∃ t, (twoEndpoints [97, 64, 104]).new = some (twoSetup [97, 64, 104]).eps ∧
      run (Transport.step (twoSetup [97, 64, 104])) .new twoRequests = some t ∧
        (∀ c, c ∈ [.shared 0, .ofHost 0 0] ↔ t.Live c) ∧
          t.name (twoSetup [97, 64, 104]) (.shared 0) =
            t.name (twoSetup [97, 64, 104]) (.ofHost 0 0) ∧
          ∃ refusing : CircuitId → Bool, refusing (.shared 0) = true ∧
            skips (t.breakers (twoSetup [97, 64, 104]) [.shared 0, .ofHost 0 0]) refusing
              (t.name (twoSetup [97, 64, 104]) (.shared 0)) = false := by
  obtain ⟨t, hrun, hkey, hlive⟩ := two_live [97, 64, 104]
  have hhost : t.name (twoSetup [97, 64, 104]) (.ofHost 0 0) = [97, 64, 104] := by
    rw [Transport.name, hkey]
    rfl
  have hshared : t.name (twoSetup [97, 64, 104]) (.shared 0) = [97, 64, 104] := rfl
  refine ⟨t, by decide, hrun, hlive, hshared.trans hhost.symm, (· = .shared 0), by decide, ?_⟩
  simp [skips, Transport.breakers, hhost, hshared]

end Naming

end Breaker
end GoGuard
