import GoGuard.Pipeline.Checkpoint

/-!
# Building a pipeline

`New` checks the steps it is given, builds a breaker for every step that has a `HealthURL`
and no breaker, and fills in the short form of the retry policy.  `Breakers` lists the
breakers that guard the steps.

A breaker is a pointer: two steps share a breaker when they have the same object, whatever
other breakers are named.  Those that `New` builds lie at `base`, `base + 1` and so on.
What is wrong with an HTTP call or a health URL comes from outside.
-/

namespace GoGuard
namespace Pipe

open Lib Dlq List

section Definitions

/-- A `*breaker.Breaker`: where it lies, and its `Name()`, which never changes. -/
structure BreakerRef where
  addr : Nat
  name : Bytes
deriving DecidableEq

/-- A step as the caller of `New` writes it.  `run` says whether it has a `Run`, and
`http` what `compile` finds wrong with its HTTP call, if it has one. -/
structure StepDef where
  name : Bytes
  dependency : Bytes
  breaker : Option BreakerRef
  healthURL : Bytes
  maxRetries : Int
  retryable : Option (Err → Bool)
  retries : Int
  run : Bool
  http : Option (Option Bytes)
  saveAs : Bytes
  compensate : Bool

inductive NewError where
  /-- "pipeline: a name is required" -/
  | noName
  /-- "pipeline: at least one step is required" -/
  | noSteps
  /-- "pipeline: step %d needs a Name and exactly one of Run and HTTP" -/
  | incomplete (index : Nat)
  /-- "pipeline: duplicate step name %q" -/
  | duplicate (name : Bytes)
  /-- "pipeline: step %q sets SaveAs without HTTP" -/
  | saveAs (name : Bytes)
  /-- an error of `compile` -/
  | http (text : Bytes)
  /-- "pipeline: step %q: HealthURL: %w" -/
  | healthURL (name text : Bytes)
deriving DecidableEq

/-- The checks of a step, behind the names already seen. -/
def StepDef.check (s : StepDef) (i : Nat) (seen : List Bytes) : Option NewError :=
  if s.name = [] ∨ s.run = s.http.isSome then some (.incomplete i)
  else if s.name ∈ seen then some (.duplicate s.name)
  else if s.saveAs ≠ [] ∧ s.http.isNone then some (.saveAs s.name)
  else (s.http.getD none).map .http

/-- The breaker of a step: its own, or the one `NewHTTP` builds at `addr`.  `health` is
what is wrong with a health URL. -/
def StepDef.guard (health : Bytes → Option Bytes) (s : StepDef) (addr : Nat) :
    Except NewError (Option BreakerRef) :=
  if s.breaker = none ∧ s.healthURL ≠ [] then
    match health s.healthURL with
    | some text => .error (.healthURL s.name text)
    | none => .ok (some ⟨addr, if s.dependency = [] then s.name else s.dependency⟩)
  else .ok s.breaker

/-- The step `New` makes of it. -/
def StepDef.step (s : StepDef) (guard : Option BreakerRef) : Step where
  name := s.name
  dependency := s.dependency
  breaker := guard.map BreakerRef.name
  retry :=
    if s.retries > 0 ∧ s.maxRetries = 0 then ⟨s.retries.toNat, none⟩
    else ⟨s.maxRetries.toNat, s.retryable⟩
  compensate := s.compensate

/-- The loop of `New` from the step `i` on. -/
def buildSteps (health : Bytes → Option Bytes) (base : Nat) :
    Nat → List Bytes → List StepDef → Except NewError (List (Step × Option BreakerRef))
  | _, _, [] => .ok []
  | i, seen, s :: rest =>
    match s.check i seen with
    | some err => .error err
    | none =>
      match s.guard health (base + i) with
      | .error err => .error err
      | .ok guard =>
        match buildSteps health base (i + 1) (s.name :: seen) rest with
        | .error err => .error err
        | .ok built => .ok ((s.step guard, guard) :: built)

/-- A pipeline with the breakers of its steps. -/
structure Built where
  pipe : Pipeline
  guards : List (Option BreakerRef)
  names : guards.map (Option.map BreakerRef.name) = pipe.steps.map Step.breaker

end Definitions

section Loop

variable {health : Bytes → Option Bytes} {base i : Nat} {seen : List Bytes}
variable {defs : List StepDef} {built : List (Step × Option BreakerRef)}

theorem check_eq_none {s : StepDef} (h : s.check i seen = none) : s.name ≠ [] ∧ s.name ∉ seen := by
  unfold StepDef.check at h
  obtain ⟨hshape, h⟩ := of_unless h
  obtain ⟨hnew, h⟩ := of_unless h
  exact ⟨fun hname => hshape (.inl hname), hnew⟩

theorem buildSteps_cons {s : StepDef} (h : buildSteps health base i seen (s :: defs) = .ok built) :
    s.check i seen = none ∧ ∃ guard rest, s.guard health (base + i) = .ok guard ∧
      buildSteps health base (i + 1) (s.name :: seen) defs = .ok rest ∧
        built = (s.step guard, guard) :: rest := by
  simp only [buildSteps] at h
  split at h
  · cases h
  · next hcheck =>
    split at h
    · cases h
    · next guard hguard =>
      split at h
      · cases h
      · next rest hrest =>
        cases h
        exact ⟨hcheck, guard, rest, hguard, hrest, rfl⟩

theorem buildSteps_names (h : buildSteps health base i seen defs = .ok built) :
    built.length = defs.length ∧ (built.map fun x => x.1.name).Nodup ∧
      ∀ x ∈ built, x.1.name ≠ [] ∧ x.1.name ∉ seen ∧
        x.2.map BreakerRef.name = x.1.breaker := by
  induction defs generalizing i seen built with
  | nil =>
    cases h
    exact ⟨rfl, nodup_nil, fun _ hx => nomatch hx⟩
  | cons s defs ih =>
    obtain ⟨hcheck, guard, rest, -, hrest, rfl⟩ := buildSteps_cons h
    obtain ⟨hlen, hnodup, hall⟩ := ih hrest
    obtain ⟨hname, hnew⟩ := check_eq_none hcheck
    refine ⟨congrArg Nat.succ hlen, ?_, ?_⟩
    · refine nodup_cons.mpr ⟨?_, hnodup⟩
      intro hmem
      obtain ⟨x, hx, heq⟩ := mem_map.mp hmem
      exact (hall x hx).2.1 (heq ▸ mem_cons_self)
    · intro x hx
      rcases mem_cons.mp hx with rfl | hx
      · exact ⟨hname, hnew, rfl⟩
      · obtain ⟨hx, hseen, hbreaker⟩ := hall x hx
        exact ⟨hx, fun hmem => hseen (mem_cons_of_mem _ hmem), hbreaker⟩

end Loop

section Building

/-- `New`, with the options `Saga` and `WithRedactor`. -/
def newPipeline (health : Bytes → Option Bytes) (base : Nat) (name version : Bytes)
    (defs : List StepDef) (saga : Bool) (redactor : Err → Bytes) : Except NewError Built :=
  if hname : name = [] then .error .noName
  else if hdefs : defs = [] then .error .noSteps
  else
    match h : buildSteps health base 0 [] defs with
    | .error err => .error err
    | .ok built =>
      .ok {
        pipe := {
          name := name
          version := version
          steps := built.map Prod.fst
          saga := saga
          redactor := redactor
          name_ne := hname
          steps_ne := by
            intro hnone
            refine hdefs (length_eq_zero_iff.mp ?_)
            rw [← (buildSteps_names h).1, map_eq_nil_iff.mp hnone]
            rfl
          step_name_ne := by
            intro st hst
            obtain ⟨x, hx, rfl⟩ := mem_map.mp hst
            exact ((buildSteps_names h).2.2 x hx).1
          nodup := by
            rw [map_map]
            exact (buildSteps_names h).2.1 }
        guards := built.map Prod.snd
        names := by
          rw [map_map, map_map]
          exact map_congr_left fun x hx => ((buildSteps_names h).2.2 x hx).2.2 }

/-- The loop of `Breakers`. -/
def distinct : List (Option BreakerRef) → List BreakerRef → List BreakerRef
  | [], out => out
  | none :: rest, out => distinct rest out
  | some b :: rest, out => distinct rest (if b ∈ out then out else out ++ [b])

/-- `Breakers`. -/
def Built.breakers (p : Built) : List BreakerRef :=
  distinct p.guards []

variable {b : BreakerRef} {p : Built} {st : Step}

theorem mem_distinct {guards : List (Option BreakerRef)} {out : List BreakerRef} :
    b ∈ distinct guards out ↔ b ∈ out ∨ some b ∈ guards := by
  induction guards generalizing out with
  | nil => simp [distinct]
  | cons g guards ih =>
    cases g with
    | none => simp [distinct, ih]
    | some c =>
      rw [distinct, ih, mem_cons, Option.some.injEq]
      by_cases hc : c ∈ out
      · rw [if_pos hc]
        refine ⟨fun h => h.imp_right .inr, ?_⟩
        rintro (h | rfl | h)
        · exact .inl h
        · exact .inl hc
        · exact .inr h
      · rw [if_neg hc, mem_append, mem_singleton, or_assoc]

theorem Built.mem_breakers : b ∈ p.breakers ↔ some b ∈ p.guards := by
  rw [Built.breakers, mem_distinct]
  simp

/-- The step and its breaker, at one place of the pipeline. -/
def Built.Guards (p : Built) (st : Step) (b : BreakerRef) : Prop :=
  ∃ i : Nat, p.pipe.steps[i]? = some st ∧ p.guards[i]? = some (some b)

theorem Built.Guards.breaker (h : p.Guards st b) :
    st ∈ p.pipe.steps ∧ b ∈ p.breakers ∧ st.breaker = some b.name := by
  obtain ⟨i, hst, hb⟩ := h
  refine ⟨mem_of_getElem? hst, Built.mem_breakers.mpr (mem_of_getElem? hb), ?_⟩
  have hnames := congrArg (·[i]?) p.names
  simp only [List.getElem?_map, hst, hb, Option.map_some, Option.some.injEq] at hnames
  exact hnames.symm

/-- The breaker `New` builds for a `HealthURL` is named like the dependency of its step. -/
theorem dependencyName_of_health {health : Bytes → Option Bytes} {s : StepDef} {addr : Nat}
    (hnone : s.breaker = none) (h : s.guard health addr = .ok (some b)) (hname : s.name ≠ []) :
    (s.step (some b)).dependencyName = b.name := by
  unfold StepDef.guard at h
  split at h
  · split at h
    · cases h
    · cases h
      unfold Step.dependencyName StepDef.step
      by_cases hdep : s.dependency = []
      · simp [hdep, hname]
      · simp [hdep]
  · rw [hnone] at h
    cases h

theorem Step.dependencyName_ne (hname : st.name ≠ []) : st.dependencyName ≠ [] := by
  unfold Step.dependencyName
  split
  · next h => exact h
  · split
    · next h => exact h
    · exact hname

end Building

end Pipe
end GoGuard
