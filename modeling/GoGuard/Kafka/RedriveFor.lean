import GoGuard.Dlq.Redriver
import GoGuard.Dlq.SelectLease
import GoGuard.Pipeline.Build
import GoGuard.Pipeline.Epochs

/-!
# The redriver of a consumer's bindings

`RedriveFor` gives a redriver the handlers of the bindings' pipelines and the breakers that
guard their steps, by name.  A record that could not get past a step is tagged with the
dependency of the step: by `Execute` when it stores the record, by the redriver when the
`Handler` of the pipeline gives the record back.  The redriver skips the names whose breaker
refuses.  So a record is held back while the breaker of its step refuses if the step's
dependency is the name of its breaker; a step may name another one.
-/

namespace GoGuard
namespace Kafka

open Lib Dlq Dlq.Machine Pipe List

section Setup

/-- What `RedriveFor` reads of a `Binding`. -/
structure Binding where
  topic : Bytes
  pipeline : Option Built

inductive RedriveError where
  /-- "kafka: every Binding needs a Topic and a Pipeline" -/
  | incomplete
  /-- "kafka: topic %q is bound twice" -/
  | boundTwice (topic : Bytes)
  /-- "kafka: two different breakers are named %q" -/
  | sameName (name : Bytes)
deriving DecidableEq

/-- `Redrive`: the pipelines its handler chooses from, and `Breakers`. -/
structure RedriveSetup where
  pipes : GoMap Bytes Built
  breakers : GoMap Bytes BreakerRef

/-- The loop over the breakers of a pipeline. -/
def addBreakers :
    List BreakerRef → GoMap Bytes BreakerRef → Except RedriveError (GoMap Bytes BreakerRef)
  | [], m => .ok m
  | b :: rest, m =>
    if (m.get b.name).any (· ≠ b) then .error (.sameName b.name)
    else addBreakers rest (m.set b.name b)

/-- The loop over the bindings. -/
def addBindings :
    List Binding → GoMap Bytes Built → GoMap Bytes BreakerRef → Except RedriveError RedriveSetup
  | [], pipes, breakers => .ok ⟨pipes, breakers⟩
  | b :: rest, pipes, breakers =>
    match b.pipeline with
    | none => .error .incomplete
    | some p =>
      if b.topic = [] then .error .incomplete
      else if (pipes.get b.topic).isSome then .error (.boundTwice b.topic)
      else
        match addBreakers p.breakers breakers with
        | .error err => .error err
        | .ok breakers => addBindings rest (pipes.set b.topic p) breakers

/-- `RedriveFor`. -/
def redriveFor (bindings : List Binding) : Except RedriveError RedriveSetup :=
  addBindings bindings .empty .empty

/-- The pipeline whose handler gets a record; none is `ErrUnknownSource`. -/
def RedriveSetup.handler (rd : RedriveSetup) (src : Source) : Option Built :=
  if src.kind = str "kafka" then rd.pipes.get src.name else none

/-- The names in `Breakers` whose breaker refuses, as `unavailable` finds them. -/
def RedriveSetup.refusing (rd : RedriveSetup) (refuses : BreakerRef → Bool) : List Bytes :=
  rd.breakers.keys.filter fun name => (rd.breakers.get name).any refuses

end Setup

section Errors

/-- The `Name` of the first `*breaker.OpenError` of a chain. -/
def asOpen : Err → Option Bytes
  | .circuitOpen name => some name
  | .wrap _ err => asOpen err
  | .permanent err => asOpen err
  | .blocked _ err _ => asOpen err
  | _ => none

/-- The `Refund` of the first `*dlq.BlockedError` of a chain. -/
def refundOf : Err → Bool
  | .blocked _ _ refund => refund
  | .wrap _ err => refundOf err
  | .permanent err => refundOf err
  | _ => false

/-- The case of the redriver's `settle` that an error of a handler is. -/
def outcomeOf : Option Err → Outcome
  | none => .ok
  | some err =>
    match err.asBlocked, asOpen err with
    | some dependency, _ => .blocked dependency (refundOf err)
    | none, some name => .opened name
    | none, none => if err.isPermanent then .permanent else .failed

/-- The error of a run says that the step was blocked: its call has failed in a way that may
pass, and the caller was waiting for it, or its breaker has refused it. -/
def BlockedAt (st : Step) (b : BreakerRef) (err : Err) : Prop :=
  ∃ ctx e, err = Run.classify ctx st e ∧ e.isPermanent = false ∧
    (ctx = some .canceled → e.asBlocked = none ∧ asOpen e = some b.name)

/-- The names a record is tagged with because a step of the pipeline was blocked: `Execute`
has stored it, or the redriver puts it back behind the `Handler`. -/
inductive Tagged (p : Pipeline) (st : Step) (b : BreakerRef) : Bytes → Prop
  | stored
      (tape : Nat → Answer) (inp : Input) {err : Err} {record : Stored}
      (hrun : ((liveRun p).advance tape p).2 = some err)
      (hat : BlockedAt st b err)
      (hrecord : (executed tape p inp).1.record = some record) :
      Tagged p st b record.blockedOn
  | nacked
      {tape : Nat → Answer} {m : Pipe.Message} {cp : Checkpoint} {err : Err}
      {cfg : RedriveConfig} {ended : Bool} {l : Lease} {text id token : Bytes}
      {opts : NackOptions} {hold : Option Bytes}
      (hrun : ((resumedRun m cp).advance tape p).2 = some err)
      (hat : BlockedAt st b err)
      (hsettle : Dlq.settle cfg ended l (outcomeOf (some err)) text =
        ⟨.nack id token opts, hold⟩) :
      Tagged p st b opts.blockedOn

end Errors

section Tags

variable {p : Pipeline} {st : Step} {b : BreakerRef} {err : Err} {tag : Bytes}

/-- An error that says the step was blocked is a `BlockedError` about its dependency, or
that of the breaker. -/
theorem BlockedAt.cases (h : BlockedAt st b err) :
    err.asBlocked = some st.dependencyName ∨
      (err.asBlocked = none ∧ asOpen err = some b.name ∧ err.isPermanent = false) := by
  obtain ⟨ctx, e, rfl, hperm, hcanceled⟩ := h
  unfold Run.classify
  rw [hperm]
  by_cases hctx : ctx = some .canceled
  · right
    obtain ⟨hnone, hopen⟩ := hcanceled hctx
    simp only [Bool.false_eq_true, if_false, if_pos hctx]
    exact ⟨hnone, hopen, hperm⟩
  · left
    simp only [Bool.false_eq_true, if_false, if_neg hctx]
    split <;> rfl

theorem store_record
    {tape : Nat → Answer} {r : Run} {inp : Input} {state : State} {dep text : Bytes}
    {ok : Result} {record : Stored} (hnone : r.record = none)
    (h : (Pipe.store tape r inp state dep text ok).1.record = some record) :
    record.blockedOn = dep := by
  unfold Pipe.store at h
  split at h
  · cases h
    rfl
  · next durable _ =>
    cases durable with
    | true =>
      cases h
      rfl
    | false => exact nomatch hnone.symm.trans h

/-- A record is tagged with the dependency of the step, or with the name of its breaker. -/
theorem Tagged.eq (h : Tagged p st b tag) (hdep : st.dependencyName ≠ []) (hname : b.name ≠ []) :
    tag = st.dependencyName ∨ tag = b.name := by
  cases h with
  | @stored tape inp err record hrun hat hrecord =>
    left
    have hnone : ((liveRun p).advance tape p).1.withState.record = none :=
      (tracked_advance tape p (liveRun p) rfl).record_none rfl
    unfold executed Pipe.settle at hrecord
    rw [hrun] at hrecord
    simp only at hrecord
    rcases hat.cases with hblocked | ⟨hblocked, -, hperm⟩
    · rw [hblocked] at hrecord
      exact store_record hnone hrecord
    · rw [hblocked, hperm] at hrecord
      exact nomatch hnone.symm.trans hrecord
  | @nacked tape m cp err cfg ended l text id token opts hold hrun hat hsettle =>
    have hblock : ∀ {dep : Bytes} {refund : Bool},
        block cfg l dep refund text = ⟨.nack id token opts, hold⟩ → opts.blockedOn = dep := by
      intro dep refund hb
      unfold block at hb
      split at hb
      · cases hb
      · cases hb
        rfl
    rcases hat.cases with hblocked | ⟨hblocked, hopen, -⟩
    · left
      simp only [outcomeOf, hblocked, Dlq.settle, if_neg hdep] at hsettle
      exact hblock hsettle
    · right
      simp only [outcomeOf, hblocked, hopen, Dlq.settle, if_neg hname] at hsettle
      exact hblock hsettle

end Tags

section Breakers

variable {m m' : GoMap Bytes BreakerRef} {bs : List BreakerRef} {b : BreakerRef}

/-- The breakers that were added, and those that were there, are found by their names. -/
theorem addBreakers_get (h : addBreakers bs m = .ok m')
    (hold : ∀ name x, m.get name = some x → x.name = name) :
    (∀ name x, m'.get name = some x → x.name = name) ∧
      (∀ x, m.get x.name = some x → m'.get x.name = some x) ∧
        ∀ x ∈ bs, m'.get x.name = some x := by
  induction bs generalizing m with
  | nil =>
    cases h
    exact ⟨hold, fun _ hx => hx, fun _ hx => nomatch hx⟩
  | cons b bs ih =>
    rw [addBreakers] at h
    obtain ⟨hsame, h⟩ := of_unless h
    have hset : ∀ name x, (m.set b.name b).get name = some x → x.name = name := by
      intro name x hx
      rw [GoMap.get_set] at hx
      split at hx
      · next heq =>
        cases hx
        exact heq.symm
      · exact hold name x hx
    obtain ⟨hnames, hkept, hall⟩ := ih h hset
    refine ⟨hnames, ?_, ?_⟩
    · intro x hx
      refine hkept x ?_
      rw [GoMap.get_set]
      split
      · next heq =>
        -- a breaker of this name is this one
        rw [heq] at hx
        simp only [hx, Option.any_some, ne_eq, decide_not, Bool.not_eq_true',
          decide_eq_false_iff_not, not_not] at hsame
        rw [hsame]
      · exact hx
    · intro x hx
      rcases mem_cons.mp hx with rfl | hx
      · exact hkept x (by rw [GoMap.get_set, if_pos rfl])
      · exact hall x hx

variable {bind : Binding} {bindings : List Binding} {pipes : GoMap Bytes Built} {rd : RedriveSetup}

theorem addBindings_cons (h : addBindings (bind :: bindings) pipes m = .ok rd) :
    ∃ p m', bind.pipeline = some p ∧ pipes.get bind.topic = none ∧
      addBreakers p.breakers m = .ok m' ∧
        addBindings bindings (pipes.set bind.topic p) m' = .ok rd := by
  rw [addBindings] at h
  split at h
  · cases h
  · next p hp =>
    obtain ⟨-, h⟩ := of_unless h
    obtain ⟨hnew, h⟩ := of_unless h
    split at h
    · cases h
    · next m' hadd => exact ⟨p, m', hp, by simpa using hnew, hadd, h⟩

theorem addBindings_get (h : addBindings bindings pipes m = .ok rd)
    (hold : ∀ name x, m.get name = some x → x.name = name) :
    (∀ x, m.get x.name = some x → rd.breakers.get x.name = some x) ∧
      ∀ bind ∈ bindings, ∀ p, bind.pipeline = some p → ∀ x ∈ p.breakers,
        rd.breakers.get x.name = some x := by
  induction bindings generalizing pipes m with
  | nil =>
    cases h
    exact ⟨fun _ hx => hx, fun _ hb => nomatch hb⟩
  | cons bind bindings ih =>
    obtain ⟨p, m', hp, -, hadd, hrest⟩ := addBindings_cons h
    obtain ⟨hnames, hkept, hall⟩ := addBreakers_get hadd hold
    obtain ⟨hkept', hall'⟩ := ih hrest hnames
    refine ⟨fun x hx => hkept' x (hkept x hx), ?_⟩
    intro bind' hb' p' hp' x hx
    rcases mem_cons.mp hb' with rfl | hb'
    · cases hp.symm.trans hp'
      exact hkept' x (hall x hx)
    · exact hall' bind' hb' p' hp' x hx

/-- Every breaker of the bindings' pipelines is found by its name. -/
theorem redriveFor_get {p : Built} (h : redriveFor bindings = .ok rd) (hbind : bind ∈ bindings)
    (hp : bind.pipeline = some p) (hb : b ∈ p.breakers) : rd.breakers.get b.name = some b :=
  (addBindings_get h fun _ _ hx => nomatch hx).2 bind hbind p hp b hb

end Breakers

section Results

/-- The breaker of the payment service. -/
def paymentsBreaker : BreakerRef :=
  ⟨7, str "payments-api"⟩

/-- One step behind that breaker, for some `Dependency`. -/
def chargeStep (dependency : Bytes) : StepDef :=
  ⟨str "charge", dependency, some paymentsBreaker, [], 0, none, 0, true, none, [], false⟩

/-- What `New` makes of it. -/
def chargePipeline (dependency : Bytes) : Built where
  pipe := {
    name := str "orders"
    version := str "1"
    steps := [(chargeStep dependency).step (some paymentsBreaker)]
    saga := false
    redactor := fun _ => []
    name_ne := by decide
    steps_ne := cons_ne_nil _ _
    step_name_ne := by
      intro st hst
      rw [mem_singleton.mp hst]
      change str "charge" ≠ []
      decide
    nodup := nodup_singleton _ }
  guards := [some paymentsBreaker]
  names := rfl

example (dependency : Bytes) :
    newPipeline (fun _ => none) 0 (str "orders") (str "1") [chargeStep dependency] false
      (fun _ => []) = .ok (chargePipeline dependency) := by
  rfl

/-- The breaker refuses every call. -/
def refusedTape (_ : Nat) : Answer :=
  ⟨some (.circuitOpen (str "payments-api")), .returned none, .empty, none, false, false, .ok, 0⟩

def orderInput : Input :=
  ⟨str "orders/0/1", ⟨str "kafka", str "orders", 0, 1⟩, none, some (str "v"), [], []⟩

theorem blockedAt_charge (dependency : Bytes) :
    BlockedAt ((chargeStep dependency).step (some paymentsBreaker)) paymentsBreaker
      (Run.classify none ((chargeStep dependency).step (some paymentsBreaker))
        (.circuitOpen (str "payments-api"))) :=
  ⟨none, .circuitOpen (str "payments-api"), rfl, rfl, fun hctx => nomatch hctx⟩

/-- A store with one record that waits for a dependency. -/
def storedOrder (dependency : Bytes) : Machine :=
  (newMachine ⟨0, 0, 0⟩).insert
    { demoRecord "orders/0/1" 1 "" "" 5 with blockedOn := dependency }

end Results

end Kafka
end GoGuard
