import CppSerializer.Process.Steps
import CppSerializer.Topics.History
import CppSerializer.Trigger.Invoker
import Mathlib.Logic.Function.Basic

/-!
# The process and its HTTP invokers

In `Process` the bodies that trigger buckets post and the requests for new workers leave the model.
Here they go on. A bucket has an invoker, `binding_`, which `to_trigger` makes before its first
body is posted. The launcher has another, `itrigger_`; `create_worker` makes it, and the handler
that calls its `start_post` is posted through `job_launch_strand_`.

The operations of each invoker complete on their own, at any time. Nobody calls `register_on_read`
in the server. What `create_worker` does before its handler is posted is one step with the push of
the job in `start_jobs`.
-/

namespace CppSerializer

open Pack Bucket Topics Transition Trigger

/-- The process with its invokers. `launches` are the bodies captured by the handlers posted through
`job_launch_strand_` that have not run. -/
structure Http where
  process : Process
  binding : BucketRef → Option Invoker
  itrigger : Option Invoker
  launches : List Bytes

namespace Http

def init : Http := ⟨Process.init, fun _ => none, none, []⟩

/-- The steps: one of the process; handler `i` of `job_launch_strand_` runs; an operation of the
invoker of a bucket, or of the launcher, completes, or its socket is closed. In the first two
`tlsext` is what `SSL_set_tlsext_host_name` returns. -/
inductive Action
  | process (a : Process.Action) (tlsext : Bool)
  | launch (i : Nat) (tlsext : Bool)
  | binding (r : BucketRef) (a : Trigger.Action)
  | itrigger (a : Trigger.Action)
  deriving DecidableEq

/-- What an invoker does without being called. -/
def ownAction : Trigger.Action → Bool
  | .complete _ _ _ | .close => true
  | .registerOnRead _ | .startPost _ _ => false

/-- The body with which `start_jobs` calls `create_worker`. -/
def wakeup : Bytes := "\x7b \"type\": \"wakeup\" \x7d".toList.map Char.toUInt8

/-! ## The functions -/

/-- `to_trigger` of bucket `r`. -/
def toTrigger (o : Http) (r : BucketRef) : Http :=
  match o.binding r with
  | some _ => o
  | none => { o with binding := Function.update o.binding r (some Invoker.init) }

/-- `start_trigger_post` of bucket `r`. -/
def startTriggerPost (tlsext : Bool) (r : BucketRef) (o : Http) (body : Bytes) : Http :=
  let o := o.toTrigger r
  { o with
    binding := Function.update o.binding r
      ((o.binding r).map fun i => i.startPost .ssl tlsext body) }

/-- `create_worker`. -/
def createWorker (o : Http) (body : Bytes) : Http :=
  { o with itrigger := some (o.itrigger.getD Invoker.init), launches := o.launches ++ [body] }

/-! ## The step function -/

/-- What a step of the handler of a bucket makes others do, with the bucket. -/
def handles (p : Process) : Process.Action → Option (BucketRef × List Topics.Output)
  | .topics (.handler r op) => (p.topics.step (.handler r op)).map fun x => (r, x.2)
  | .topics (.put ..) | .topics (.get ..) | .topics (.task ..) | .topics (.begin ..) => none
  | .accept | .arrive .. | .complete .. | .fail .. | .next .. | .launcher .. => none

def output (tlsext : Bool) (r : BucketRef) (o : Http) : Topics.Output → Http
  | .post body => o.startTriggerPost tlsext r body
  | .reply _ _ _ | .call _ _ => o

/-- The bodies of the step are posted. -/
def trigger (o : Http) (tlsext : Bool) : Option (BucketRef × List Topics.Output) → Http
  | some (r, out) => out.foldl (output tlsext r) o
  | none => o

def stepProcess (o : Http) (a : Process.Action) (tlsext : Bool) : Option Http := do
  let p ← o.process.step a
  let asked := p.launcher.wakeups - o.process.launcher.wakeups
  return (List.replicate asked wakeup).foldl createWorker
    (trigger { o with process := p } tlsext (handles o.process a))

/-- A handler of `job_launch_strand_` runs. -/
def launch (o : Http) (i : Nat) (tlsext : Bool) : Option Http := do
  let body ← o.launches[i]?
  let invoker ← o.itrigger
  return { o with
    itrigger := some (invoker.startPost .ssl tlsext body), launches := o.launches.eraseIdx i }

/-- An invoker performs a step of its own. -/
def stepInvoker (i : Invoker) (a : Trigger.Action) : Option Invoker :=
  if ownAction a then i.step .ssl a else none

/-- One atomic step. Nothing happens after a null pointer was followed. -/
def step (o : Http) (a : Action) : Option Http :=
  if o.process.launcher.crashed then none else
  match a with
  | .process a tlsext => o.stepProcess a tlsext
  | .launch i tlsext => o.launch i tlsext
  | .binding r a => do
    let invoker ← o.binding r
    let invoker ← stepInvoker invoker a
    return { o with binding := Function.update o.binding r (some invoker) }
  | .itrigger a => do
    let invoker ← o.itrigger
    let invoker ← stepInvoker invoker a
    return { o with itrigger := some invoker }

/-! ## What a step can be -/

/-- Everything that a step can be. -/
inductive Step (o : Http) : Action → Http → Prop
  | process (a : Process.Action) (tlsext : Bool) (p : Process) (step : o.process.step a = some p) :
      Step o (.process a tlsext)
        ((List.replicate (p.launcher.wakeups - o.process.launcher.wakeups) wakeup).foldl
          createWorker (trigger { o with process := p } tlsext (handles o.process a)))
  | launch (i : Nat) (tlsext : Bool) (body : Bytes) (posted : o.launches[i]? = some body)
      (invoker : Invoker) (made : o.itrigger = some invoker) :
      Step o (.launch i tlsext) { o with
        itrigger := some (invoker.startPost .ssl tlsext body), launches := o.launches.eraseIdx i }
  | binding (r : BucketRef) (a : Trigger.Action) (own : ownAction a = true) (i j : Invoker)
      (made : o.binding r = some i) (step : i.step .ssl a = some j) :
      Step o (.binding r a) { o with binding := Function.update o.binding r (some j) }
  | itrigger (a : Trigger.Action) (own : ownAction a = true) (i j : Invoker)
      (made : o.itrigger = some i) (step : i.step .ssl a = some j) :
      Step o (.itrigger a) { o with itrigger := some j }

theorem stepInvoker_some {a : Trigger.Action} {i j : Invoker} (h : stepInvoker i a = some j) :
    ownAction a = true ∧ i.step .ssl a = some j := by
  unfold stepInvoker at h
  split at h
  · rename_i hown
    exact ⟨hown, h⟩
  · cases h

theorem step_cases {o o' : Http} {a : Action} (h : o.step a = some o') : Step o a o' := by
  unfold step at h
  split at h
  · cases h
  cases a with
  | process a tlsext =>
    simp only [stepProcess, Option.bind_eq_bind, Option.bind_eq_some_iff] at h
    obtain ⟨p, hp, h⟩ := h
    cases h
    exact .process a tlsext p hp
  | launch i tlsext =>
    simp only [launch, Option.bind_eq_bind, Option.bind_eq_some_iff] at h
    obtain ⟨body, hbody, invoker, hmade, h⟩ := h
    cases h
    exact .launch i tlsext body hbody invoker hmade
  | binding r a =>
    simp only [Option.bind_eq_bind, Option.bind_eq_some_iff] at h
    obtain ⟨i, hi, j, hj, h⟩ := h
    cases h
    obtain ⟨hown, hstep⟩ := stepInvoker_some hj
    exact .binding r a hown i j hi hstep
  | itrigger a =>
    simp only [Option.bind_eq_bind, Option.bind_eq_some_iff] at h
    obtain ⟨i, hi, j, hj, h⟩ := h
    cases h
    obtain ⟨hown, hstep⟩ := stepInvoker_some hj
    exact .itrigger a hown i j hi hstep

/-! ## What the functions do -/

section Functions

variable (o : Http)

theorem toTrigger_binding (r r' : BucketRef) : (o.toTrigger r).binding r' =
    if r' = r then some ((o.binding r).getD Invoker.init) else o.binding r' := by
  unfold toTrigger
  split
  · rename_i i hi
    rw [hi, Option.getD_some]
    split
    · rename_i heq
      rw [heq, hi]
    · rfl
  · rename_i hnone
    rw [hnone]
    exact Function.update_apply ..

theorem startTriggerPost_binding (tlsext : Bool) (r : BucketRef) (body : Bytes) (r' : BucketRef) :
    (o.startTriggerPost tlsext r body).binding r' =
      if r' = r then some (((o.binding r).getD Invoker.init).startPost .ssl tlsext body)
      else o.binding r' := by
  change Function.update _ _ _ _ = _
  rw [Function.update_apply]
  simp only [toTrigger_binding, if_true, Option.map_some]
  by_cases hr : r' = r
  · rw [if_pos hr, if_pos hr]
  · simp only [if_neg hr]

theorem toTrigger_others (r : BucketRef) : (o.toTrigger r).process = o.process ∧
    (o.toTrigger r).itrigger = o.itrigger ∧ (o.toTrigger r).launches = o.launches := by
  unfold toTrigger
  split <;> exact ⟨rfl, rfl, rfl⟩

/-- The bodies go to the invoker of their bucket, and nowhere else. -/
theorem output_others (tlsext : Bool) (r : BucketRef) (out : List Topics.Output) :
    (out.foldl (output tlsext r) o).process = o.process ∧
      (out.foldl (output tlsext r) o).itrigger = o.itrigger ∧
      (out.foldl (output tlsext r) o).launches = o.launches := by
  induction out generalizing o with
  | nil => exact ⟨rfl, rfl, rfl⟩
  | cons x out ih =>
    obtain ⟨hprocess, hitrigger, hlaunches⟩ := ih (o.output tlsext r x)
    rw [List.foldl_cons, hprocess, hitrigger, hlaunches]
    cases x with
    | post body => exact toTrigger_others o r
    | reply | call => exact ⟨rfl, rfl, rfl⟩

theorem trigger_others (tlsext : Bool) (x : Option (BucketRef × List Topics.Output)) :
    (o.trigger tlsext x).process = o.process ∧ (o.trigger tlsext x).itrigger = o.itrigger ∧
      (o.trigger tlsext x).launches = o.launches := by
  cases x with
  | none => exact ⟨rfl, rfl, rfl⟩
  | some x => exact output_others o tlsext x.1 x.2

theorem createWorkers (n : Nat) (body : Bytes) :
    ((List.replicate n body).foldl createWorker o).process = o.process ∧
      ((List.replicate n body).foldl createWorker o).binding = o.binding ∧
      ((List.replicate n body).foldl createWorker o).itrigger =
        (if n = 0 then o.itrigger else some (o.itrigger.getD Invoker.init)) ∧
      ((List.replicate n body).foldl createWorker o).launches =
        o.launches ++ List.replicate n body := by
  induction n generalizing o with
  | zero => exact ⟨rfl, rfl, rfl, (List.append_nil _).symm⟩
  | succ n ih =>
    obtain ⟨hprocess, hbinding, hitrigger, hlaunches⟩ := ih (o.createWorker body)
    rw [List.replicate_succ, List.foldl_cons, hprocess, hbinding, hitrigger, hlaunches]
    refine ⟨rfl, rfl, ?_, List.append_assoc ..⟩
    rw [if_neg (Nat.succ_ne_zero n)]
    split <;> rfl

end Functions

end Http

end CppSerializer
