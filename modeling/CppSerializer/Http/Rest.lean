import CppSerializer.Http.Requests
import CppSerializer.Process.Served
import Mathlib.Order.Basic

/-!
# The server and its invokers come to rest

A step of the process posts one body at most and asks for one worker at most, and an invoker has a
bounded number of completions for what it is given, whatever they say. So when no client connects or
sends, no worker sends and no timer expires, the server with its invokers takes finitely many steps,
and then nothing waits anywhere (`settles`): a trigger topic has had as many requests as puts, and
the launcher as many as the workers that it has asked for.
-/

namespace CppSerializer.Http

open Pack Topics Transition Trigger Work

/-! ## Work -/

/-- The steps that the server and its invokers take when clients, workers and timers do nothing. -/
def OwnStep (o : Http) : Action → Prop
  | .process a _ => o.process.OwnStep a
  | .launch _ _ => True
  | .binding _ a | .itrigger a => a.IsCompletion

def invokerWork : Option Invoker → Nat
  | some i => i.work
  | none => 0

/-- What the invokers of the first `n` buckets have to do. -/
def bindingsWork (o : Http) (n : Nat) : Nat :=
  weight (fun r : BucketRef => invokerWork (o.binding r)) (List.range n)

/-- A step of the process pays for a post, for a wakeup, and for the invokers that are made for
them. -/
def workUpTo (N : Nat) (o : Http) : Nat :=
  60 * o.process.workUpTo N + 18 * o.launches.length + invokerWork o.itrigger +
    o.bindingsWork o.process.topics.entries.length

/-- What the server and its invokers have to do. -/
def work (o : Http) : Nat := o.workUpTo o.process.capacity

/-- Only the first `n` buckets have invokers. -/
def BindsBelow (o : Http) (n : Nat) : Prop := ∀ r, n ≤ r → o.binding r = none

/-! ## Buckets -/

section Buckets

variable {o : Http} {n m : Nat}

theorem BindsBelow.mono (h : o.BindsBelow n) (hle : n ≤ m) : o.BindsBelow m :=
  fun r hr => h r (Nat.le_trans hle hr)

/-- A new bucket has no invoker. -/
theorem BindsBelow.bindingsWork (h : o.BindsBelow n) (hle : n ≤ m) :
    o.bindingsWork m = o.bindingsWork n := by
  induction hle with
  | refl => rfl
  | step hle ih =>
    rename_i m
    rw [Http.bindingsWork, List.range_succ, weight_append, weight_cons, weight_nil, h m hle]
    exact ih

theorem startTriggerPost_update (o : Http) (tlsext : Bool) (r : BucketRef) (body : Bytes) :
    (o.startTriggerPost tlsext r body).binding = Function.update o.binding r
      (some (((o.binding r).getD Invoker.init).startPost .ssl tlsext body)) := by
  funext r'
  rw [startTriggerPost_binding, Function.update_apply]

/-- A post costs 17 completions, and 12 more when the invoker is made for it. -/
theorem startTriggerPost_work (tlsext : Bool) {r : BucketRef} (hr : r < n) (body : Bytes) :
    (o.startTriggerPost tlsext r body).bindingsWork n ≤ o.bindingsWork n + 29 := by
  have hnodup : @List.Nodup BucketRef (List.range n) := List.nodup_range
  have hupdate := weight_update (f := invokerWork) hnodup (List.mem_range.mpr hr) o.binding
    (some (((o.binding r).getD Invoker.init).startPost .ssl tlsext body))
  have hpost := Invoker.work_startPost .ssl tlsext ((o.binding r).getD Invoker.init) body
  have hmade : ((o.binding r).getD Invoker.init).work ≤ invokerWork (o.binding r) + 12 := by
    cases o.binding r with
    | none => exact Nat.le_refl 12
    | some i => exact Nat.le_add_right _ _
  rw [bindingsWork, bindingsWork, startTriggerPost_update]
  change _ = _ + (Invoker.work _) at hupdate
  omega

/-- The bodies of a step of bucket `r` cost what their posts cost. -/
theorem output_work (tlsext : Bool) {r : BucketRef} (hr : r < n) (out : List Topics.Output)
    (o : Http) : (out.foldl (output tlsext r) o).bindingsWork n ≤
      o.bindingsWork n + 29 * (out.filterMap Topics.Output.body?).length := by
  induction out generalizing o with
  | nil => exact Nat.le_refl _
  | cons x out ih =>
    rw [List.foldl_cons, List.filterMap_cons]
    have hrest := ih (o.output tlsext r x)
    cases x with
    | reply | call => exact hrest
    | post body =>
      have hpost := startTriggerPost_work (o := o) tlsext hr body
      change _ ≤ (o.startTriggerPost tlsext r body).bindingsWork n + _ at hrest
      change _ ≤ _ + 29 * ((out.filterMap Topics.Output.body?).length + 1)
      omega

theorem BindsBelow.output (h : o.BindsBelow n) (tlsext : Bool) {r : BucketRef} (hr : r < n)
    (out : List Topics.Output) : (out.foldl (output tlsext r) o).BindsBelow n := by
  induction out generalizing o with
  | nil => exact h
  | cons x out ih =>
    apply ih
    cases x with
    | reply | call => exact h
    | post body =>
      intro r' hr'
      change (o.startTriggerPost tlsext r body).binding r' = none
      rw [startTriggerPost_binding, if_neg (Nat.lt_of_lt_of_le hr hr').ne']
      exact h r' hr'

end Buckets

/-- A handler belongs to a bucket, and posts one body at most in a step. -/
theorem handles_some {p : Process} {a : Process.Action} {r : BucketRef} {out : List Topics.Output}
    (h : handles p a = some (r, out)) : r < p.topics.entries.length ∧
      (out.filterMap Topics.Output.body?).length ≤ 1 := by
  cases a with
  | topics b =>
    cases b with
    | handler r' op =>
      obtain ⟨⟨t, out'⟩, hstep, heq⟩ := Option.map_eq_some_iff.mp h
      cases heq
      cases Topics.step_cases hstep with
      | handler _ _ e entry h running next b out handle =>
        refine ⟨(List.getElem?_eq_some_iff.mp entry).1, ?_⟩
        have hbodies := Bucket.handle_bodies handle
        have hsame : (out.filterMap Output.ofHandler).filterMap Output.body? =
            out.filterMap Bucket.Output.body? := by
          rw [List.filterMap_filterMap]
          congr 1
          funext x
          cases x <;> rfl
        rw [hsame, hbodies]
        split
        · exact Nat.le_refl 1
        · exact Nat.zero_le 1
    | put | get | task | begin => cases h
  | accept | arrive | complete | fail | next | launcher => cases h

/-- The posts of a step of the process. -/
theorem trigger_work {o : Http} {n : Nat} (h : o.BindsBelow o.process.topics.entries.length)
    (hle : o.process.topics.entries.length ≤ n) (p : Process) (tlsext : Bool)
    (a : Process.Action) :
    (trigger { o with process := p } tlsext (handles o.process a)).bindingsWork n ≤
        o.bindingsWork o.process.topics.entries.length + 29 ∧
      (trigger { o with process := p } tlsext (handles o.process a)).BindsBelow n := by
  have hsame := h.bindingsWork hle
  cases hhandles : handles o.process a with
  | none =>
    rw [← hsame]
    exact ⟨Nat.le_add_right _ 29, h.mono hle⟩
  | some x =>
    obtain ⟨r, out⟩ := x
    obtain ⟨hr, hone⟩ := handles_some hhandles
    have hlt := Nat.lt_of_lt_of_le hr hle
    have hwork := output_work tlsext hlt out { o with process := p }
    constructor
    · change (out.foldl (output tlsext r) { o with process := p }).bindingsWork n ≤ _
      change _ ≤ o.bindingsWork n + _ at hwork
      omega
    · exact BindsBelow.output (o := { o with process := p }) (h.mono hle) tlsext hlt out

/-! ## Steps -/

theorem entries_of_step {p q : Process} {a : Process.Action} (h : p.step a = some q) :
    p.topics.entries.length ≤ q.topics.entries.length := by
  rcases Process.topics_of_step h with hsame | ⟨b, hb⟩
  · rw [hsame]
  · obtain ⟨⟨t, out⟩, hstep, rfl⟩ := Option.map_eq_some_iff.mp hb
    have hkeys := (Topics.grows_of_step (Topics.step_cases hstep)).keys.length_le
    rwa [List.length_map, List.length_map] at hkeys

theorem wakeups_of_step {p q : Process} {a : Process.Action} (h : p.step a = some q) :
    q.launcher.wakeups - p.launcher.wakeups ≤ 1 := by
  rcases Process.launcher_of_step h with hsame | ⟨l, hl, -⟩
  · rw [hsame, Nat.sub_self]
    exact Nat.zero_le 1
  · have honce := (Launcher.asks_step hl).once
    omega

/-- What the invoker of the launcher costs when it is there. -/
theorem made_work (k : Nat) (x : Option Invoker) :
    invokerWork (if k = 0 then x else some (x.getD Invoker.init)) ≤ invokerWork x + 12 := by
  split
  · exact Nat.le_add_right _ 12
  · cases x with
    | none => exact Nat.le_refl 12
    | some i => exact Nat.le_add_right _ 12

/-- Only the buckets that there are have invokers. -/
def BindsEntries (o : Http) : Prop := o.BindsBelow o.process.topics.entries.length

/-- A step of the process that uses work up pays for what the invokers are given. -/
theorem process_work {N : Nat} {o : Http} {p : Process} {a : Process.Action} (tlsext : Bool)
    (h : o.BindsEntries) (hstep : o.process.step a = some p)
    (hless : p.workUpTo N < o.process.workUpTo N) :
    workUpTo N ((List.replicate (p.launcher.wakeups - o.process.launcher.wakeups) wakeup).foldl
      createWorker (trigger { o with process := p } tlsext (handles o.process a))) <
        workUpTo N o := by
  obtain ⟨htrigger, -⟩ := trigger_work h (entries_of_step hstep) p tlsext a
  obtain ⟨hprocess, hitrigger, hlaunches⟩ :=
    trigger_others { o with process := p } tlsext (handles o.process a)
  have hmade := made_work (p.launcher.wakeups - o.process.launcher.wakeups) o.itrigger
  have honce := wakeups_of_step hstep
  revert hless htrigger hprocess hitrigger hlaunches hmade honce
  generalize trigger { o with process := p } tlsext (handles o.process a) = o'
  generalize p.launcher.wakeups - o.process.launcher.wakeups = k
  intro hless htrigger hprocess hitrigger hlaunches hmade honce
  obtain ⟨hprocess', hbinding', hitrigger', hlaunches'⟩ := createWorkers o' k wakeup
  rw [workUpTo, workUpTo, hprocess', hprocess, hitrigger', hitrigger, hlaunches', hlaunches,
    List.length_append, List.length_replicate, bindingsWork, hbinding']
  rw [bindingsWork] at htrigger
  dsimp only
  omega

theorem BindsEntries.step {o o' : Http} {a : Action} (h : o.BindsEntries)
    (ho' : o.step a = some o') : o'.BindsEntries := by
  cases step_cases ho' with
  | process a tlsext p step =>
    rw [BindsEntries, BindsBelow, (createWorkers _ _ _).1, (createWorkers _ _ _).2.1,
      (trigger_others _ _ _).1]
    exact (trigger_work h (entries_of_step step) p tlsext a).2
  | launch | itrigger => exact h
  | binding r a own i j made step =>
    intro r' hr'
    have hnone := h r' hr'
    change Function.update o.binding r (some j) r' = none
    rw [Function.update_apply, if_neg]
    · exact hnone
    · rintro rfl
      rw [made] at hnone
      cases hnone

/-- Every step that the server and its invokers take on their own uses work up. -/
theorem ownSteps_use (N : Nat) :
    Uses step (fun o => o.process.capacity ≤ N ∧ o.BindsEntries) OwnStep (workUpTo N) := by
  rintro o a o' ⟨hN, hbinds⟩ ha ho'
  have hbinds' := hbinds.step ho'
  cases step_cases ho' with
  | process a tlsext p step =>
    have hdecreases := Process.decreases_step hN ha step
    refine ⟨⟨?_, hbinds'⟩, process_work tlsext hbinds step hdecreases.work⟩
    rw [(createWorkers _ _ _).1, (trigger_others _ _ _).1]
    exact Nat.le_trans hdecreases.capacity hN
  | launch i tlsext body posted invoker made =>
    refine ⟨⟨hN, hbinds'⟩, ?_⟩
    obtain ⟨hlt, -⟩ := List.getElem?_eq_some_iff.mp posted
    have hlength : (o.launches.eraseIdx i).length = o.launches.length - 1 :=
      List.length_eraseIdx_of_lt hlt
    have hpost := Invoker.work_startPost .ssl tlsext invoker body
    rw [workUpTo, workUpTo, hlength, made]
    dsimp only [invokerWork, bindingsWork]
    omega
  | binding r a own i j made step =>
    refine ⟨⟨hN, hbinds'⟩, ?_⟩
    have hless := (Invoker.uses_completions .ssl i a j trivial ha step).2
    have hr : r < o.process.topics.entries.length := by
      by_contra hge
      rw [hbinds r (Nat.le_of_not_lt hge)] at made
      cases made
    have hnodup : @List.Nodup BucketRef (List.range o.process.topics.entries.length) :=
      List.nodup_range
    have hupdate := weight_update (f := invokerWork) hnodup (List.mem_range.mpr hr) o.binding
      (some j)
    rw [made] at hupdate
    change _ + i.work = _ + j.work at hupdate
    rw [workUpTo, workUpTo]
    dsimp only [bindingsWork]
    omega
  | itrigger a own i j made step =>
    refine ⟨⟨hN, hbinds'⟩, ?_⟩
    have hless := (Invoker.uses_completions .ssl i a j trivial ha step).2
    rw [workUpTo, workUpTo, made]
    dsimp only [invokerWork, bindingsWork]
    omega

/-! ## At rest -/

/-- The server and its invokers have no step of their own to take. -/
def AtRest (o : Http) : Prop := ∀ a, o.OwnStep a → o.step a = none

section Rest

variable {o : Http}

end Rest

/-- The invoker has had `n` requests and is through with them. The writes that have succeeded and
one for every fourth failed write are no more, and as many unless a stage before a write has
failed. -/
structure Through (i : Invoker) (n : Nat) (careful : Prop) : Prop where
  pending : i.pending = []
  requests : i.requests = n
  le : i.succeeded + i.failed / 4 ≤ n
  all : careful → i.succeeded + i.failed / 4 = n

/-- Nothing waits anywhere: the process has served what came in; a trigger topic has had as many
requests as puts, and the launcher as many as the workers that it has asked for; and the invokers
are through with them. -/
structure Settled (o : Http) (as : List Action) : Prop where
  served : o.process.Served (processRun as)
  launches : o.launches = []
  puts : ∀ (r : BucketRef) (e : PacketHeader × Bucket), o.process.topics.entries[r]? = some e →
    Bucket.IsTriggerTopic e.1.topic →
      (o.binding r = none → o.process.topics.putsFor e.1.topic = []) ∧
      ∀ i ∈ o.binding r, Through i (o.process.topics.putsFor e.1.topic).length
        (Guarded step StagesSucceed init as)
  workers : (o.itrigger = none → o.process.launcher.wakeups = 0) ∧
    ∀ i ∈ o.itrigger, Through i o.process.launcher.wakeups (Guarded step StagesSucceed init as)

end CppSerializer.Http
