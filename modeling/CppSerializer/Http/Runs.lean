import CppSerializer.Http.Model
import CppSerializer.Process.Asks
import CppSerializer.Trigger.Bodies

/-!
# The invokers of the process

Each invoker goes through a run of its own, in which it is given the bodies that its bucket posts
(`run_binding`), or a wakeup for every job that found no worker (`run_itrigger`). So what holds of
all runs of an invoker holds of every invoker of the server.
-/

namespace CppSerializer.Http

open Pack Topics Transition Trigger

/-! ## Bodies -/

/-- The bodies that bucket `r` posts in the step. -/
def posts (r : BucketRef) (o : Http) : Action → List Bytes
  | .process (.topics a) _ => Topics.bodiesOf r o.process.topics a
  | .process _ _ | .launch _ _ | .binding _ _ | .itrigger _ => []

/-- The bodies that bucket `r` has posted. -/
def posted (r : BucketRef) (as : List Action) : List Bytes := trace step (posts r) init as

theorem posted_concat {as : List Action} {o : Http} (h : run step init as = some o)
    (r : BucketRef) (a : Action) : posted r (as ++ [a]) = posted r as ++ posts r o a :=
  trace_concat h a

/-- No resolve, connect or handshake of the invokers fails. -/
def StagesSucceed (o : Http) : Action → Prop
  | .process _ tlsext | .launch _ tlsext => tlsext = true
  | .binding r a => ∀ i ∈ o.binding r, i.StagesSucceed a
  | .itrigger a => ∀ i ∈ o.itrigger, i.StagesSucceed a

instance (o : Http) : (a : Action) → Decidable (o.StagesSucceed a)
  | .process _ tlsext | .launch _ tlsext => inferInstanceAs (Decidable (tlsext = true))
  | .binding r a => inferInstanceAs (Decidable (∀ i ∈ o.binding r, i.StagesSucceed a))
  | .itrigger a => inferInstanceAs (Decidable (∀ i ∈ o.itrigger, i.StagesSucceed a))

/-! ## The run of an invoker -/

/-- The invoker comes out of a run in which it was given the bodies, and none of whose stages before
a write has failed if `careful`. -/
def RunsTo (bs : List Bytes) (careful : Prop) (i : Invoker) : Prop :=
  ∃ is, run (Invoker.step .ssl) Invoker.init is = some i ∧ Invoker.bodies is = bs ∧
    (careful → Guarded (Invoker.step .ssl) Invoker.StagesSucceed Invoker.init is)

variable {bs : List Bytes} {careful careful' : Prop} {i j : Invoker}

theorem runsTo_init (careful : Prop) : RunsTo [] careful Invoker.init :=
  ⟨[], rfl, rfl, fun _ => guarded_nil _ _⟩

theorem RunsTo.mono (h : RunsTo bs careful i) (himp : careful' → careful) :
    RunsTo bs careful' i := by
  obtain ⟨is, his, hbodies, hguard⟩ := h
  exact ⟨is, his, hbodies, fun hc => hguard (himp hc)⟩

theorem RunsTo.step (h : RunsTo bs careful i) {a : Trigger.Action} (hstep : i.step .ssl a = some j)
    (himp : careful' → careful ∧ i.StagesSucceed a) :
    RunsTo (bs ++ a.body?.toList) careful' j := by
  obtain ⟨is, his, hbodies, hguard⟩ := h
  refine ⟨is ++ [a], run_concat his hstep, ?_, ?_⟩
  · rw [Invoker.bodies_concat, hbodies]
  · intro hc
    obtain ⟨hc, hlast⟩ := himp hc
    exact (hguard hc).concat his hlast

theorem RunsTo.post (h : RunsTo bs careful i) (tlsext : Bool) (body : Bytes)
    (himp : careful' → careful ∧ tlsext = true) :
    RunsTo (bs ++ [body]) careful' (i.startPost .ssl tlsext body) :=
  h.step (a := .startPost body tlsext) rfl himp

theorem RunsTo.own (h : RunsTo bs careful i) {a : Trigger.Action} (hown : ownAction a = true)
    (hstep : i.step .ssl a = some j) (himp : careful' → careful ∧ i.StagesSucceed a) :
    RunsTo bs careful' j := by
  have hnone : a.body? = none := by
    cases a with
    | complete | close => rfl
    | registerOnRead | startPost => cases hown
  have hrun := h.step hstep himp
  rw [hnone] at hrun
  simpa using hrun

/-! ## Buckets -/

/-- A bucket that has an invoker has posted what it was given, and any other nothing. -/
def Bound (bs : List Bytes) (careful : Prop) : Option Invoker → Prop
  | some i => RunsTo bs careful i ∧ bs ≠ []
  | none => bs = []

theorem Bound.mono {x : Option Invoker} (h : Bound bs careful x) (himp : careful' → careful) :
    Bound bs careful' x := by
  cases x with
  | some i => exact ⟨h.1.mono himp, h.2⟩
  | none => exact h

/-- The outputs of the handler of bucket `r`. -/
theorem bound_output {o : Http} {tlsext : Bool} {r r' : BucketRef} (out : List Topics.Output)
    (h : Bound bs careful (o.binding r')) (himp : careful → tlsext = true) :
    Bound (bs ++ if r = r' then out.filterMap Topics.Output.body? else []) careful
      ((out.foldl (output tlsext r) o).binding r') := by
  induction out generalizing o bs with
  | nil =>
    rw [List.filterMap_nil, ite_self, List.append_nil]
    exact h
  | cons x out ih =>
    rw [List.foldl_cons, List.filterMap_cons]
    cases x with
    | reply self request resp | call listener pack => exact ih h
    | post body =>
      have hbinding := startTriggerPost_binding o tlsext r body r'
      by_cases hr : r = r'
      · subst hr
        rw [if_pos rfl] at hbinding
        have hnext : Bound (bs ++ [body]) careful
            ((o.startTriggerPost tlsext r body).binding r) := by
          rw [hbinding]
          refine ⟨?_, by simp⟩
          cases hold : o.binding r with
          | none =>
            rw [hold] at h
            cases h
            exact (runsTo_init careful).post tlsext body fun hc => ⟨hc, himp hc⟩
          | some i =>
            rw [hold] at h
            exact h.1.post tlsext body fun hc => ⟨hc, himp hc⟩
        have hall := ih hnext
        rw [if_pos rfl, List.append_assoc] at hall
        rw [if_pos rfl]
        exact hall
      · rw [if_neg fun heq => hr heq.symm] at hbinding
        rw [← hbinding] at h
        have hall := ih h
        rw [if_neg hr] at hall ⊢
        exact hall

/-- What the handlers of bucket `r` make others do in the step is what it posts. -/
theorem bound_trigger {o : Http} {p : Process} {tlsext : Bool} {a : Process.Action} {r : BucketRef}
    (h : Bound bs careful (o.binding r)) (himp : careful → tlsext = true) :
    Bound (bs ++ posts r o (.process a tlsext)) careful
      ((trigger { o with process := p } tlsext (handles o.process a)).binding r) := by
  have hnone : handles o.process a = none → posts r o (.process a tlsext) = [] →
      Bound (bs ++ posts r o (.process a tlsext)) careful
        ((trigger { o with process := p } tlsext (handles o.process a)).binding r) := by
    intro hhandles hposts
    rw [hhandles, hposts, List.append_nil]
    exact h
  cases a with
  | topics b =>
    cases b with
    | handler r' op =>
      cases hstep : o.process.topics.step (.handler r' op) with
      | none =>
        refine hnone (by rw [handles, hstep]; rfl) ?_
        rw [posts, Topics.bodiesOf, hstep]
        exact ite_self []
      | some x =>
        rw [handles, hstep, posts, Topics.bodiesOf, hstep]
        exact bound_output (o := { o with process := p }) x.2 h himp
    | put | get | task | begin => exact hnone rfl rfl
  | accept | arrive | complete | fail | next | launcher => exact hnone rfl rfl

/-- The invoker of a bucket goes through a run in which it is given what the bucket posts. -/
theorem run_binding {as : List Action} {o : Http} (hrun : run step init as = some o)
    (r : BucketRef) :
    Bound (posted r as) (Guarded step StagesSucceed init as) (o.binding r) := by
  refine run_induction (P := fun as o =>
    Bound (posted r as) (Guarded step StagesSucceed init as) (o.binding r)) ?_ ?_ as o hrun
  · exact (rfl : posted r [] = [])
  intro as o a o' ho ih ho'
  rw [posted_concat ho]
  have hold := ih.mono fun hguard : Guarded step StagesSucceed init (as ++ [a]) => hguard.prefix
  cases step_cases ho' with
  | process a tlsext p step =>
    rw [(createWorkers _ _ _).2.1]
    exact bound_trigger hold fun hguard => hguard.last ho
  | launch i tlsext body posted invoker made =>
    rw [posts, List.append_nil]
    exact hold
  | itrigger a own i j made step =>
    rw [posts, List.append_nil]
    exact hold
  | binding r' a own i j made step =>
    rw [posts, List.append_nil]
    change Bound _ _ (Function.update o.binding r' (some j) r)
    rw [Function.update_apply]
    split
    · rename_i heq
      subst heq
      rw [made] at ih
      refine ⟨ih.1.own own step ?_, ih.2⟩
      intro hguard
      have hbefore := hguard.prefix
      exact ⟨hbefore, hguard.last ho i made⟩
    · exact hold

/-! ## The launcher -/

/-- The launcher has asked for `n` workers: its invoker was given a wakeup for each, but for those
whose handlers have not run. -/
structure Launches (o : Http) (n : Nat) (careful : Prop) : Prop where
  launches : o.launches = List.replicate o.launches.length wakeup
  le : o.launches.length ≤ n
  made : o.itrigger = none → n = 0
  given : ∀ i, o.itrigger = some i →
    RunsTo (List.replicate (n - o.launches.length) wakeup) careful i

/-- Handler `i` of `job_launch_strand_` gives its wakeup to the invoker. -/
theorem Launches.launch {o : Http} {n i : Nat} {careful careful' : Prop} {tlsext : Bool}
    {body : Bytes} {invoker : Invoker} (h : Launches o n careful)
    (hposted : o.launches[i]? = some body) (hmade : o.itrigger = some invoker)
    (himp : careful' → careful ∧ tlsext = true) :
    Launches { o with
      itrigger := some (invoker.startPost .ssl tlsext body), launches := o.launches.eraseIdx i } n
        careful' := by
  obtain ⟨hlt, -⟩ := List.getElem?_eq_some_iff.mp hposted
  have hbody : body = wakeup := by
    rw [h.launches] at hposted
    exact List.eq_of_mem_replicate (List.mem_of_getElem? hposted)
  have hlength : (o.launches.eraseIdx i).length = o.launches.length - 1 :=
    List.length_eraseIdx_of_lt hlt
  have hle := h.le
  refine ⟨?_, ?_, ?_, ?_⟩
  · rw [List.eq_replicate_iff]
    refine ⟨rfl, ?_⟩
    intro b hb
    have hmem := List.mem_of_mem_eraseIdx hb
    rw [h.launches] at hmem
    exact List.eq_of_mem_replicate hmem
  · change (o.launches.eraseIdx i).length ≤ n
    omega
  · intro hnone
    cases hnone
  · have hgiven : n - (o.launches.length - 1) = n - o.launches.length + 1 := by omega
    rintro _ ⟨⟩
    rw [hlength, hgiven, List.replicate_succ', hbody]
    exact (h.given invoker hmade).post tlsext wakeup himp

/-- The step of the process. -/
def Action.process? : Action → Option Process.Action
  | .process a _ => some a
  | .launch _ _ | .binding _ _ | .itrigger _ => none

/-- The steps of the process. -/
def processRun (as : List Action) : List Process.Action := as.filterMap Action.process?

/-- The process goes through a run of its own. -/
theorem run_process {as : List Action} {o : Http} (hrun : run step init as = some o) :
    run Process.step Process.init (processRun as) = some o.process := by
  refine run_induction (P := fun as o =>
    run Process.step Process.init (processRun as) = some o.process) rfl ?_ as o hrun
  intro as o a o' _ ih ho'
  rw [processRun, List.filterMap_append]
  cases step_cases ho' with
  | process a tlsext p step =>
    rw [(createWorkers _ _ _).1, (trigger_others _ _ _).1]
    exact run_concat ih step
  | launch | binding | itrigger =>
    change run Process.step Process.init (processRun as ++ []) = _
    rw [List.append_nil]
    exact ih

/-- The topics go through a run of their own, in which every bucket posts what it posts here. -/
theorem run_topics {as : List Action} {o : Http} (hrun : run step init as = some o) :
    ∃ ts, run Topics.next Topics.init ts = some o.process.topics ∧
      ∀ r, trace Topics.next (bodiesOf r) Topics.init ts = posted r as := by
  refine run_induction (P := fun as o => ∃ ts,
    run Topics.next Topics.init ts = some o.process.topics ∧
      ∀ r, trace Topics.next (bodiesOf r) Topics.init ts = posted r as) ⟨[], rfl, fun _ => rfl⟩ ?_
    as o hrun
  rintro as o a o' ho ⟨ts, hts, hbodies⟩ ho'
  have hquiet : o'.process.topics = o.process.topics → (∀ r, posts r o a = []) → ∃ ts,
      run Topics.next Topics.init ts = some o'.process.topics ∧
        ∀ r, trace Topics.next (bodiesOf r) Topics.init ts = posted r (as ++ [a]) := by
    intro hsame hposts
    refine ⟨ts, hts.trans (congrArg some hsame.symm), ?_⟩
    intro r
    rw [hbodies, posted_concat ho, hposts, List.append_nil]
  have hstep : ∀ {b : Topics.Action} {out : List Topics.Output},
      o.process.topics.step b = some (o'.process.topics, out) →
      (∀ r, bodiesOf r o.process.topics b = posts r o a) → ∃ ts,
        run Topics.next Topics.init ts = some o'.process.topics ∧
          ∀ r, trace Topics.next (bodiesOf r) Topics.init ts = posted r (as ++ [a]) := by
    intro b out hb hposts
    refine ⟨ts ++ [b], run_concat hts ?_, ?_⟩
    · rw [Topics.next, hb]
      rfl
    · intro r
      rw [trace_concat hts, hbodies, posted_concat ho, hposts]
  cases step_cases ho' with
  | launch | binding | itrigger => exact hquiet rfl fun _ => rfl
  | process a tlsext p hp =>
    rw [(createWorkers _ _ _).1, (trigger_others _ _ _).1] at hquiet hstep ⊢
    cases Process.step_cases hp with
    | accept | arrive | complete | fail => exact hquiet rfl fun _ => rfl
    | next c k randomSalt sequence s found op ops code q performed =>
      have htopics : p.topics = Process.posted c o.process.topics op := performed.topics
      rcases Process.posted_step c o.process.topics op with hsame | ⟨b, hb, -, -⟩
      · exact hquiet (htopics.trans hsame) fun _ => rfl
      · rw [← htopics] at hb
        refine hstep hb fun r => ?_
        cases b with
        | handler r' op =>
          rw [bodiesOf, hb]
          exact ite_self []
        | _ => rfl
    | topics b own t out step q wrote =>
      have htopics : p.topics = t := wrote.topics
      rw [← htopics] at step
      exact hstep step fun _ => rfl
    | launcher b own q step =>
      cases step with
      | silent l step completions => exact hquiet rfl fun _ => rfl
      | callback l step done strand completions =>
        exact hquiet (Process.callback_topics _ done).1 fun _ => rfl

/-- What a bucket has posted is what was posted for its topic. -/
theorem posts_of_entry {as : List Action} {o : Http} (hrun : run step init as = some o)
    {r : BucketRef} {e : PacketHeader × Bucket} (he : o.process.topics.entries[r]? = some e) :
    o.process.topics.Posts e.1.topic (posted r as) := by
  obtain ⟨ts, hts, hbodies⟩ := run_topics hrun
  have hposts := run_posts hts e.1.topic
  rwa [← trace_bodiesOf hts ⟨e, he, rfl⟩, hbodies] at hposts

end CppSerializer.Http
