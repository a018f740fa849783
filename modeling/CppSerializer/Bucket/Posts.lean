import CppSerializer.Bucket.Awake
import CppSerializer.Bucket.TriggerPost
import CppSerializer.Library.Work

/-!
# How many bodies a trigger bucket posts

A handler posts its own data for every message that it pops, so what is posted need not be what was
put (`postsPopped_iff`). The number is right: a put is a push that its task has still to make, a
message in the queue, or a body (`run_posted`), and when nothing is left to do there is a body for
every put (`posted_of_idle`). The bodies are the payloads of puts, or empty when the handler is
that of a get (`run_sources`).
-/

namespace CppSerializer.Bucket

open Pack Transition Work

/-- The packet of a put. -/
def Action.put? : Action → Option Packet
  | .put _ header payload => some ⟨header, ⟨payload⟩⟩
  | .get _ _ | .task _ _ | .begin _ | .handler _ => none

/-- The packets that were put. -/
def puts (as : List Action) : List Packet := as.filterMap Action.put?

/-- The pushes that a task has still to make. -/
def Task.pushes (task : Task) : Nat := task.code.count .pushMessage

theorem puts_concat (as : List Action) (a : Action) :
    puts (as ++ [a]) = puts as ++ a.put?.toList := by
  rw [puts, puts, List.filterMap_append]
  cases h : a.put? <;> simp [h]

variable {topic : Topic} {b b' : Bucket} {a : Action} {as : List Action} {s t : State}
  {out : List Output}

/-! ## Steps -/

/-- The task of a put has one push to make, that of a get none, and no data. -/
theorem post_cases (ha : a.IsPost) (h : b.step topic a = some (b', out)) :
    ∃ task : Task, b' = b.post task ∧
      (a.put? = some task.pack ∧ task.pushes = 1 ∨
        a.put? = none ∧ task.pushes = 0 ∧ task.pack.data.buf = []) := by
  cases a with
  | put self header payload =>
    simp only [Bucket.step] at h
    split at h
    · cases h
      exact ⟨_, rfl, Or.inl ⟨rfl, rfl⟩⟩
    · cases h
  | get self header =>
    simp only [Bucket.step] at h
    split at h
    · cases h
      exact ⟨_, rfl, Or.inr ⟨rfl, rfl, rfl⟩⟩
    · cases h
  | task | begin | handler => exact absurd ha id

theorem pushes_visible (task : Task) :
    task.pushes = (task.code.filter TaskOp.visible).count .pushMessage :=
  (List.count_filter rfl).symm

theorem handle_key {h h' : Handler} {op : HandlerOp} (hstep : b.handle h op = (b', out))
    (hrun : b'.running = some h') : h'.key = h.key := by
  cases op with
  | triggerPop | tryPop | listenerEmpty | queueEmpty =>
    rw [handle] at hstep
    split at hstep <;> cases hstep <;> cases hrun <;> rfl
  | startTriggerPost | emit | disconnectAllSlots =>
    cases hstep
    cases hrun <;> rfl

/-- What a handler posts is its data. -/
theorem handle_bodies {h : Handler} {op : HandlerOp} (hstep : b.handle h op = (b', out)) :
    out.filterMap Output.body? = if op = .startTriggerPost then [h.key.data.buf] else [] := by
  cases op with
  | triggerPop | tryPop | listenerEmpty | queueEmpty =>
    rw [handle] at hstep
    split at hstep <;> cases hstep <;> rfl
  | startTriggerPost | disconnectAllSlots =>
    cases hstep
    rfl
  | emit =>
    cases hstep
    rw [if_neg (by decide), List.filterMap_eq_nil_iff]
    intro o ho
    have hcalls : ∀ (ls : List Listener) (resp : Packet), ∀ o ∈ (emit resp ls).1,
        o.body? = none := by
      intro ls
      induction ls with
      | nil =>
        intro resp o ho
        cases ho
      | cons l ls ih =>
        intro resp o ho
        rcases List.mem_cons.mp ho with rfl | ho
        · rfl
        · exact ih _ o ho
    exact hcalls _ _ o ho

theorem perform_bodies {i : Nat} {task : Task} {op : TaskOp}
    (h : b.perform i task op = some (b', out)) : out.filterMap Output.body? = [] := by
  rw [(perform_spec h).out]
  split <;> rfl

/-- The log holds all bodies that are posted. -/
theorem record_bodies (h : b.step topic a = some (b', out)) (log : Log) :
    (log.record b out a).bodies = log.bodies ++ out.filterMap Output.body? := by
  cases step_cases h with
  | post _ ha task _ _ hnew =>
    rw [Log.record_post _ _ _ ha]
    exact (List.append_nil _).symm
  | task i op _ self pack code htask hperform =>
    rw [Log.record_task htask, perform_bodies hperform]
    exact (List.append_nil _).symm
  | begin i key hidle hkey hnew => exact (List.append_nil _).symm
  | handler op handler _ hrun hop hstep =>
    have hbodies := handle_bodies hstep
    cases op with
    | startTriggerPost => rfl
    | _ =>
      rw [hbodies]
      exact (List.append_nil _).symm

/-! ## Messages -/

/-- A put is pushed, or its task is about to. -/
theorem run_pushes (hrun : run (State.step topic) State.init as = some s) :
    (puts as).length = s.log.pushed.length + weight Task.pushes s.bucket.tasks := by
  refine run_induction (P := fun as s =>
    (puts as).length = s.log.pushed.length + weight Task.pushes s.bucket.tasks) rfl ?_ as s hrun
  intro as s a t hs ih ht
  obtain ⟨out, hb, hlog⟩ := State.step_some ht
  rw [puts_concat, List.length_append]
  cases step_cases hb with
  | post _ ha _ _ _ _ =>
    obtain ⟨task, hnew, hput⟩ := post_cases ha hb
    rw [hlog, Log.record_post _ _ _ ha, hnew, post, weight_append, weight_cons, weight_nil]
    rcases hput with ⟨hput, hpushes⟩ | ⟨hput, hpushes, -⟩
    · rw [hput, hpushes, ih]
      exact Nat.add_assoc ..
    · rw [hput, hpushes, ih]
      rfl
  | task i op _ self pack code htask hperform =>
    obtain ⟨code', htasks, hvisible⟩ := perform_tasks hperform
    change t.bucket.tasks = s.bucket.tasks.set i ⟨self, pack, code'⟩ at htasks
    have hweight := weight_set (f := Task.pushes) htask ⟨self, pack, code'⟩
    have hcode : Task.pushes ⟨self, pack, code'⟩ = Task.pushes ⟨self, pack, code⟩ := by
      rw [pushes_visible, hvisible, ← pushes_visible]
    have hcons : Task.pushes ⟨self, pack, op :: code⟩ =
        Task.pushes ⟨self, pack, code⟩ + if op = .pushMessage then 1 else 0 := by
      rw [Task.pushes, List.count_cons]
      simp [Task.pushes]
    rw [hlog, Log.record_task htask, htasks, List.length_append]
    by_cases hop : op = .pushMessage
    · rw [if_pos hop] at hcons ⊢
      change _ + 0 = _ + 1 + _
      omega
    · rw [if_neg hop] at hcons ⊢
      change _ + 0 = _ + 0 + _
      omega
  | begin i key hidle hkey hnew =>
    rw [hlog, hnew]
    exact ih
  | handler op handler _ hrun hop hstep =>
    have htasks := (handle_tasks_posted s.bucket handler op).1
    rw [hstep] at htasks
    have hpushed : t.log.pushed = s.log.pushed := by
      rw [hlog]
      cases op <;> rfl
    rw [hpushed, htasks]
    exact ih

/-! ## Bodies -/

/-- The bodies of a trigger topic, the one that the handler is about to post, the messages in the
queue and the pushes that are left are as many as the puts. -/
theorem run_posted (htrigger : IsTriggerTopic topic)
    (hrun : run (State.step topic) State.init as = some s) :
    (puts as).length = s.log.bodies.length + s.pendingBody.length + s.bucket.messageQueue.length +
      weight Task.pushes s.bucket.tasks := by
  have hpops := congrArg List.length (run_bodies htrigger hrun)
  have hfifo := congrArg List.length (run_fifo hrun)
  rw [List.length_append, List.length_map] at hpops
  rw [List.length_append, Log.popped, List.length_map] at hfifo
  rw [run_pushes hrun, ← hfifo, ← hpops]

/-- No body is posted for any other topic. -/
theorem run_no_bodies (hsalt : ¬ IsTriggerTopic topic)
    (hrun : run (State.step topic) State.init as = some s) : s.log.bodies = [] := by
  refine run_induction (P := fun _ s => s.log.bodies = []) rfl ?_ as s hrun
  intro as s a t hs ih ht
  obtain ⟨out, hb, hlog⟩ := State.step_some ht
  rw [hlog, record_bodies hb, ih, List.nil_append]
  cases step_cases hb with
  | post | begin => rfl
  | task i op _ self pack code htask hperform => exact perform_bodies hperform
  | handler op handler _ hrun hop hstep =>
    rw [handle_bodies hstep]
    refine if_neg ?_
    rintro rfl
    have hbranch := (run_routed hs).running handler hrun
    rw [hop] at hbranch
    exact hsalt (hbranch.mp trivial)

/-- When nothing is left to do there is a body for every put. -/
theorem posted_of_idle (htrigger : IsTriggerTopic topic)
    (hrun : run (State.step topic) State.init as = some s)
    (htasks : ∀ task ∈ s.bucket.tasks, task.code = []) (hposted : s.bucket.posted = [])
    (hrunning : s.bucket.running = none) : s.log.bodies.length = (puts as).length := by
  have hnone : weight Task.pushes s.bucket.tasks = 0 := weight_eq_zero fun task htask => by
    rw [Task.pushes, htasks task htask]
    rfl
  have hqueue : s.bucket.messageQueue = [] := by
    by_contra hne
    rcases (run_awake hrun).attended ⟨hne, Or.inl htrigger⟩ with h | h | ⟨task, htask, hbetween⟩
    · exact h hposted
    · exact h hrunning
    · have hmem := hbetween.1
      rw [htasks task htask] at hmem
      cases hmem
  rw [run_posted htrigger hrun, State.pendingBody_idle hrunning, hqueue, hnone]
  rfl

/-! ## Whose data the bodies are -/

/-- The packet is that of a put, or carries nothing. -/
def From (ps : List Packet) (pack : Packet) : Prop := pack.data.buf = [] ∨ pack ∈ ps

/-- Every handler is that of a put or of a get, and so is every body. -/
structure Sources (ps : List Packet) (s : State) : Prop where
  tasks : ∀ task ∈ s.bucket.tasks, From ps task.pack
  posted : ∀ key ∈ s.bucket.posted, From ps key
  running : ∀ h, s.bucket.running = some h → From ps h.key
  bodies : ∀ body ∈ s.log.bodies, body = [] ∨ ∃ pack ∈ ps, pack.data.buf = body

theorem Sources.mono {ps ps' : List Packet} (h : Sources ps s) (hsub : ps ⊆ ps') :
    Sources ps' s where
  tasks := fun task htask => (h.tasks task htask).imp_right fun hmem => hsub hmem
  posted := fun key hkey => (h.posted key hkey).imp_right fun hmem => hsub hmem
  running := fun handler hrun => (h.running handler hrun).imp_right fun hmem => hsub hmem
  bodies := fun body hbody => (h.bodies body hbody).imp_right fun ⟨pack, hpack, heq⟩ =>
    ⟨pack, hsub hpack, heq⟩

theorem run_sources (hrun : run (State.step topic) State.init as = some s) :
    Sources (puts as) s := by
  refine run_induction (P := fun as s => Sources (puts as) s) ?_ ?_ as s hrun
  · constructor <;> simp [State.init, Bucket.empty, Log.empty]
  intro as s a t hs ih ht
  obtain ⟨out, hb, hlog⟩ := State.step_some ht
  rw [puts_concat]
  have hbodies : t.log.bodies = s.log.bodies ++ out.filterMap Output.body? := by
    rw [hlog, record_bodies hb]
  have hold := ih.mono (List.subset_append_left (puts as) a.put?.toList)
  cases step_cases hb with
  | post _ ha _ _ _ _ =>
    obtain ⟨task, hnew, hput⟩ := post_cases ha hb
    refine ⟨?_, by rw [hnew]; exact hold.posted, by rw [hnew]; exact hold.running, ?_⟩
    · rw [hnew]
      intro task' htask'
      rcases List.mem_append.mp htask' with htask' | htask'
      · exact hold.tasks task' htask'
      · rw [List.mem_singleton.mp htask']
        rcases hput with ⟨hput, -⟩ | ⟨-, -, hempty⟩
        · exact Or.inr (List.mem_append_right _ (by rw [hput]; exact List.mem_singleton_self _))
        · exact Or.inl hempty
    · rw [hbodies]
      simpa using hold.bodies
  | task i op _ self pack code htask hperform =>
    have hspec := perform_spec hperform
    have hpack := hold.tasks _ (List.mem_of_getElem? htask)
    refine ⟨?_, ?_, by rw [hspec.running]; exact hold.running, ?_⟩
    · intro task' htask'
      rcases hspec.tasks task' htask' with htask' | ⟨-, heq⟩
      · exact hold.tasks task' htask'
      · rw [heq]
        exact hpack
    · intro key hkey
      rw [hspec.posted] at hkey
      rcases List.mem_append.mp hkey with hkey | hkey
      · exact hold.posted key hkey
      · split at hkey
        · rw [List.mem_singleton.mp hkey]
          exact hpack
        · cases hkey
    · rw [hbodies, perform_bodies hperform, List.append_nil]
      exact hold.bodies
  | begin i key hidle hkey hnew =>
    refine ⟨by rw [hnew]; exact hold.tasks, ?_, ?_, by rw [hbodies]; simpa using hold.bodies⟩
    · rw [hnew]
      exact fun key' hkey' => hold.posted key' (List.mem_of_mem_eraseIdx hkey')
    · intro handler hrun
      rw [hnew] at hrun
      cases hrun
      exact hold.posted key (List.mem_of_getElem? hkey)
  | handler op handler _ hrun hop hstep =>
    obtain ⟨htasks, hposted⟩ := handle_tasks_posted s.bucket handler op
    rw [hstep] at htasks hposted
    have hkey := hold.running handler hrun
    refine ⟨htasks ▸ hold.tasks, hposted ▸ hold.posted, ?_, ?_⟩
    · intro handler' hrun'
      rw [From, handle_key hstep hrun']
      exact hkey
    · intro body hbody
      rw [hbodies, handle_bodies hstep] at hbody
      rcases List.mem_append.mp hbody with hbody | hbody
      · exact hold.bodies body hbody
      · split at hbody
        · rw [List.mem_singleton.mp hbody]
          exact hkey.imp_right fun hmem => ⟨_, hmem, rfl⟩
        · cases hbody

end CppSerializer.Bucket
