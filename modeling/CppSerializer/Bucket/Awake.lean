import CppSerializer.Bucket.Delivery

/-!
# A bucket with work to do

The handler of `start_handle_events` returns early when it sees no listener or no message, so
it relies on another handler for what comes in after its tests. `Awake` is why there is one:
while a message waits, and a listener for it, a handler is posted, or runs, or some task has
made its push or its connect and is about to post one. A handler leaves the strand only when
it has seen the queue or the listeners empty.
-/

namespace CppSerializer.Bucket

open Pack Transition

/-! ## Tasks under way -/

/-- The task has made its push or its connect, and has yet to call `start_handle_events`. -/
def Task.Between (task : Task) : Prop :=
  .startHandleEvents ∈ task.code ∧ .pushMessage ∉ task.code ∧ .getConnect ∉ task.code

instance (task : Task) : Decidable task.Between :=
  inferInstanceAs (Decidable (_ ∧ _ ∧ _))

/-- What is left of `start_store` or of `start_load`. -/
def Task.Shaped (task : Task) : Prop :=
  task.code.filter TaskOp.visible <:+ [.pushMessage, .startHandleEvents, .startWrite] ∨
    task.code.filter TaskOp.visible <:+ [.getConnect, .startHandleEvents]

theorem mem_visible {code : List TaskOp} {op : TaskOp} (hop : op.visible = true) :
    op ∈ code.filter TaskOp.visible ↔ op ∈ code := by
  rw [List.mem_filter]
  exact and_iff_left hop

theorem between_iff {task : Task} : task.Between ↔
    .startHandleEvents ∈ task.code.filter TaskOp.visible ∧
      .pushMessage ∉ task.code.filter TaskOp.visible ∧
      .getConnect ∉ task.code.filter TaskOp.visible := by
  rw [Task.Between, mem_visible rfl, mem_visible rfl, mem_visible rfl]

theorem between_congr {task task' : Task}
    (h : task'.code.filter TaskOp.visible = task.code.filter TaskOp.visible) :
    task'.Between ↔ task.Between := by
  rw [between_iff, between_iff, h]

theorem Task.Shaped.congr {task task' : Task} (hs : task.Shaped)
    (h : task'.code.filter TaskOp.visible = task.code.filter TaskOp.visible) : task'.Shaped := by
  rw [Task.Shaped, h]
  exact hs

theorem Task.Shaped.tail {self : Connection} {pack : Packet} {op : TaskOp} {code : List TaskOp}
    (hs : Task.Shaped ⟨self, pack, op :: code⟩) : Task.Shaped ⟨self, pack, code⟩ := by
  have hsuffix : code.filter TaskOp.visible <:+ (op :: code).filter TaskOp.visible := by
    apply List.IsSuffix.filter
    exact List.suffix_cons op code
  rcases hs with hs | hs
  · exact Or.inl (hsuffix.trans hs)
  · exact Or.inr (hsuffix.trans hs)

/-- A task that has just pushed or connected is between that and its
`start_handle_events`. -/
theorem between_of_perform {self : Connection} {pack : Packet} {op : TaskOp}
    {code : List TaskOp} (hs : Task.Shaped ⟨self, pack, op :: code⟩)
    (hop : op = .pushMessage ∨ op = .getConnect) : Task.Between ⟨self, pack, code⟩ := by
  rw [between_iff]
  simp only [Task.Shaped, List.suffix_cons_iff, List.suffix_nil] at hs
  rcases hop with rfl | rfl
  · simp only [List.filter_cons, TaskOp.visible, if_true] at hs
    simp at hs
    simp [hs]
  · simp only [List.filter_cons, TaskOp.visible, if_true] at hs
    simp at hs
    simp [hs]

/-- A step other than the call of `start_handle_events` leaves a task between. -/
theorem Task.Between.tail {self : Connection} {pack : Packet} {op : TaskOp} {code : List TaskOp}
    (hb : Task.Between ⟨self, pack, op :: code⟩) (hop : op ≠ .startHandleEvents) :
    Task.Between ⟨self, pack, code⟩ := by
  obtain ⟨hhandle, hpush, hconnect⟩ := hb
  refine ⟨?_, ?_, ?_⟩
  · rcases List.mem_cons.mp hhandle with he | hmem
    · exact absurd he.symm hop
    · exact hmem
  · exact fun hmem => hpush (List.mem_cons_of_mem op hmem)
  · exact fun hmem => hconnect (List.mem_cons_of_mem op hmem)

/-! ## The invariant -/

/-- There is something for a handler to do. -/
def Waiting (topic : Topic) (b : Bucket) : Prop :=
  b.messageQueue ≠ [] ∧ (IsTriggerTopic topic ∨ b.listeners ≠ [])

/-- A handler is posted or runs, or a task is about to post one. -/
def Attended (b : Bucket) : Prop :=
  b.posted ≠ [] ∨ b.running ≠ none ∨ ∃ task ∈ b.tasks, task.Between

structure Awake (topic : Topic) (b : Bucket) : Prop where
  shaped : ∀ task ∈ b.tasks, task.Shaped
  attended : Waiting topic b → Attended b

theorem awake_empty (topic : Topic) : Awake topic empty := by
  refine ⟨?_, ?_⟩
  · intro task htask
    cases htask
  · intro hw
    exact absurd rfl hw.1

variable {topic : Topic} {b b' : Bucket}

theorem Awake.post {task : Task} (ha : Awake topic b) (hs : task.Shaped) :
    Awake topic (b.post task) := by
  refine ⟨?_, ?_⟩
  · intro t ht
    rcases List.mem_append.mp ht with ht | ht
    · exact ha.shaped t ht
    · rw [List.mem_singleton.mp ht]
      exact hs
  · intro hw
    rcases ha.attended hw with hposted | hrun | ⟨t, ht, hbetween⟩
    · exact Or.inl hposted
    · exact Or.inr (Or.inl hrun)
    · exact Or.inr (Or.inr ⟨t, List.mem_append_left _ ht, hbetween⟩)

/-- Tasks that are between stay so until they post their handler, and a task that makes the
bucket wait is between afterwards. -/
theorem Awake.task {i : Nat} {op : TaskOp} {out : List Output} {self : Connection}
    {pack : Packet} {code : List TaskOp} (ha : Awake topic b)
    (htask : b.tasks[i]? = some ⟨self, pack, op :: code⟩)
    (hperform : b.perform i ⟨self, pack, code⟩ op = some (b', out)) : Awake topic b' := by
  obtain ⟨code', htasks, hcode⟩ := perform_tasks hperform
  have hspec := perform_spec hperform
  have hshaped := ha.shaped _ (List.mem_of_getElem? htask)
  have hi : i < b.tasks.length := (List.getElem?_eq_some_iff.mp htask).1
  have hmem : ⟨self, pack, code'⟩ ∈ b'.tasks := by
    rw [htasks]
    exact List.mem_set hi _
  refine ⟨?_, ?_⟩
  · intro t ht
    rw [htasks] at ht
    rcases List.mem_or_eq_of_mem_set ht with ht | rfl
    · exact ha.shaped t ht
    · exact hshaped.tail.congr hcode
  intro hw
  by_cases hhandle : op = .startHandleEvents
  · refine Or.inl ?_
    rw [hspec.posted, if_pos hhandle]
    simp
  by_cases hnew : op = .pushMessage ∨ op = .getConnect
  · refine Or.inr (Or.inr ⟨_, hmem, ?_⟩)
    exact (between_congr hcode).mpr (between_of_perform hshaped hnew)
  rw [not_or] at hnew
  have hbefore : Waiting topic b := by
    rw [Waiting, hspec.messageQueue, hspec.listeners, if_neg hnew.1, if_neg hnew.2,
      List.append_nil, List.append_nil] at hw
    exact hw
  rcases ha.attended hbefore with hposted | hrun | ⟨t, ht, hbetween⟩
  · refine Or.inl ?_
    rw [hspec.posted, if_neg hhandle, List.append_nil]
    exact hposted
  · refine Or.inr (Or.inl ?_)
    rw [hspec.running]
    exact hrun
  · refine Or.inr (Or.inr ?_)
    obtain ⟨k, hk⟩ := List.mem_iff_getElem?.mp ht
    by_cases hik : i = k
    · subst hik
      rw [htask] at hk
      cases hk
      exact ⟨_, hmem, (between_congr hcode).mpr (hbetween.tail hhandle)⟩
    · refine ⟨t, ?_, hbetween⟩
      rw [htasks]
      apply List.mem_of_getElem? (i := k)
      rw [List.getElem?_set_ne hik]
      exact hk

/-- A handler leaves the strand when it has seen that there is nothing to do for it. -/
theorem handle_idle {h : Handler} {op : HandlerOp} {out : List Output}
    (hbranch : h.next.IsTrigger ↔ IsTriggerTopic topic) (hop : h.next = op)
    (hstep : b.handle h op = (b', out)) (hrun : b'.running = none) : ¬ Waiting topic b' := by
  subst hop
  rintro ⟨hqueue, hlisteners⟩
  cases hnext : h.next with
  | triggerPop =>
    rw [hnext, handle] at hstep
    split at hstep
    · cases hstep
      cases hrun
    · rename_i hempty
      cases hstep
      exact hqueue hempty
  | queueEmpty =>
    rw [hnext, handle] at hstep
    split at hstep
    · rename_i hempty
      cases hstep
      exact hqueue hempty
    · cases hstep
      cases hrun
  | listenerEmpty =>
    rw [hnext] at hbranch
    rw [hnext, handle] at hstep
    split at hstep
    · rename_i hempty
      cases hstep
      rcases hlisteners with htrigger | hsome
      · exact hbranch.mpr htrigger
      · exact hsome hempty
    · cases hstep
      cases hrun
  | disconnectAllSlots =>
    rw [hnext] at hbranch hstep
    cases hstep
    rcases hlisteners with htrigger | hsome
    · exact hbranch.mpr htrigger
    · exact hsome rfl
  | tryPop =>
    rw [hnext, handle] at hstep
    split at hstep
    · cases hstep
      cases hrun
    · cases hstep
      cases hrun
  | startTriggerPost | emit =>
    rw [hnext] at hstep
    cases hstep
    cases hrun

theorem step_post {a : Action} {out : List Output} (ha : a.IsPost)
    (h : b.step topic a = some (b', out)) : ∃ task : Task, task.Shaped ∧ b' = b.post task := by
  cases a with
  | put self header payload =>
    simp only [Bucket.step] at h
    split at h
    · cases h
      exact ⟨_, Or.inl (List.suffix_refl _), rfl⟩
    · cases h
  | get self header =>
    simp only [Bucket.step] at h
    split at h
    · cases h
      exact ⟨_, Or.inr (List.suffix_refl _), rfl⟩
    · cases h
  | task | begin | handler => exact absurd ha id

theorem Awake.step {a : Action} {out : List Output} (ha : Awake topic b) (hr : Routed topic b)
    (h : b.step topic a = some (b', out)) : Awake topic b' := by
  cases step_cases h with
  | post _ hpost task htopic hcode hafter =>
    obtain ⟨task', hs, hb'⟩ := step_post hpost h
    rw [hb']
    exact ha.post hs
  | task i op _ self pack code htask hperform => exact ha.task htask hperform
  | begin i key hidle hkey hafter =>
    rw [hafter]
    exact ⟨ha.shaped, fun _ => Or.inr (Or.inl (by simp))⟩
  | handler op handler _ hrun hop hstep =>
    obtain ⟨htasks, -⟩ := handle_tasks_posted b handler op
    rw [hstep] at htasks
    refine ⟨htasks ▸ ha.shaped, ?_⟩
    intro hw
    refine Or.inr (Or.inl ?_)
    intro hidle
    exact handle_idle (hr.running handler hrun) hop hstep hidle hw

theorem run_awake {as : List Action} {s : State}
    (hrun : run (State.step topic) State.init as = some s) : Awake topic s.bucket := by
  refine run_induction (P := fun _ s => Awake topic s.bucket) ?_ ?_ as s hrun
  · exact awake_empty topic
  · intro as s a t hs ih ht
    obtain ⟨out, hb, -⟩ := State.step_some ht
    exact ih.step (run_routed hs) hb

/-- A bucket without a handler, posted or running, and without a task that is about to post
one, has nothing to do. -/
theorem never_stuck {s : State} (hs : Reachable (State.step topic) State.init s)
    (hposted : s.bucket.posted = []) (hrunning : s.bucket.running = none)
    (hbetween : ∀ task ∈ s.bucket.tasks, ¬ task.Between) :
    (IsTriggerTopic topic → s.bucket.messageQueue = []) ∧
      (¬ IsTriggerTopic topic → s.bucket.messageQueue = [] ∨ s.bucket.listeners = []) := by
  obtain ⟨as, hrun⟩ := hs
  have hidle : ¬ Waiting topic s.bucket := by
    intro hw
    rcases (run_awake hrun).attended hw with hp | hr | ⟨task, htask, hb⟩
    · exact hp hposted
    · exact hr hrunning
    · exact hbetween task htask hb
  refine ⟨?_, ?_⟩
  · intro htrigger
    by_contra hqueue
    exact hidle ⟨hqueue, Or.inl htrigger⟩
  · intro _
    by_contra hne
    rw [not_or] at hne
    exact hidle ⟨hne.1, Or.inr hne.2⟩

/-- The handler of a put finds no listener, and the message waits in the queue for a get. -/
def unheardRun : List Action :=
  [.put 0 (requestHeader deliveryTopic .put) [65, 66], .task 0 .contains, .task 0 .emplace,
    .task 0 .at, .task 0 .pushMessage, .task 0 .startHandleEvents, .begin 0,
    .handler .listenerEmpty]

theorem unheardRun_end : ((run (State.step deliveryTopic) State.init unheardRun).map fun s =>
    (s.bucket.posted, s.bucket.running, s.bucket.messageQueue,
      decide (∀ task ∈ s.bucket.tasks, ¬ task.Between))) =
        some ([], none, [⟨[65, 66]⟩], true) := by
  decide +kernel

theorem never_stuck_unheardRun : ∃ s : State, s.bucket.messageQueue = [⟨[65, 66]⟩] ∧
    (IsTriggerTopic deliveryTopic → s.bucket.messageQueue = []) ∧
      (¬ IsTriggerTopic deliveryTopic → s.bucket.messageQueue = [] ∨ s.bucket.listeners = []) := by
  obtain ⟨s, hs, hend⟩ := Option.map_eq_some_iff.mp unheardRun_end
  simp only [Prod.mk.injEq, decide_eq_true_eq] at hend
  obtain ⟨hposted, hrunning, hqueue, hbetween⟩ := hend
  exact ⟨s, hqueue, never_stuck ⟨unheardRun, hs⟩ hposted hrunning hbetween⟩

end CppSerializer.Bucket
