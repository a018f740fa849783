import CppSerializer.Topics.Isolation

/-!
# The tasks of puts and gets

What a step of the topics does to the tasks, seen from the connections: a task is posted, or it
goes on with what it makes visible, a push or the write of the ack among it. A task that has
still to push has also still to write, and pushes once and writes once.
-/

namespace CppSerializer.Topics

open Pack Bucket UnorderedMap Transition PacketHeader

/-- What the task will still do that somebody can see. -/
def Task.visible (task : Task) : List TaskOp := task.code.filter TaskOp.visible

/-- What a step can do to the tasks, and what was pushed and is written with it. -/
inductive TaskMove (t t' : Topics) : Action → List Output → Prop
  | put (self : Connection) (request : Nat) (header : PacketHeader) (payload : Bytes)
      (tasks : t'.tasks =
        t.tasks ++ [⟨Bucket.startStore self ⟨header, ⟨payload⟩⟩, request, none⟩])
      (pushed : t'.log.pushed = t.log.pushed) : TaskMove t t' (.put self request header payload) []
  | get (self : Connection) (request : Nat) (header : PacketHeader)
      (tasks : t'.tasks = t.tasks ++ [⟨Bucket.startLoad self ⟨header, ⟨[]⟩⟩, request, none⟩])
      (pushed : t'.log.pushed = t.log.pushed) : TaskMove t t' (.get self request header) []
  | silent (i : Nat) (op : TaskOp) (task task' : Task)
      (before : t.tasks[i]? = some (task.before op)) (self : task'.self = task.self)
      (pack : task'.pack = task.pack) (request : task'.request = task.request)
      (visible : task'.visible = (task.before op).visible)
      (tasks : t'.tasks = t.tasks.set i task') (pushed : t'.log.pushed = t.log.pushed) :
      TaskMove t t' (.task i op) []
  | use (i : Nat) (op : TaskOp) (hop : op = .getConnect ∨ op = .startHandleEvents) (task : Task)
      (before : t.tasks[i]? = some (task.before op)) (tasks : t'.tasks = t.tasks.set i task)
      (pushed : t'.log.pushed = t.log.pushed) : TaskMove t t' (.task i op) []
  | push (i : Nat) (task : Task) (before : t.tasks[i]? = some (task.before .pushMessage))
      (r : BucketRef) (found : task.found = some r) (tasks : t'.tasks = t.tasks.set i task)
      (pushed : t'.log.pushed = t.log.pushed ++ [⟨r, task.self, task.request, task.pack.data⟩]) :
      TaskMove t t' (.task i .pushMessage) []
  | write (i : Nat) (task : Task) (before : t.tasks[i]? = some (task.before .startWrite))
      (tasks : t'.tasks = t.tasks.set i task) (pushed : t'.log.pushed = t.log.pushed) :
      TaskMove t t' (.task i .startWrite)
        [.reply task.self task.request (response task.pack .ack)]
  | strand (a : Action) (out : List Output)
      (silent : ∀ o ∈ out, ∀ self request resp, o ≠ .reply self request resp)
      (tasks : t'.tasks = t.tasks) (pushed : t'.log.pushed = t.log.pushed) : TaskMove t t' a out

theorem Task.visible_before (task : Task) {op : TaskOp} (h : op.visible = true) :
    (task.before op).visible = op :: task.visible := by
  simp only [Task.visible, Task.before, List.filter_cons, h, if_true]

theorem Task.visible_before_hidden (task : Task) {op : TaskOp} (h : op.visible = false) :
    (task.before op).visible = task.visible := by
  simp only [Task.visible, Task.before, List.filter_cons, h, Bool.false_eq_true, if_false]

theorem taskMove {t t' : Topics} {a : Action} {out : List Output} (h : t.step a = some (t', out)) :
    TaskMove t t' a out := by
  cases step_cases h with
  | put self request header payload after =>
    subst after
    exact .put self request header payload rfl rfl
  | get self request header after =>
    subst after
    exact .get self request header rfl rfl
  | contains i task before code look after =>
    subst after
    refine .silent i _ task { task with code := code } before rfl rfl rfl ?_ rfl rfl
    rw [task.visible_before_hidden rfl, look]
    unfold Task.visible
    split <;> rfl
  | emplace i task before after =>
    subst after
    exact .silent i _ task task before rfl rfl rfl (task.visible_before_hidden rfl).symm rfl rfl
  | found i task before r find after =>
    subst after
    exact .silent i _ task { task with found := some r } before rfl rfl rfl
      (task.visible_before_hidden rfl).symm rfl rfl
  | use i op hop task before r found e entry b out step after =>
    subst after
    rcases hop with rfl | hop
    · exact .push i task before r found rfl rfl
    · refine .use i op hop task before rfl ?_
      rcases hop with rfl | rfl <;> rfl
  | startWrite i task before after =>
    subst after
    exact .write i task before rfl rfl
  | begin r i e entry key idle posted after =>
    subst after
    exact .strand _ _ (by simp) rfl rfl
  | handler r op e entry h running next b out handle after =>
    subst after
    refine .strand _ _ ?_ rfl rfl
    intro o ho self request resp heq
    obtain ⟨o', -, ho'⟩ := List.mem_filterMap.mp ho
    rw [heq] at ho'
    cases o' <;> cases ho'

/-! ## The order of what a task does -/

/-- What a put or a get has left to do. -/
def Task.Shaped (task : Task) : Prop :=
  task.visible <:+ [.pushMessage, .startHandleEvents, .startWrite] ∨
    task.visible <:+ [.getConnect, .startHandleEvents]

theorem Task.Shaped.after {task : Task} {op : TaskOp} (h : (task.before op).Shaped) :
    task.Shaped := by
  cases hop : op.visible with
  | false => rwa [Task.Shaped, task.visible_before_hidden hop] at h
  | true =>
    rw [Task.Shaped, task.visible_before hop] at h
    rcases h with h | h
    · exact Or.inl ((List.suffix_cons op _).trans h)
    · exact Or.inr ((List.suffix_cons op _).trans h)

theorem Shaped.step {t t' : Topics} {a : Action} {out : List Output}
    (hs : ∀ task ∈ t.tasks, task.Shaped) (h : t.step a = some (t', out)) :
    ∀ task ∈ t'.tasks, task.Shaped := by
  have hset : ∀ i (task : Task), task.Shaped → ∀ x ∈ t.tasks.set i task, x.Shaped := by
    intro i task htask x hx
    rcases List.mem_or_eq_of_mem_set hx with hx | rfl
    · exact hs x hx
    · exact htask
  have hpost : ∀ task : Task, task.Shaped → ∀ x ∈ t.tasks ++ [task], x.Shaped := by
    intro task htask x hx
    rcases List.mem_append.mp hx with hx | hx
    · exact hs x hx
    · rwa [List.mem_singleton.mp hx]
  cases taskMove h with
  | put _ _ _ _ tasks =>
    rw [tasks]
    exact hpost _ (Or.inl List.suffix_rfl)
  | get _ _ _ tasks =>
    rw [tasks]
    exact hpost _ (Or.inr List.suffix_rfl)
  | silent i op task task' before _ _ _ visible tasks =>
    rw [tasks]
    apply hset
    rw [Task.Shaped, visible]
    exact hs _ (List.mem_of_getElem? before)
  | use i op _ task before tasks =>
    rw [tasks]
    exact hset i task (hs _ (List.mem_of_getElem? before)).after
  | push i task before _ _ tasks =>
    rw [tasks]
    exact hset i task (hs _ (List.mem_of_getElem? before)).after
  | write i task before tasks =>
    rw [tasks]
    exact hset i task (hs _ (List.mem_of_getElem? before)).after
  | strand _ _ _ tasks =>
    rw [tasks]
    exact hs

/-- Behind a push there is the write of the ack, and behind the write nothing. -/
theorem Task.Shaped.behind {task : Task} {op : TaskOp} (h : (task.before op).Shaped)
    (hop : op.visible = true) :
    (op = .pushMessage → task.visible = [.startHandleEvents, .startWrite]) ∧
      (op = .startWrite → task.visible = []) := by
  rw [Task.Shaped, task.visible_before hop] at h
  simp only [List.suffix_cons_iff, List.suffix_nil, List.cons.injEq, reduceCtorEq, or_false] at h
  constructor
  · rintro rfl
    simpa using h
  · rintro rfl
    simpa using h

/-! ## Connections that the topics have done with -/

/-- No task of the connection has anything left to do, and no listener of it is connected. -/
structure Clear (t : Topics) (c : Connection) : Prop where
  tasks : ∀ task ∈ t.tasks, task.self = c → task.code = []
  listeners : ∀ e ∈ t.entries, ∀ l ∈ e.2.listeners, l.connection ≠ c

instance (t : Topics) (c : Connection) : Decidable (t.Clear c) :=
  decidable_of_iff ((∀ task ∈ t.tasks, task.self = c → task.code = []) ∧
      ∀ e ∈ t.entries, ∀ l ∈ e.2.listeners, l.connection ≠ c)
    ⟨fun h => ⟨h.1, h.2⟩, fun h => ⟨h.tasks, h.listeners⟩⟩

/-- The connection that an output is for. -/
def Output.connection? : Output → Option Connection
  | .reply self _ _ => some self
  | .call listener _ => some listener.connection
  | .post _ => none

/-- A handler calls connected slots, and connects none. -/
theorem handle_listeners {b b' : Bucket} {h : Handler} {op : HandlerOp} {out : List Bucket.Output}
    (hstep : b.handle h op = (b', out)) :
    (∀ l ∈ b'.listeners, l ∈ b.listeners) ∧ ∀ l pack, .call l pack ∈ out → l ∈ b.listeners := by
  cases op with
  | triggerPop | tryPop | listenerEmpty | queueEmpty =>
    rw [handle] at hstep
    split at hstep <;> cases hstep <;> exact ⟨fun _ hl => hl, fun _ _ hmem => (by cases hmem)⟩
  | startTriggerPost =>
    cases hstep
    exact ⟨fun _ hl => hl, fun _ _ hmem => by simp at hmem⟩
  | emit =>
    cases hstep
    exact ⟨fun _ hl => hl, fun _ _ hmem => (call_of_emit hmem).1⟩
  | disconnectAllSlots =>
    cases hstep
    exact ⟨fun _ hl => (by cases hl), fun _ _ hmem => (by cases hmem)⟩

theorem mem_put {entries : List (PacketHeader × Bucket)} {r : Nat} {b : Bucket}
    {e : PacketHeader × Bucket} (he : e ∈ put entries r b) : e ∈ entries ∨ e.2 = b := by
  obtain ⟨i, hi⟩ := List.mem_iff_getElem?.mp he
  rw [getElem?_put] at hi
  obtain ⟨e₀, he₀, heq⟩ := Option.map_eq_some_iff.mp hi
  split at heq
  · cases heq
    exact Or.inr rfl
  · cases heq
    exact Or.inl (List.mem_of_getElem? he₀)

section Clear

variable {t : Topics} {c : Connection}

/-- A task with a step to perform is one of another connection. -/
theorem Clear.other (h : t.Clear c) {i : Nat} {op : TaskOp} {task : Task}
    (hbefore : t.tasks[i]? = some (task.before op)) : task.self ≠ c := by
  intro hself
  have hcode := h.tasks _ (List.mem_of_getElem? hbefore) hself
  cases hcode

theorem Clear.set (h : t.Clear c) {i : Nat} {task : Task} (htask : task.self ≠ c) :
    ∀ x ∈ t.tasks.set i task, x.self = c → x.code = [] := by
  intro x hx hself
  rcases List.mem_or_eq_of_mem_set hx with hx | rfl
  · exact h.tasks x hx hself
  · exact absurd hself htask

theorem Clear.post (h : t.Clear c) {task : Task} (htask : task.self ≠ c) :
    ∀ x ∈ t.tasks ++ [task], x.self = c → x.code = [] := by
  intro x hx hself
  rcases List.mem_append.mp hx with hx | hx
  · exact h.tasks x hx hself
  · exact absurd (List.mem_singleton.mp hx ▸ hself) htask

theorem Clear.put (h : t.Clear c) {r : BucketRef} {b : Bucket}
    (hb : ∀ l ∈ b.listeners, l.connection ≠ c) :
    ∀ e ∈ put t.entries r b, ∀ l ∈ e.2.listeners, l.connection ≠ c := by
  intro e he
  rcases mem_put he with he | rfl
  · exact h.listeners e he
  · exact hb

/-- A new bucket has no listeners. -/
theorem Clear.emplace (h : t.Clear c) (header : PacketHeader) :
    ∀ e ∈ UnorderedMap.emplace keyTraits t.entries header newBucket, ∀ l ∈ e.2.listeners,
      l.connection ≠ c := by
  intro e he
  unfold UnorderedMap.emplace at he
  split at he
  · exact h.listeners e he
  · rcases List.mem_append.mp he with he | he
    · exact h.listeners e he
    · rw [List.mem_singleton.mp he]
      exact List.forall_mem_nil _

end Clear

/-- A step that a task or a handler takes, and the posts of other connections, leave a connection
alone that the topics have done with. -/
theorem Clear.step {t t' : Topics} {c : Connection} {a : Action} {out : List Output}
    (h : t.Clear c) (hput : ∀ self request header payload, a = .put self request header payload →
      self ≠ c) (hget : ∀ self request header, a = .get self request header → self ≠ c)
    (hstep : t.step a = some (t', out)) :
    t'.Clear c ∧ ∀ o ∈ out, o.connection? ≠ some c := by
  have hsilent : ∀ o ∈ ([] : List Output), o.connection? ≠ some c := List.forall_mem_nil _
  cases step_cases hstep with
  | put self request header payload after =>
    subst after
    exact ⟨⟨h.post (hput _ _ _ _ rfl), h.listeners⟩, hsilent⟩
  | get self request header after =>
    subst after
    exact ⟨⟨h.post (hget _ _ _ rfl), h.listeners⟩, hsilent⟩
  | contains i task before _ _ after | found i task before _ _ after =>
    subst after
    have hself : task.self ≠ c := h.other before
    exact ⟨⟨h.set hself, h.listeners⟩, hsilent⟩
  | emplace i task before after =>
    subst after
    exact ⟨⟨h.set (h.other before), h.emplace task.pack.header⟩, hsilent⟩
  | use i op hop task before r found e entry b out step after =>
    subst after
    refine ⟨⟨h.set (h.other before), h.put ?_⟩, hsilent⟩
    intro l hl
    rw [step.listeners] at hl
    rcases List.mem_append.mp hl with hl | hl
    · exact h.listeners e (List.mem_of_getElem? entry) l hl
    · split at hl
      · rw [List.mem_singleton.mp hl]
        exact h.other before
      · cases hl
  | startWrite i task before after =>
    subst after
    refine ⟨⟨h.set (h.other before), h.listeners⟩, fun o ho => ?_⟩
    rw [List.mem_singleton.mp ho]
    exact fun he => h.other before (Option.some.inj he)
  | begin r i e entry key idle posted after =>
    subst after
    exact ⟨⟨h.tasks, h.put (h.listeners e (List.mem_of_getElem? entry))⟩, hsilent⟩
  | handler r op e entry handler running next b out handle after =>
    subst after
    have hold := h.listeners e (List.mem_of_getElem? entry)
    obtain ⟨hkept, hcalls⟩ := handle_listeners handle
    refine ⟨⟨h.tasks, h.put fun l hl => hold l (hkept l hl)⟩, fun o ho => ?_⟩
    obtain ⟨o', ho', heq⟩ := List.mem_filterMap.mp ho
    cases o' with
    | write self pack => cases heq
    | call listener pack =>
      cases heq
      exact fun he => hold _ (hcalls _ _ ho') (Option.some.inj he)
    | post body =>
      cases heq
      exact (Option.some_ne_none c).symm

end CppSerializer.Topics
