import CppSerializer.Library.Transition
import CppSerializer.Pack.Packet

/-!
# Buckets

One entry of the `topics` map of `main.cpp`: the bucket of a key and a salt, with the
`start_store` and `start_load` tasks of the requests for it and the handlers that
`start_handle_events` has posted through its strand.

The tasks run on any thread of the `io_context`, so the step function performs one atomic
step of one of them: a call of the concurrent map, a push, a connect, a post. A task is the
list of the steps it has still to perform. Of the posted handlers at most one runs at a
time, but any of the posted ones may come next, and its steps interleave with those of the
tasks.

What leaves the bucket is an `Output`: an acknowledgement or a message for a connection to
write, or a body to post to the bound URL.
-/

namespace CppSerializer.Bucket

open Pack

/-! ## Tasks -/

/-- A `tcp_connection`. -/
abbrev Connection := Nat

/-- The key and the salt that select a bucket. -/
abbrev Topic := KeyT × List.Vector UnitT 4

/-- A slot of `listener_`, which calls `start_write` of a connection. Several slots may
belong to one connection. -/
structure Listener where
  slot : Nat
  connection : Connection
  deriving DecidableEq

/-- The atomic steps of `start_store` and `start_load` tasks. -/
inductive TaskOp
  | contains
  | emplace
  | at
  | pushMessage
  | getConnect
  | startHandleEvents
  | startWrite
  deriving DecidableEq

/-- The steps of `get_bucket` are not visible to anybody. -/
def TaskOp.visible : TaskOp → Bool
  | .contains | .emplace | .at => false
  | .pushMessage | .getConnect | .startHandleEvents | .startWrite => true

/-- A task that was posted to the `io_context`: the connection and the packet it has
captured, and the steps it has not performed yet. -/
structure Task where
  self : Connection
  pack : Packet
  code : List TaskOp
  deriving DecidableEq

/-- `get_bucket`. When the map does not contain the header, an `emplace` follows the
first step. -/
def getBucket : List TaskOp := [.contains, .at]

/-- The task of `start_store`. -/
def startStore (self : Connection) (pack : Packet) : Task :=
  ⟨self, pack, getBucket ++ [.pushMessage, .startHandleEvents, .startWrite]⟩

/-- The task of `start_load`. -/
def startLoad (self : Connection) (pack : Packet) : Task :=
  ⟨self, pack, getBucket ++ [.getConnect] ++ getBucket ++ [.startHandleEvents]⟩

/-! ## Handlers -/

/-- The atomic steps of the handler of `start_handle_events`: the loop of the trigger
branch, and the two tests, the loop and the end of the listener branch. -/
inductive HandlerOp
  | triggerPop
  | startTriggerPost
  | listenerEmpty
  | queueEmpty
  | tryPop
  | emit
  | disconnectAllSlots
  deriving DecidableEq

/-- A handler that runs on the strand: the packet it has captured, its `resp`, and its next
step. -/
structure Handler where
  key : Packet
  resp : Packet
  next : HandlerOp
  deriving DecidableEq

/-- The `resp` of the server to a packet: its header with the given type, and no data. -/
def response (pack : Packet) (type : MsgT) : Packet :=
  { header := { pack.header with type := type }, data := ⟨[]⟩ }

/-- A handler at its beginning. -/
def Handler.start (key : Packet) : Handler :=
  let resp := response key .ack
  ⟨key, resp, if resp.header.isTrigger then .triggerPop else .listenerEmpty⟩

end Bucket

open Pack Bucket

/-- `bucket`, as the entry of a topic. `contained` says that the map has the entry;
`posted` holds the packets captured by the handlers that have not begun. -/
structure Bucket where
  contained : Bool
  messageQueue : List PacketData
  listeners : List Listener
  nextSlot : Nat
  tasks : List Task
  posted : List Packet
  running : Option Handler
  deriving DecidableEq

namespace Bucket

/-- A topic that nobody has used. -/
def empty : Bucket := ⟨false, [], [], 0, [], [], none⟩

/-- What a step of the bucket makes others do. -/
inductive Output
  | write (self : Connection) (pack : Packet)
  | call (listener : Listener) (pack : Packet)
  | post (body : Bytes)
  deriving DecidableEq

/-- The steps: a put or a get for the topic has been read, so that its task is posted; task
`i` performs its next step; posted handler `i` begins; the running handler performs its
next step. -/
inductive Action
  | put (self : Connection) (header : PacketHeader) (payload : Bytes)
  | get (self : Connection) (header : PacketHeader)
  | task (i : Nat) (op : TaskOp)
  | begin (i : Nat)
  | handler (op : HandlerOp)
  deriving DecidableEq

/-- The task of a put or a get is posted; the other steps are those of the tasks and of the
handlers. -/
def Action.IsPost : Action → Prop
  | .put _ _ _ | .get _ _ => True
  | .task _ _ | .begin _ | .handler _ => False

instance : DecidablePred Action.IsPost
  | .put _ _ _ | .get _ _ => .isTrue trivial
  | .task _ _ | .begin _ | .handler _ => .isFalse id

/-! ## The step function -/

def post (b : Bucket) (task : Task) : Bucket := { b with tasks := b.tasks ++ [task] }

/-- The effect of a step of a task, `i` being its place and `task` the task afterwards. -/
def perform (b : Bucket) (i : Nat) (task : Task) : TaskOp → Option (Bucket × List Output)
  | .contains =>
    let code := if b.contained then task.code else .emplace :: task.code
    some ({ b with tasks := b.tasks.set i { task with code := code } }, [])
  | .emplace => some ({ b with contained := true, tasks := b.tasks.set i task }, [])
  -- `at` throws when there is no entry
  | .at => if b.contained then some ({ b with tasks := b.tasks.set i task }, []) else none
  | .pushMessage =>
    some ({ b with
      messageQueue := b.messageQueue ++ [task.pack.data], tasks := b.tasks.set i task }, [])
  | .getConnect =>
    some ({ b with
      listeners := b.listeners ++ [⟨b.nextSlot, task.self⟩], nextSlot := b.nextSlot + 1,
      tasks := b.tasks.set i task }, [])
  | .startHandleEvents =>
    some ({ b with posted := b.posted ++ [task.pack], tasks := b.tasks.set i task }, [])
  | .startWrite =>
    some ({ b with tasks := b.tasks.set i task }, [.write task.self (response task.pack .ack)])

/-- Task `i` performs the step `op`, which has to be its next one. -/
def stepTask (b : Bucket) (i : Nat) (op : TaskOp) : Option (Bucket × List Output) :=
  match b.tasks[i]? with
  | some ⟨self, pack, next :: code⟩ =>
    if next = op then b.perform i ⟨self, pack, code⟩ op else none
  | _ => none

/-- The strand takes up posted handler `i` when it is free. -/
def begin (b : Bucket) (i : Nat) : Option Bucket :=
  match b.running, b.posted[i]? with
  | none, some key =>
    some { b with posted := b.posted.eraseIdx i, running := some (Handler.start key) }
  | _, _ => none

/-- `listener_(resp)`: every slot is called with the one `resp`, and serializing it leaves
the size of the data in its header. -/
def emit (resp : Packet) : List Listener → List Output × Packet
  | [] => ([], resp)
  | l :: ls => (.call l resp :: (emit resp.sized ls).1, (emit resp.sized ls).2)

/-- The effect of a step of the running handler. -/
def handle (b : Bucket) (h : Handler) : HandlerOp → Bucket × List Output
  | .triggerPop =>
    match b.messageQueue with
    | m :: queue =>
      ({ b with
        messageQueue := queue
        running := some { h with resp := { h.resp with data := m }, next := .startTriggerPost } }, [])
    | [] => ({ b with running := none }, [])
  | .startTriggerPost =>
    ({ b with running := some { h with next := .triggerPop } }, [.post h.key.data.buf])
  | .listenerEmpty =>
    if b.listeners = [] then ({ b with running := none }, [])
    else ({ b with running := some { h with next := .queueEmpty } }, [])
  | .queueEmpty =>
    if b.messageQueue = [] then ({ b with running := none }, [])
    else ({ b with running := some { h with next := .tryPop } }, [])
  | .tryPop =>
    match b.messageQueue with
    | m :: queue =>
      ({ b with
        messageQueue := queue
        running := some { h with resp := { h.resp with data := m }, next := .emit } }, [])
    | [] => ({ b with running := some { h with next := .disconnectAllSlots } }, [])
  | .emit =>
    ({ b with running := some { h with resp := (emit h.resp b.listeners).2, next := .tryPop } },
      (emit h.resp b.listeners).1)
  | .disconnectAllSlots => ({ b with listeners := [], running := none }, [])

/-- The running handler performs the step `op`, which has to be its next one. -/
def stepHandler (b : Bucket) (op : HandlerOp) : Option (Bucket × List Output) :=
  match b.running with
  | some h => if h.next = op then some (b.handle h op) else none
  | none => none

/-- One atomic step of the bucket of a topic. -/
def step (topic : Topic) (b : Bucket) : Action → Option (Bucket × List Output)
  | .put self header payload =>
    if header.topic = topic then some (b.post (startStore self ⟨header, ⟨payload⟩⟩), []) else none
  | .get self header =>
    if header.topic = topic then some (b.post (startLoad self ⟨header, ⟨[]⟩⟩), []) else none
  | .task i op => b.stepTask i op
  | .begin i => (b.begin i).map fun b => (b, [])
  | .handler op => b.stepHandler op

/-! ## What one step can do -/

theorem stepTask_some {b b' : Bucket} {i : Nat} {op : TaskOp} {out : List Output}
    (h : b.stepTask i op = some (b', out)) :
    ∃ self pack code, b.tasks[i]? = some ⟨self, pack, op :: code⟩ ∧
      b.perform i ⟨self, pack, code⟩ op = some (b', out) := by
  unfold stepTask at h
  split at h
  · rename_i self pack next code htask
    split at h
    · rename_i hop
      subst hop
      exact ⟨self, pack, code, htask, h⟩
    · cases h
  · cases h

/-- A step of a task, whichever it is: what it appends to the queue, to the listeners and to
the posted handlers, and that it leaves the strand alone. -/
structure TaskStep (b b' : Bucket) (op : TaskOp) (task : Task) (out : List Output) : Prop where
  messageQueue : b'.messageQueue =
    b.messageQueue ++ if op = .pushMessage then [task.pack.data] else []
  listeners : b'.listeners =
    b.listeners ++ if op = .getConnect then [⟨b.nextSlot, task.self⟩] else []
  nextSlot : b'.nextSlot = b.nextSlot + if op = .getConnect then 1 else 0
  posted : b'.posted = b.posted ++ if op = .startHandleEvents then [task.pack] else []
  running : b'.running = b.running
  tasks : ∀ t ∈ b'.tasks, t ∈ b.tasks ∨ t.self = task.self ∧ t.pack = task.pack
  out : out = if op = .startWrite then [.write task.self (response task.pack .ack)] else []

theorem perform_spec {b b' : Bucket} {i : Nat} {task : Task} {op : TaskOp} {out : List Output}
    (h : b.perform i task op = some (b', out)) : TaskStep b b' op task out := by
  have htasks : ∀ code, ∀ t ∈ b.tasks.set i { task with code := code },
      t ∈ b.tasks ∨ t.self = task.self ∧ t.pack = task.pack := by
    intro code t ht
    rcases List.mem_or_eq_of_mem_set ht with ht | rfl
    · exact Or.inl ht
    · exact Or.inr ⟨rfl, rfl⟩
  cases op with
  | «at» =>
    rw [perform] at h
    split at h
    · cases h
      exact ⟨by simp, by simp, by simp, by simp, rfl, htasks task.code, by simp⟩
    · cases h
  | contains =>
    cases h
    exact ⟨by simp, by simp, by simp, by simp, rfl, htasks _, by simp⟩
  | _ =>
    cases h
    exact ⟨by simp, by simp, by simp, by simp, rfl, htasks task.code, by simp⟩

/-- A step takes itself off the code of its task; `contains` may put `emplace` in its place. -/
theorem perform_tasks {b b' : Bucket} {i : Nat} {task : Task} {op : TaskOp} {out : List Output}
    (h : b.perform i task op = some (b', out)) :
    ∃ code, b'.tasks = b.tasks.set i { task with code := code } ∧
      code.filter TaskOp.visible = task.code.filter TaskOp.visible := by
  cases op with
  | «at» =>
    rw [perform] at h
    split at h
    · cases h
      exact ⟨task.code, rfl, rfl⟩
    · cases h
  | contains =>
    cases h
    refine ⟨_, rfl, ?_⟩
    split
    · rfl
    · rfl
  | _ =>
    cases h
    exact ⟨task.code, rfl, rfl⟩

theorem begin_some {b b' : Bucket} {i : Nat} (h : b.begin i = some b') :
    b.running = none ∧ ∃ key, b.posted[i]? = some key ∧
      b' = { b with posted := b.posted.eraseIdx i, running := some (Handler.start key) } := by
  unfold begin at h
  split at h
  · rename_i key hrun hkey
    cases h
    exact ⟨hrun, key, hkey, rfl⟩
  · cases h

theorem stepHandler_some {b b' : Bucket} {op : HandlerOp} {out : List Output}
    (h : b.stepHandler op = some (b', out)) :
    ∃ handler, b.running = some handler ∧ handler.next = op ∧
      b.handle handler op = (b', out) := by
  unfold stepHandler at h
  split at h
  · rename_i handler hrun
    split at h
    · rename_i hop
      exact ⟨handler, hrun, hop, Option.some.inj h⟩
    · cases h
  · cases h

theorem stepHandler_of_running {b : Bucket} {handler : Handler} {op : HandlerOp}
    (hrun : b.running = some handler) (hop : handler.next = op) :
    b.stepHandler op = some (b.handle handler op) := by
  simp only [stepHandler, hrun]
  exact if_pos hop

/-- Everything a step can be: a task is posted, a task performs its next step, a posted handler
begins, or the running handler performs its next step. -/
inductive Step (topic : Topic) (b b' : Bucket) : Action → List Output → Prop
  | post (a : Action) (isPost : a.IsPost) (task : Task)
      (sameTopic : task.pack.header.topic = topic) (code : task.code.head? = some .contains)
      (after : b' = b.post task) : Step topic b b' a []
  | task (i : Nat) (op : TaskOp) (out : List Output) (self : Connection) (pack : Packet)
      (code : List TaskOp) (task : b.tasks[i]? = some ⟨self, pack, op :: code⟩)
      (perform : b.perform i ⟨self, pack, code⟩ op = some (b', out)) :
      Step topic b b' (.task i op) out
  | begin (i : Nat) (key : Packet) (idle : b.running = none) (posted : b.posted[i]? = some key)
      (after : b' = { b with
        posted := b.posted.eraseIdx i, running := some (Handler.start key) }) :
      Step topic b b' (.begin i) []
  | handler (op : HandlerOp) (h : Handler) (out : List Output) (running : b.running = some h)
      (next : h.next = op) (handle : b.handle h op = (b', out)) : Step topic b b' (.handler op) out

theorem step_cases {topic : Topic} {b b' : Bucket} {a : Action} {out : List Output}
    (h : b.step topic a = some (b', out)) : Step topic b b' a out := by
  cases a with
  | put self header payload =>
    simp only [Bucket.step] at h
    split at h
    · cases h
      exact .post _ trivial _ ‹_› rfl rfl
    · cases h
  | get self header =>
    simp only [Bucket.step] at h
    split at h
    · cases h
      exact .post _ trivial _ ‹_› rfl rfl
    · cases h
  | task i op =>
    obtain ⟨self, pack, code, htask, hperform⟩ := stepTask_some h
    exact .task i op out self pack code htask hperform
  | begin i =>
    obtain ⟨b₁, hb, he⟩ := Option.map_eq_some_iff.mp h
    cases he
    obtain ⟨hidle, key, hkey, hafter⟩ := begin_some hb
    exact .begin i key hidle hkey hafter
  | handler op =>
    obtain ⟨handler, hrun, hop, hhandle⟩ := stepHandler_some h
    exact .handler op handler out hrun hop hhandle

/-! ## Topics -/

theorem isTrigger_eq (h : PacketHeader) : h.isTrigger = (h.topic.2.last == 0) := rfl

/-- The salt of the topic is a trigger salt. -/
def IsTriggerTopic (topic : Topic) : Prop := topic.2.last = 0

theorem Handler.start_next (key : Packet) : (Handler.start key).next =
    if key.header.isTrigger then .triggerPop else .listenerEmpty := rfl

theorem isTrigger_iff {h : PacketHeader} {topic : Topic} (ht : h.topic = topic) :
    h.isTrigger = true ↔ IsTriggerTopic topic := by
  rw [isTrigger_eq, ht, beq_iff_eq, IsTriggerTopic]

theorem Handler.start_of_not_trigger {key : Packet} {topic : Topic}
    (hkey : key.header.topic = topic) (htopic : ¬ IsTriggerTopic topic) :
    (Handler.start key).next = .listenerEmpty := by
  rw [Handler.start_next, if_neg]
  rwa [isTrigger_iff hkey]

/-- The steps of the trigger branch of the handler. -/
def HandlerOp.IsTrigger : HandlerOp → Prop
  | .triggerPop | .startTriggerPost => True
  | _ => False

/-- All packets in the bucket have the key and the salt of its topic, so all its handlers
take the same branch. -/
structure Routed (topic : Topic) (b : Bucket) : Prop where
  tasks : ∀ task ∈ b.tasks, task.pack.header.topic = topic
  posted : ∀ key ∈ b.posted, key.header.topic = topic
  running : ∀ h, b.running = some h → (h.next.IsTrigger ↔ IsTriggerTopic topic)

theorem routed_empty (topic : Topic) : Routed topic empty := by
  constructor <;> simp [empty]

theorem Handler.start_isTrigger {key : Packet} {topic : Topic} (hkey : key.header.topic = topic) :
    (Handler.start key).next.IsTrigger ↔ IsTriggerTopic topic := by
  rw [← isTrigger_iff hkey, Handler.start_next]
  by_cases htrigger : key.header.isTrigger = true
  · simp [htrigger, HandlerOp.IsTrigger]
  · simp [htrigger, HandlerOp.IsTrigger]

/-- A step of a handler stays in its branch. -/
theorem handle_isTrigger {b b' : Bucket} {h h' : Handler} {op : HandlerOp} {out : List Output}
    (hop : h.next = op) (hstep : b.handle h op = (b', out)) (hrun : b'.running = some h') :
    h'.next.IsTrigger ↔ h.next.IsTrigger := by
  subst hop
  cases hnext : h.next with
  | triggerPop =>
    rw [hnext, handle] at hstep
    split at hstep <;> cases hstep <;> cases hrun
    simp [HandlerOp.IsTrigger]
  | tryPop =>
    rw [hnext, handle] at hstep
    split at hstep <;> cases hstep <;> cases hrun <;> simp [HandlerOp.IsTrigger]
  | listenerEmpty =>
    rw [hnext, handle] at hstep
    split at hstep <;> cases hstep <;> cases hrun
    simp [HandlerOp.IsTrigger]
  | queueEmpty =>
    rw [hnext, handle] at hstep
    split at hstep <;> cases hstep <;> cases hrun
    simp [HandlerOp.IsTrigger]
  | startTriggerPost | emit | disconnectAllSlots =>
    rw [hnext] at hstep
    cases hstep
    cases hrun <;> simp [HandlerOp.IsTrigger]

theorem handle_tasks_posted (b : Bucket) (h : Handler) (op : HandlerOp) :
    (b.handle h op).1.tasks = b.tasks ∧ (b.handle h op).1.posted = b.posted := by
  cases op with
  | triggerPop | tryPop | listenerEmpty | queueEmpty =>
    simp only [handle]
    split <;> exact ⟨rfl, rfl⟩
  | _ => exact ⟨rfl, rfl⟩

theorem Routed.step {topic : Topic} {b b' : Bucket} {a : Action} {out : List Output}
    (hr : Routed topic b) (h : b.step topic a = some (b', out)) : Routed topic b' := by
  cases step_cases h with
  | post _ _ task htask _ hafter =>
    rw [hafter]
    refine ⟨?_, hr.posted, hr.running⟩
    intro t ht
    rcases List.mem_append.mp ht with ht | ht
    · exact hr.tasks t ht
    · rw [List.mem_singleton.mp ht]
      exact htask
  | task i op _ self pack code htask hperform =>
    have hs := perform_spec hperform
    have hpack : pack.header.topic = topic := hr.tasks _ (List.mem_of_getElem? htask)
    refine ⟨?_, ?_, ?_⟩
    · intro t ht
      rcases hs.tasks t ht with ht | ⟨-, ht⟩
      · exact hr.tasks t ht
      · rw [ht]
        exact hpack
    · intro key hkey
      rw [hs.posted] at hkey
      rcases List.mem_append.mp hkey with hkey | hkey
      · exact hr.posted key hkey
      · split at hkey
        · rw [List.mem_singleton.mp hkey]
          exact hpack
        · cases hkey
    · intro handler hrun
      rw [hs.running] at hrun
      exact hr.running handler hrun
  | begin i key _ hkey hafter =>
    rw [hafter]
    refine ⟨hr.tasks, fun k hk => hr.posted k (List.mem_of_mem_eraseIdx hk), ?_⟩
    intro handler hrun
    cases hrun
    exact Handler.start_isTrigger (hr.posted key (List.mem_of_getElem? hkey))
  | handler op handler _ hrun hop hstep =>
    have hkeep := handle_tasks_posted b handler op
    rw [hstep] at hkeep
    refine ⟨hkeep.1 ▸ hr.tasks, hkeep.2 ▸ hr.posted, ?_⟩
    intro handler' hrun'
    exact (handle_isTrigger hop hstep hrun').trans (hr.running handler hrun)

end Bucket

end CppSerializer
