import CppSerializer.Pack.Key
import CppSerializer.Bucket.Model

/-!
# Topics

The `topics` map of `main.cpp`, with the buckets in it and the `start_store` and `start_load`
tasks of all connections. `contains`, `emplace` and `at` are steps of their own, so tasks for one
topic can create it at the same time. A task that has called `at` keeps the reference it was
given, and a posted handler that of its bucket.

The log holds the packets given to `start_store`, what `get_bucket` has returned, and what went
through the buckets. No step reads it.
-/

namespace CppSerializer.Topics

open Pack Bucket UnorderedMap

/-- A reference to the bucket of an entry. -/
abbrev BucketRef := Nat

/-- A task, with the number that its connection gives to the request, and with the bucket that
`get_bucket` has returned last. -/
structure Task extends Bucket.Task where
  request : Nat
  found : Option BucketRef
  deriving DecidableEq

/-- A payload that a task has pushed. -/
structure Push where
  bucket : BucketRef
  self : Connection
  request : Nat
  data : PacketData
  deriving DecidableEq

/-- A listener that the task of a get has connected. -/
structure Connect where
  bucket : BucketRef
  listener : Listener
  header : PacketHeader
  deriving DecidableEq

/-- A packet that a bucket has handed to a listener. -/
structure Handed where
  bucket : BucketRef
  listener : Listener
  pack : Packet
  deriving DecidableEq

structure Log where
  puts : List Packet
  buckets : List (PacketHeader × BucketRef)
  pushed : List Push
  connects : List Connect
  handed : List Handed
  deriving DecidableEq

end Topics

open Pack Bucket UnorderedMap

/-- `topics`, in the order of the insertions, with the tasks. -/
structure Topics where
  entries : List (PacketHeader × Bucket)
  tasks : List Topics.Task
  log : Topics.Log
  deriving DecidableEq

namespace Topics

def init : Topics := ⟨[], [], ⟨[], [], [], [], []⟩⟩

/-- What a step makes others do: the task of a put writes the ack, a slot is called, a body is
posted. -/
inductive Output
  | reply (self : Connection) (request : Nat) (resp : Packet)
  | call (listener : Listener) (pack : Packet)
  | post (body : Bytes)
  deriving DecidableEq

/-- The steps: the task of a put or a get is posted; task `i` performs its next step; handler `i`
of a bucket begins; the running handler of a bucket performs its next step. -/
inductive Action
  | put (self : Connection) (request : Nat) (header : PacketHeader) (payload : Bytes)
  | get (self : Connection) (request : Nat) (header : PacketHeader)
  | task (i : Nat) (op : TaskOp)
  | begin (r : BucketRef) (i : Nat)
  | handler (r : BucketRef) (op : HandlerOp)
  deriving DecidableEq

/-! ## The step function -/

def startStore (t : Topics) (self : Connection) (request : Nat) (pack : Packet) : Topics :=
  { t with
    tasks := t.tasks ++ [⟨Bucket.startStore self pack, request, none⟩]
    log := { t.log with puts := t.log.puts ++ [pack] } }

def startLoad (t : Topics) (self : Connection) (request : Nat) (pack : Packet) : Topics :=
  { t with tasks := t.tasks ++ [⟨Bucket.startLoad self pack, request, none⟩] }

/-- The bucket of a new entry. -/
def newBucket : Bucket := { Bucket.empty with contained := true }

def insert (t : Topics) (h : PacketHeader) : Topics :=
  { t with entries := emplace PacketHeader.keyTraits t.entries h newBucket }

/-- `get_bucket` has returned `r`. -/
def returned (t : Topics) (h : PacketHeader) (r : BucketRef) : Topics :=
  { t with log := { t.log with buckets := t.log.buckets ++ [(h, r)] } }

def setTask (t : Topics) (i : Nat) (task : Task) : Topics := { t with tasks := t.tasks.set i task }

def setBucket (t : Topics) (r : BucketRef) (b : Bucket) : Topics :=
  { t with entries := put t.entries r b }

def Log.use (log : Log) (r : BucketRef) (b : Bucket) (task : Task) : TaskOp → Log
  | .pushMessage =>
    { log with pushed := log.pushed ++ [⟨r, task.self, task.request, task.pack.data⟩] }
  | .getConnect =>
    { log with connects := log.connects ++ [⟨r, ⟨b.nextSlot, task.self⟩, task.pack.header⟩] }
  | _ => log

/-- A step of the task that is one of the bucket it has found. -/
def use (t : Topics) (i : Nat) (task : Task) (op : TaskOp) : Option (Topics × List Output) := do
  let r ← task.found
  let e ← t.entries[r]?
  let (b, _) ← e.2.perform i task.toTask op
  return ({ t.setBucket r b with log := t.log.use r e.2 task op }.setTask i task, [])

/-- The effect of a step of a task, `i` being its place and `task` the task afterwards. -/
def perform (t : Topics) (i : Nat) (task : Task) : TaskOp → Option (Topics × List Output)
  | .contains =>
    let code := if contains PacketHeader.keyTraits t.entries task.pack.header then task.code
      else .emplace :: task.code
    some (t.setTask i { task with code := code }, [])
  | .emplace => some ((t.insert task.pack.header).setTask i task, [])
  -- `at` throws when there is no entry
  | .at => (find? PacketHeader.keyTraits t.entries task.pack.header).map fun r =>
    ((t.returned task.pack.header r).setTask i { task with found := some r }, [])
  | .startWrite =>
    some (t.setTask i task, [.reply task.self task.request (response task.pack .ack)])
  | .pushMessage => t.use i task .pushMessage
  | .getConnect => t.use i task .getConnect
  | .startHandleEvents => t.use i task .startHandleEvents

/-- Task `i` performs the step `op`, which has to be its next one. -/
def stepTask (t : Topics) (i : Nat) (op : TaskOp) : Option (Topics × List Output) :=
  match t.tasks[i]? with
  | some ⟨⟨self, pack, next :: code⟩, request, found⟩ =>
    if next = op then t.perform i ⟨⟨self, pack, code⟩, request, found⟩ op else none
  | _ => none

/-- What a handler makes others do. The acks are written by the tasks. -/
def Output.ofHandler : Bucket.Output → Option Output
  | .write _ _ => none
  | .call listener pack => some (.call listener pack)
  | .post body => some (.post body)

/-- The calls of slots among the outputs of bucket `r`. -/
def Handed.ofHandler (r : BucketRef) : Bucket.Output → Option Handed
  | .call listener pack => some ⟨r, listener, pack⟩
  | .write _ _ | .post _ => none

def begin (t : Topics) (r : BucketRef) (i : Nat) : Option Topics := do
  let e ← t.entries[r]?
  let b ← e.2.begin i
  return t.setBucket r b

def stepHandler (t : Topics) (r : BucketRef) (op : HandlerOp) : Option (Topics × List Output) := do
  let e ← t.entries[r]?
  let (b, out) ← e.2.stepHandler op
  return ({ t.setBucket r b with
    log := { t.log with handed := t.log.handed ++ out.filterMap (Handed.ofHandler r) } },
    out.filterMap Output.ofHandler)

/-- One atomic step. -/
def step (t : Topics) : Action → Option (Topics × List Output)
  | .put self request header payload => some (t.startStore self request ⟨header, ⟨payload⟩⟩, [])
  | .get self request header => some (t.startLoad self request ⟨header, ⟨[]⟩⟩, [])
  | .task i op => t.stepTask i op
  | .begin r i => (t.begin r i).map fun t => (t, [])
  | .handler r op => t.stepHandler r op

/-! ## What one step can do -/

/-- The task before it has performed `op`. -/
def Task.before (task : Task) (op : TaskOp) : Task := { task with code := op :: task.code }

theorem stepTask_some {t t' : Topics} {i : Nat} {op : TaskOp} {out : List Output}
    (h : t.stepTask i op = some (t', out)) :
    ∃ task : Task, t.tasks[i]? = some (task.before op) ∧ t.perform i task op = some (t', out) := by
  unfold stepTask at h
  split at h
  · rename_i self pack next code request found htask
    split at h
    · rename_i hop
      subst hop
      exact ⟨⟨⟨self, pack, code⟩, request, found⟩, htask, h⟩
    · cases h
  · cases h

/-- Everything that a step can be. -/
inductive Step (t t' : Topics) : Action → List Output → Prop
  | put (self : Connection) (request : Nat) (header : PacketHeader) (payload : Bytes)
      (after : t' = t.startStore self request ⟨header, ⟨payload⟩⟩) :
      Step t t' (.put self request header payload) []
  | get (self : Connection) (request : Nat) (header : PacketHeader)
      (after : t' = t.startLoad self request ⟨header, ⟨[]⟩⟩) :
      Step t t' (.get self request header) []
  | contains (i : Nat) (task : Task) (before : t.tasks[i]? = some (task.before .contains))
      (code : List TaskOp) (look : code = if contains PacketHeader.keyTraits t.entries
        task.pack.header then task.code else .emplace :: task.code)
      (after : t' = t.setTask i { task with code := code }) : Step t t' (.task i .contains) []
  | emplace (i : Nat) (task : Task) (before : t.tasks[i]? = some (task.before .emplace))
      (after : t' = (t.insert task.pack.header).setTask i task) : Step t t' (.task i .emplace) []
  | found (i : Nat) (task : Task) (before : t.tasks[i]? = some (task.before .at)) (r : BucketRef)
      (find : find? PacketHeader.keyTraits t.entries task.pack.header = some r)
      (after : t' = (t.returned task.pack.header r).setTask i { task with found := some r }) :
      Step t t' (.task i .at) []
  | use (i : Nat) (op : TaskOp)
      (hop : op = .pushMessage ∨ op = .getConnect ∨ op = .startHandleEvents) (task : Task)
      (before : t.tasks[i]? = some (task.before op)) (r : BucketRef)
      (found : task.found = some r) (e : PacketHeader × Bucket) (entry : t.entries[r]? = some e)
      (b : Bucket) (out : List Bucket.Output) (step : TaskStep e.2 b op task.toTask out)
      (after : t' = { t.setBucket r b with log := t.log.use r e.2 task op }.setTask i task) :
      Step t t' (.task i op) []
  | startWrite (i : Nat) (task : Task) (before : t.tasks[i]? = some (task.before .startWrite))
      (after : t' = t.setTask i task) : Step t t' (.task i .startWrite)
        [.reply task.self task.request (response task.pack .ack)]
  | begin (r : BucketRef) (i : Nat) (e : PacketHeader × Bucket) (entry : t.entries[r]? = some e)
      (key : Packet) (idle : e.2.running = none) (posted : e.2.posted[i]? = some key)
      (after : t' = t.setBucket r { e.2 with
        posted := e.2.posted.eraseIdx i, running := some (Handler.start key) }) :
      Step t t' (.begin r i) []
  | handler (r : BucketRef) (op : HandlerOp) (e : PacketHeader × Bucket)
      (entry : t.entries[r]? = some e) (h : Handler) (running : e.2.running = some h)
      (next : h.next = op) (b : Bucket) (out : List Bucket.Output)
      (handle : e.2.handle h op = (b, out))
      (after : t' = { t.setBucket r b with log := { t.log with
        handed := t.log.handed ++ out.filterMap (Handed.ofHandler r) } }) :
      Step t t' (.handler r op) (out.filterMap Output.ofHandler)

theorem use_some {t t' : Topics} {i : Nat} {task : Task} {op : TaskOp} {out : List Output}
    (h : t.use i task op = some (t', out))
    (hop : op = .pushMessage ∨ op = .getConnect ∨ op = .startHandleEvents)
    (hbefore : t.tasks[i]? = some (task.before op)) : Topics.Step t t' (.task i op) out := by
  simp only [use, Option.bind_eq_bind, Option.bind_eq_some_iff] at h
  obtain ⟨r, hr, e, he, ⟨b, out'⟩, hperform, h⟩ := h
  cases h
  exact .use i op hop task hbefore r hr e he b out' (perform_spec hperform) rfl

theorem step_cases {t t' : Topics} {a : Action} {out : List Output}
    (h : t.step a = some (t', out)) : Topics.Step t t' a out := by
  cases a with
  | put self request header payload =>
    cases h
    exact .put _ _ _ _ rfl
  | get self request header =>
    cases h
    exact .get _ _ _ rfl
  | task i op =>
    obtain ⟨task, hbefore, hperform⟩ := stepTask_some h
    cases op with
    | contains =>
      cases hperform
      exact .contains i task hbefore _ rfl rfl
    | emplace =>
      cases hperform
      exact .emplace i task hbefore rfl
    | «at» =>
      obtain ⟨r, hr, he⟩ := Option.map_eq_some_iff.mp hperform
      cases he
      exact .found i task hbefore r hr rfl
    | startWrite =>
      cases hperform
      exact .startWrite i task hbefore rfl
    | pushMessage | getConnect | startHandleEvents => exact use_some hperform (by simp) hbefore
  | begin r i =>
    obtain ⟨t₁, hbegin, he⟩ := Option.map_eq_some_iff.mp h
    cases he
    simp only [begin, Option.bind_eq_bind, Option.bind_eq_some_iff] at hbegin
    obtain ⟨e, he, b, hb, hafter⟩ := hbegin
    cases hafter
    obtain ⟨hidle, key, hkey, rfl⟩ := begin_some hb
    exact .begin r i e he key hidle hkey rfl
  | handler r op =>
    simp only [step, stepHandler, Option.bind_eq_bind, Option.bind_eq_some_iff] at h
    obtain ⟨e, he, ⟨b, out'⟩, hb, hafter⟩ := h
    cases hafter
    obtain ⟨handler, hrun, hnext, hhandle⟩ := stepHandler_some hb
    exact .handler r op e he handler hrun hnext b out' hhandle rfl

end Topics

end CppSerializer
