import CppSerializer.Bucket.Model

/-!
# Histories of a bucket

A run of a bucket together with a log of what happened in it: the messages pushed and
popped, the slots connected, the calls of slots with the emit they belong to, and the
bodies posted. The log only observes; `step_bucket` says that the bucket runs as it does
without it.
-/

namespace CppSerializer.Bucket

open Pack Transition

/-- A successful `try_pop`: the message, and the packet captured by the handler. -/
structure Pop where
  message : PacketData
  key : Packet
  deriving DecidableEq

/-- The call of a slot in the `emit`-th emit of the bucket. -/
structure Call where
  emit : Nat
  listener : Listener
  pack : Packet
  deriving DecidableEq

/-- `emits` holds the slots that were connected at each emit. -/
structure Log where
  pushed : List PacketData
  pops : List Pop
  connected : List Listener
  emits : List (List Listener)
  calls : List Call
  bodies : List Bytes
  deriving DecidableEq

namespace Log

def empty : Log := ⟨[], [], [], [], [], []⟩

/-- The messages popped, in order. -/
def popped (log : Log) : List PacketData := log.pops.map Pop.message

/-- The data of the calls of a slot in one emit. -/
def callsOf (log : Log) (emit : Nat) (l : Listener) : List PacketData :=
  (log.calls.filter fun c => c.emit = emit ∧ c.listener = l).map fun c => c.pack.data

end Log

/-- A call among the outputs, as a call of the given emit. -/
def Output.call? (emit : Nat) : Output → Option Call
  | .call listener pack => some ⟨emit, listener, pack⟩
  | _ => none

/-- A body among the outputs. -/
def Output.body? : Output → Option Bytes
  | .post body => some body
  | _ => none

/-- The log after a step that `b` takes with the given outputs. -/
def Log.record (log : Log) (b : Bucket) (out : List Output) : Action → Log
  | .task i .pushMessage =>
    { log with pushed := log.pushed ++ (b.tasks[i]?.map fun task => task.pack.data).toList }
  | .task i .getConnect =>
    { log with connected := log.connected ++
        (b.tasks[i]?.map fun task => (⟨b.nextSlot, task.self⟩ : Listener)).toList }
  | .handler .tryPop | .handler .triggerPop =>
    { log with pops := log.pops ++ (b.messageQueue.head?.bind fun m =>
        b.running.map fun h => (⟨m, h.key⟩ : Pop)).toList }
  | .handler .emit =>
    { log with
      emits := log.emits ++ [b.listeners]
      calls := log.calls ++ out.filterMap (Output.call? log.emits.length) }
  | .handler .startTriggerPost =>
    { log with bodies := log.bodies ++ out.filterMap Output.body? }
  | _ => log

/-- A bucket with the log of its run. -/
structure State where
  bucket : Bucket
  log : Log
  deriving DecidableEq

namespace State

def init : State := ⟨Bucket.empty, Log.empty⟩

def step (topic : Topic) (s : State) (a : Action) : Option State :=
  (s.bucket.step topic a).map fun r => ⟨r.1, s.log.record s.bucket r.2 a⟩

theorem step_some {topic : Topic} {s t : State} {a : Action} (h : s.step topic a = some t) :
    ∃ out, s.bucket.step topic a = some (t.bucket, out) ∧
      t.log = s.log.record s.bucket out a := by
  obtain ⟨⟨b, out⟩, hb, rfl⟩ := Option.map_eq_some_iff.mp h
  exact ⟨out, hb, rfl⟩

end State

theorem Log.record_task {log : Log} {b : Bucket} {i : Nat} {op : TaskOp} {out : List Output}
    {self : Connection} {pack : Packet} {code : List TaskOp}
    (htask : b.tasks[i]? = some ⟨self, pack, op :: code⟩) :
    log.record b out (.task i op) = { log with
      pushed := log.pushed ++ if op = .pushMessage then [pack.data] else []
      connected := log.connected ++ if op = .getConnect then [⟨b.nextSlot, self⟩] else [] } := by
  cases op <;> simp [Log.record, htask]

theorem Log.record_post (log : Log) (b : Bucket) (out : List Output) {a : Action}
    (ha : a.IsPost) : log.record b out a = log := by
  cases a with
  | put self header payload => rfl
  | get self header => rfl
  | task i op | begin i | handler op => exact absurd ha id

/-! ## The queue -/

/-- The step takes the first message of the queue. -/
def HandlerOp.pops : HandlerOp → Bool
  | .triggerPop | .tryPop => true
  | .startTriggerPost | .listenerEmpty | .queueEmpty | .emit | .disconnectAllSlots => false

/-- What a handler takes from the queue stood at its front. -/
theorem handle_messageQueue {b b' : Bucket} {h : Handler} {op : HandlerOp} {out : List Output}
    (hstep : b.handle h op = (b', out)) :
    (if op.pops then b.messageQueue.head?.toList else []) ++ b'.messageQueue = b.messageQueue := by
  cases op with
  | triggerPop | tryPop =>
    rw [handle] at hstep
    split at hstep
    · rename_i m queue hqueue
      cases hstep
      rw [hqueue]
      rfl
    · rename_i hqueue
      cases hstep
      rw [hqueue]
      rfl
  | listenerEmpty | queueEmpty =>
    rw [handle] at hstep
    split at hstep <;> cases hstep <;> rfl
  | startTriggerPost | emit | disconnectAllSlots =>
    cases hstep
    rfl

theorem Log.record_handler (log : Log) {b : Bucket} {h : Handler} (hrun : b.running = some h)
    (op : HandlerOp) (out : List Output) :
    (log.record b out (.handler op)).pushed = log.pushed ∧
      (log.record b out (.handler op)).popped =
        log.popped ++ if op.pops then b.messageQueue.head?.toList else [] := by
  cases op with
  | triggerPop | tryPop =>
    refine ⟨rfl, ?_⟩
    rw [Log.record, hrun]
    cases hqueue : b.messageQueue <;> simp [Log.popped, HandlerOp.pops]
  | startTriggerPost | listenerEmpty | queueEmpty | emit | disconnectAllSlots =>
    exact ⟨rfl, (List.append_nil _).symm⟩

/-- The queue is first in, first out, whatever the topic: what was popped and then what is queued is
what was pushed. -/
theorem run_fifo {topic : Topic} {as : List Action} {s : State}
    (hrun : run (State.step topic) State.init as = some s) :
    s.log.popped ++ s.bucket.messageQueue = s.log.pushed := by
  refine run_induction (P := fun _ s => s.log.popped ++ s.bucket.messageQueue = s.log.pushed) rfl
    ?_ as s hrun
  intro as s a t hs ih ht
  obtain ⟨out, hb, hlog⟩ := State.step_some ht
  cases step_cases hb with
  | post _ ha task _ _ hnew =>
    rw [hlog, Log.record_post _ _ _ ha, hnew]
    exact ih
  | task i op _ self pack code htask hperform =>
    rw [hlog, Log.record_task htask, (perform_spec hperform).messageQueue, ← ih]
    exact (List.append_assoc ..).symm
  | begin i key hidle hkey hnew =>
    rw [hlog, hnew]
    exact ih
  | handler op handler _ hrun hop hstep =>
    obtain ⟨hpushed, hpopped⟩ := s.log.record_handler hrun op out
    rw [hlog, hpushed, hpopped, List.append_assoc, handle_messageQueue hstep]
    exact ih

/-- The message that the running handler has popped and not emitted yet. -/
def State.owed (s : State) : List PacketData :=
  match s.bucket.running with
  | some h => if h.next = .emit then [h.resp.data] else []
  | none => []

/-! ## Emits -/

theorem emit_listener_data (emitNo : Nat) (resp : Packet) (ls : List Listener) :
    ((emit resp ls).1.filterMap (Output.call? emitNo)).map
      (fun c => (c.emit, c.listener, c.pack.data)) = ls.map fun l => (emitNo, l, resp.data) := by
  induction ls generalizing resp with
  | nil => rfl
  | cons l ls ih =>
    rw [emit, List.filterMap_cons]
    simp only [Output.call?, List.map_cons, ih]
    rfl

/-- The calls that an emit makes, listener by listener. -/
theorem mem_calls_of_emit {emitNo : Nat} {resp : Packet} {ls : List Listener} {c : Call}
    (h : c ∈ (emit resp ls).1.filterMap (Output.call? emitNo)) :
    c.emit = emitNo ∧ c.listener ∈ ls ∧ c.pack.data = resp.data := by
  have hmem := List.mem_map_of_mem (f := fun c : Call => (c.emit, c.listener, c.pack.data)) h
  rw [emit_listener_data] at hmem
  obtain ⟨l, hl, he⟩ := List.mem_map.mp hmem
  simp only [Prod.mk.injEq] at he
  obtain ⟨he, rfl, hdata⟩ := he
  exact ⟨he.symm, hl, hdata.symm⟩

theorem exists_call_of_emit {resp : Packet} {ls : List Listener} (emitNo : Nat) {l : Listener}
    (h : l ∈ ls) : ∃ c ∈ (emit resp ls).1.filterMap (Output.call? emitNo), c.listener = l := by
  have hmem : (emitNo, l, resp.data) ∈ ls.map fun l => (emitNo, l, resp.data) :=
    List.mem_map_of_mem h
  rw [← emit_listener_data] at hmem
  obtain ⟨c, hc, he⟩ := List.mem_map.mp hmem
  simp only [Prod.mk.injEq] at he
  exact ⟨c, hc, he.2.1⟩

end CppSerializer.Bucket
