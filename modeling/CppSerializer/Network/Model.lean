import CppSerializer.Connection.Messages
import CppSerializer.Process.Steps

/-!
# The process and the sockets of its workers

In `Process` a worker acks, responds and deregisters when it likes. Here a worker is a socket: the
connection of a client that has sent `worker_reg`, whose bytes `df::worker` reads from then on.
`add_worker` moves the socket, so the bytes that have come and were not read by the connection are
read by the worker, and so are all that come later.

`on_worker_ack_` and `on_worker_response_` call the launcher within the handler of the worker. A
worker that becomes invalid is a `dereg` of the launcher, whether it has sent `worker_dereg` or its
header could not be read: the handlers set `valid_`, and nothing else.
-/

namespace CppSerializer

open Pack Bucket ReadLoop Transition
open Launcher (JobId WorkerId)

/-- `df::worker`, with the connection that its socket was of. -/
structure WorkerSocket where
  connection : Connection
  session : Worker.Session

/-- The process, with the sockets of the workers in the order of `add_worker`. -/
structure Network where
  process : Process
  workers : List WorkerSocket

namespace Network

def init : Network := ⟨Process.init, []⟩

/-- The steps: one of the process that no socket makes; bytes come in on a socket; a read of a
worker is complete or has failed; and handler `k` of a worker performs its next operation, where
`origin` is the job to whose packet the worker responds, if it does. -/
inductive Action
  | process (a : Process.Action)
  | arrive (c : Connection) (chunk : Bytes)
  | complete (w : WorkerId) (i : Nat)
  | fail (w : WorkerId) (i : Nat)
  | next (w : WorkerId) (k : Nat) (origin : Option JobId)
  deriving DecidableEq

/-- These steps of the process are made by bytes that come in or by workers. -/
def madeBySocket : Process.Action → Bool
  | .arrive .. => true
  | .launcher (.dereg ..) | .launcher (.fail ..) | .launcher (.ack ..)
  | .launcher (.respond ..) => true
  | .launcher (.startTriggerPost ..) | .launcher .addWorker | .launcher .startJobs
  | .launcher (.expire ..) | .launcher (.waited ..) | .launcher (.strand ..)
  | .launcher (.call ..) => false
  | .accept | .complete .. | .fail .. | .next .. | .topics .. => false

/-- A read of a connection whose socket was moved away gets no bytes. -/
def readsMoved (p : Process) : Process.Action → Bool
  | .complete c _ => (p.sessions[c]?.map fun s => s.moved).getD false
  | .accept | .arrive .. | .fail .. | .next .. | .topics .. | .launcher .. => false

/-! ## Handing a socket over -/

/-- The connection whose socket the step gives to a new worker, with the bytes that have come and
are not read. A socket that was moved away has none. -/
def handsOver (p : Process) : Process.Action → Option (Connection × Bytes)
  | .next c k _ _ => do
    let s ← p.sessions[c]?
    let op ← s.loop.handlers[k]?.bind List.head?
    if Process.moves op then some (c, if s.moved then [] else s.loop.buffer) else none
  | .accept | .arrive .. | .complete .. | .fail .. | .topics .. | .launcher .. => none

/-- `add_worker` makes the worker, which starts to read a header. -/
def addWorker (ws : List WorkerSocket) : Option (Connection × Bytes) → List WorkerSocket
  | some (c, bytes) => ws ++ [⟨c, ⟨true, (Loop.listening .header).arrive bytes⟩⟩]
  | none => ws

/-- The worker that has the socket of the connection. -/
def workerOf (n : Network) (c : Connection) : Option WorkerId :=
  n.workers.findIdx? fun ws => ws.connection == c

/-! ## The step function -/

def stepProcess (n : Network) (a : Process.Action) : Option Network :=
  (n.process.step a).map fun p => ⟨p, addWorker n.workers (handsOver n.process a)⟩

def stepWorker (n : Network) (w : WorkerId) (a : Worker.Session.Action) : Option Network := do
  let ws ← n.workers[w]?
  let s ← ws.session.step a
  return { n with workers := n.workers.set w { ws with session := s } }

/-- What an operation of worker `w` makes the launcher do. -/
def launcherOf (w : WorkerId) (origin : Option JobId) : Worker.Op → Option Launcher.Action
  | .effect (.onWorkerAck pack) => some (.ack w pack.header)
  | .effect (.onWorkerResponse pack) => some (.respond w origin pack)
  | .invalidate => some (.dereg w)
  | .effect (.parsed _) | .startReadHeader | .startReadBody _ => none

/-- The next operation of handler `k` of worker `w`. -/
def opOf (n : Network) (w : WorkerId) (k : Nat) : Option Worker.Op := do
  let ws ← n.workers[w]?
  let ops ← ws.session.loop.handlers[k]?
  ops.head?

/-- One atomic step. Nothing happens after a null pointer was followed. -/
def step (n : Network) (a : Action) : Option Network :=
  if n.process.launcher.crashed then none else
  match a with
  | .process a => if madeBySocket a || readsMoved n.process a then none else n.stepProcess a
  | .arrive c chunk => do
    let s ← n.process.sessions[c]?
    if s.moved then
      let w ← n.workerOf c
      n.stepWorker w (.arrive chunk)
    else n.stepProcess (.arrive c chunk)
  | .complete w i => n.stepWorker w (.complete i)
  | .fail w i => n.stepWorker w (.fail i)
  | .next w k origin => do
    let op ← n.opOf w k
    let m ← n.stepWorker w (.next k)
    match launcherOf w origin op with
    | some l => m.stepProcess (.launcher l)
    | none => some m

/-! ## What a step can be -/

/-- The steps of the process that a step is made of. -/
def steps (n : Network) : Action → List Process.Action
  | .process a => [a]
  | .arrive c chunk => if n.process.sessions[c]?.any fun s => s.moved then [] else [.arrive c chunk]
  | .complete .. | .fail .. => []
  | .next w k origin => (((n.opOf w k).bind (launcherOf w origin)).map .launcher).toList

/-- Everything that a step can be. -/
inductive Step (n : Network) : Action → Network → Prop
  | process (a : Process.Action) (own : madeBySocket a = false)
      (fresh : readsMoved n.process a = false) (p : Process) (step : n.process.step a = some p) :
      Step n (.process a) ⟨p, addWorker n.workers (handsOver n.process a)⟩
  | client (c : Connection) (chunk : Bytes) (s : Process.Session)
      (found : n.process.sessions[c]? = some s) (here : s.moved = false) (p : Process)
      (step : n.process.step (.arrive c chunk) = some p) :
      Step n (.arrive c chunk) ⟨p, n.workers⟩
  | worker (c : Connection) (chunk : Bytes) (s : Process.Session)
      (found : n.process.sessions[c]? = some s) (moved : s.moved = true) (w : WorkerId)
      (owner : n.workerOf c = some w) (ws : WorkerSocket) (there : n.workers[w]? = some ws)
      (t : Worker.Session) (step : ws.session.step (.arrive chunk) = some t) :
      Step n (.arrive c chunk) { n with workers := n.workers.set w { ws with session := t } }
  | complete (w : WorkerId) (i : Nat) (ws : WorkerSocket) (there : n.workers[w]? = some ws)
      (t : Worker.Session) (step : ws.session.step (.complete i) = some t) :
      Step n (.complete w i) { n with workers := n.workers.set w { ws with session := t } }
  | fail (w : WorkerId) (i : Nat) (ws : WorkerSocket) (there : n.workers[w]? = some ws)
      (t : Worker.Session) (step : ws.session.step (.fail i) = some t) :
      Step n (.fail w i) { n with workers := n.workers.set w { ws with session := t } }
  | next (w : WorkerId) (k : Nat) (origin : Option JobId) (ws : WorkerSocket)
      (there : n.workers[w]? = some ws) (op : Worker.Op) (ops : List Worker.Op)
      (code : ws.session.loop.handlers[k]? = some (op :: ops)) (t : Worker.Session)
      (step : ws.session.step (.next k) = some t) (p : Process)
      (performed : launcherOf w origin op = none ∧ p = n.process ∨
        ∃ l, launcherOf w origin op = some l ∧ n.process.step (.launcher l) = some p) :
      Step n (.next w k origin) ⟨p, n.workers.set w { ws with session := t }⟩

theorem stepWorker_some {n m : Network} {w : WorkerId} {a : Worker.Session.Action}
    (h : n.stepWorker w a = some m) : ∃ ws t, n.workers[w]? = some ws ∧
      ws.session.step a = some t ∧
      m = { n with workers := n.workers.set w { ws with session := t } } := by
  simp only [stepWorker, Option.bind_eq_bind, Option.bind_eq_some_iff] at h
  obtain ⟨ws, hws, t, ht, h⟩ := h
  cases h
  exact ⟨ws, t, hws, ht, rfl⟩

theorem opOf_some {n : Network} {w : WorkerId} {k : Nat} {op : Worker.Op}
    (h : n.opOf w k = some op) : ∃ ws ops, n.workers[w]? = some ws ∧
      ws.session.loop.handlers[k]? = some (op :: ops) := by
  simp only [opOf, Option.bind_eq_bind, Option.bind_eq_some_iff] at h
  obtain ⟨ws, hws, ops, hops, hhead⟩ := h
  obtain ⟨ops, rfl⟩ := List.head?_eq_some_iff.mp hhead
  exact ⟨ws, ops, hws, hops⟩

theorem opOf_eq {n : Network} {w : WorkerId} {k : Nat} {ws : WorkerSocket} {op : Worker.Op}
    {ops : List Worker.Op} (hws : n.workers[w]? = some ws)
    (hcode : ws.session.loop.handlers[k]? = some (op :: ops)) : n.opOf w k = some op := by
  simp only [opOf, hws, hcode, Option.bind_eq_bind, Option.bind_some, List.head?_cons]

theorem step_cases {n m : Network} {a : Action} (h : n.step a = some m) : Step n a m := by
  unfold step at h
  split at h
  · cases h
  cases a with
  | process a =>
    simp only at h
    split at h
    · cases h
    · rename_i hown
      rw [Bool.not_eq_true, Bool.or_eq_false_iff] at hown
      obtain ⟨p, hp, rfl⟩ := Option.map_eq_some_iff.mp h
      exact .process a hown.1 hown.2 p hp
  | arrive c chunk =>
    simp only [Option.bind_eq_bind, Option.bind_eq_some_iff] at h
    obtain ⟨s, hs, h⟩ := h
    split at h
    · rename_i hmoved
      obtain ⟨w, hw, h⟩ := Option.bind_eq_some_iff.mp h
      obtain ⟨ws, t, hws, ht, rfl⟩ := stepWorker_some h
      exact .worker c chunk s hs hmoved w hw ws hws t ht
    · rename_i hmoved
      obtain ⟨p, hp, rfl⟩ := Option.map_eq_some_iff.mp h
      exact .client c chunk s hs (Bool.not_eq_true _ ▸ hmoved) p hp
  | complete w i =>
    obtain ⟨ws, t, hws, ht, rfl⟩ := stepWorker_some h
    exact .complete w i ws hws t ht
  | fail w i =>
    obtain ⟨ws, t, hws, ht, rfl⟩ := stepWorker_some h
    exact .fail w i ws hws t ht
  | next w k origin =>
    simp only [Option.bind_eq_bind, Option.bind_eq_some_iff] at h
    obtain ⟨op, hop, m', hm', h⟩ := h
    obtain ⟨ws, ops, hws, hops⟩ := opOf_some hop
    obtain ⟨ws', t, hws', ht, rfl⟩ := stepWorker_some hm'
    rw [hws] at hws'
    cases hws'
    split at h
    · rename_i l hl
      obtain ⟨p, hp, rfl⟩ := Option.map_eq_some_iff.mp h
      exact .next w k origin ws hws op ops hops t ht p (Or.inr ⟨l, hl, hp⟩)
    · rename_i hnone
      cases h
      exact .next w k origin ws hws op ops hops t ht n.process (Or.inl ⟨hnone, rfl⟩)

/-- The steps that a step is made of take the process to where it is after it. -/
theorem process_of_step {n m : Network} {a : Action} (h : n.step a = some m) :
    run Process.step n.process (n.steps a) = some m.process := by
  have hone : ∀ {b : Process.Action} {p : Process}, n.process.step b = some p →
      run Process.step n.process [b] = some p := by
    intro b p hp
    rw [run_cons, hp]
    rfl
  cases step_cases h with
  | process a own fresh p step => exact hone step
  | client c chunk s found here p step =>
    rw [steps, found, Option.any_some, here, if_neg Bool.false_ne_true]
    exact hone step
  | worker c chunk s found moved w owner ws there t step =>
    rw [steps, found, Option.any_some, moved, if_pos rfl]
    rfl
  | complete w i ws there t step => rfl
  | fail w i ws there t step => rfl
  | next w k origin ws there op ops code t step p performed =>
    rw [steps, opOf_eq there code, Option.bind_some]
    rcases performed with ⟨hnone, rfl⟩ | ⟨l, hl, hp⟩
    · rw [hnone]
      rfl
    · rw [hl]
      exact hone hp

/-! ## Runs -/

/-- The steps of the process in a run. -/
def processRun (as : List Action) : List Process.Action := trace step steps init as

/-- The process goes through a run of its own. -/
theorem run_process {as : List Action} {n : Network} (hrun : run step init as = some n) :
    run Process.step Process.init (processRun as) = some n.process := by
  refine run_induction
    (P := fun as n => run Process.step Process.init (processRun as) = some n.process)
    rfl ?_ as n hrun
  intro as n a m hn ih hm
  rw [processRun, trace_concat hn, run_append]
  change (run Process.step Process.init (processRun as)).bind _ = _
  rw [ih]
  exact process_of_step hm

/-- What holds of the steps of a run of the process held of those before the last. -/
theorem guarded_before {G : Process → Process.Action → Prop} {as : List Action} {n : Network}
    (hrun : run step init as = some n) {a : Action}
    (h : Guarded Process.step G Process.init (processRun (as ++ [a]))) :
    Guarded Process.step G Process.init (processRun as) := by
  rw [processRun, trace_concat hrun] at h
  exact h.prefix

end Network

end CppSerializer
