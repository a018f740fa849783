import CppSerializer.Connection.Handlers
import CppSerializer.Launcher.Model
import CppSerializer.Topics.Model

/-!
# The server process

`main.cpp` as a whole: the connections of all clients, `topics` and the launcher. Each of the
three has its step function; here the operations of the handlers of a connection post tasks to
the topics, make jobs in the launcher and hand sockets over to it, and the outputs of the topics
and the completions of jobs come back to the connections.

The handlers of a connection run operation by operation, so any two handlers, tasks and calls
interleave. What is sent of a write is not followed: a write is what `serialize` has made of the
packet, with the place it was started from.
-/

namespace CppSerializer.Process

open Pack Bucket ReadLoop TcpConnection

/-! ## Connections -/

/-- A header that was parsed, with the body when it is that of a put and was read. -/
structure Request where
  header : PacketHeader
  body : Option Bytes
  deriving DecidableEq

/-- Where `start_write` was called: for a request, in its handler or its task; by a slot; or in
the completion of a job. -/
inductive Origin
  | control (request : Nat)
  | listener
  | job
  deriving DecidableEq

structure Write where
  origin : Origin
  pack : Packet
  deriving DecidableEq

/-- `tcp_connection`. `moved` says that its socket was given to a worker; `requests` are the
headers it has parsed and `writes` the calls of `start_write`. -/
structure Session where
  loop : Loop Read Op UnitT
  moved : Bool
  requests : List Request
  writes : List Write
  deriving DecidableEq

/-- A connection that was just accepted. -/
def Session.accepted : Session := ⟨.listening .header, false, [], []⟩

/-- What a read that is complete adds to the requests. -/
def record (requests : List Request) (r : Read) (buf : Bytes) : List Request :=
  match r with
  | .header =>
    match PacketHeader.parse buf 0 with
    | some h => requests ++ [⟨h, none⟩]
    | none => requests
  | .body request _ => requests.modify request fun q => { q with body := some buf }
  | .trigger _ _ => requests

/-- Read `i` of the connection is complete. -/
def Session.complete (s : Session) (i : Nat) : Option Session := do
  let r ← s.loop.reads[i]?
  let loop ← s.loop.complete (program s.requests.length) i
  return { s with loop := loop, requests := record s.requests r (s.loop.buffer.take r.size) }

/-- `start_write`. -/
def Session.write (s : Session) (origin : Origin) (pack : Packet) : Option Session := do
  let (pack, _) ← pack.serialize
  return { s with writes := s.writes ++ [⟨origin, pack⟩] }

/-- A handler is posted. -/
def Session.post (s : Session) (code : List Op) : Session :=
  { s with loop := { s.loop with handlers := s.loop.handlers ++ [code] } }

end Process

open Pack Bucket ReadLoop TcpConnection Process

/-- The process. `owners` are the connections whose triggers have made the jobs. -/
structure Process where
  sessions : List Session
  topics : Topics
  launcher : Launcher.State
  owners : List Connection
  deriving DecidableEq

namespace Process

def init : Process := ⟨[], Topics.init, Launcher.State.init, []⟩

/-- The steps: a client connects; bytes of a client come in; a read of a connection is complete
or has failed; handler `k` of a connection performs its next operation, and the salt and the
sequence are drawn if it makes a job; and the steps of the topics and of the launcher that no
connection makes. -/
inductive Action
  | accept
  | arrive (c : Connection) (chunk : Bytes)
  | complete (c : Connection) (i : Nat)
  | fail (c : Connection) (i : Nat)
  | next (c : Connection) (k : Nat) (randomSalt sequence : List.Vector UnitT 4)
  | topics (a : Topics.Action)
  | launcher (a : Launcher.Action)
  deriving DecidableEq

/-- The tasks are posted by connections. -/
def topicsPost : Topics.Action → Bool
  | .put .. | .get .. => true
  | .task .. | .begin .. | .handler .. => false

/-- These calls are made by connections. -/
def launcherCall : Launcher.Action → Bool
  | .startTriggerPost .. | .addWorker | .startJobs => true
  | .dereg .. | .fail .. | .ack .. | .respond .. | .expire .. | .waited .. | .strand ..
  | .call .. => false

/-! ## The step function -/

def setSession (p : Process) (c : Connection) (s : Session) : Process :=
  { p with sessions := p.sessions.set c s }

def write (p : Process) (c : Connection) (origin : Origin) (pack : Packet) : Option Process := do
  let s ← p.sessions[c]?
  let s ← s.write origin pack
  return p.setSession c s

/-- What the topics make others do. -/
def output (p : Process) : Topics.Output → Option Process
  | .reply self request resp => p.write self (.control request) resp
  | .call listener pack => p.write listener.connection .listener pack
  | .post _ => some p

def stepTopics (p : Process) (a : Topics.Action) : Option Process := do
  let (t, out) ← p.topics.step a
  out.foldlM output { p with topics := t }

/-- The callback of a job is called. -/
def callback (p : Process) (done : Launcher.Completion) : Process :=
  match p.owners[done.callee]? with
  | some c => { p with sessions := p.sessions.modify c fun s => s.post (callbackCode done.pack) }
  | none => p

def stepLauncher (p : Process) (a : Launcher.Action) : Option Process := do
  let l ← p.launcher.step a
  let done := l.log.completions.drop p.launcher.log.completions.length
  return done.foldl callback { p with launcher := l }

/-- `add_worker` takes the socket. -/
def moveSocket (p : Process) (c : Connection) : Process :=
  { p with sessions := p.sessions.modify c fun s => { s with moved := true } }

/-- What an operation of a handler of connection `c` makes others do. -/
def effect (p : Process) (c : Connection) (randomSalt sequence : List.Vector UnitT 4)
    (request : Nat) : Effect → Option Process
  | .startStore pack => p.stepTopics (.put c request pack.header pack.data.buf)
  | .startLoad pack => p.stepTopics (.get c request pack.header)
  | .startWrite resp => p.write c (.control request) resp
  | .startTriggerPost body =>
    (p.stepLauncher (.startTriggerPost randomSalt sequence body)).map fun p =>
      { p with owners := p.owners ++ [c] }
  | .addWorker _ => (p.stepLauncher .addWorker).map fun p => p.moveSocket c
  | .startJobs => p.stepLauncher .startJobs
  | .parsed _ => some p

/-- An operation is performed; the reads are started by the loop. -/
def perform (p : Process) (c : Connection) (randomSalt sequence : List.Vector UnitT 4) :
    Op → Option Process
  | .effect request e => p.effect c randomSalt sequence request e
  | .callback resp => p.write c .job resp
  | .startReadHeader | .startReadBody _ _ | .startTrigger _ _ => some p

/-- Handler `k` of a connection performs its next operation. -/
def next (p : Process) (c : Connection) (k : Nat) (randomSalt sequence : List.Vector UnitT 4) :
    Option Process := do
  let s ← p.sessions[c]?
  let (op, loop) ← s.loop.next (program s.requests.length) k
  (p.setSession c { s with loop := loop }).perform c randomSalt sequence op

/-- One atomic step. Nothing happens after a null pointer was followed. -/
def step (p : Process) (a : Action) : Option Process :=
  if p.launcher.crashed then none else
  match a with
  | .accept => some { p with sessions := p.sessions ++ [Session.accepted] }
  | .arrive c chunk => p.sessions[c]?.map fun s =>
    p.setSession c { s with loop := s.loop.arrive chunk }
  | .complete c i => do
    let s ← p.sessions[c]?
    let s ← s.complete i
    return p.setSession c s
  | .fail c i => do
    let s ← p.sessions[c]?
    let loop ← s.loop.fail (program s.requests.length) i
    return p.setSession c { s with loop := loop }
  | .next c k randomSalt sequence => p.next c k randomSalt sequence
  | .topics a => if topicsPost a then none else p.stepTopics a
  | .launcher a => if launcherCall a then none else p.stepLauncher a

end Process

end CppSerializer
