import CppSerializer.Library.Transition
import CppSerializer.Pack.Layout

/-!
# The launcher

`launcher.hpp` and what it uses of `worker.hpp`: the jobs that trigger requests make, the
loop of `start_jobs` that posts them to workers, and the handlers of what the workers send
back.

`start_trigger_post` and `start_jobs` run on any thread, so the step function performs one
atomic step of one such call: a push or a pop of the concurrent queue, an `emplace` in the
concurrent map, a look at one worker, a call of a worker or of a timer. The handlers of
`on_worker_ack` and `on_worker_response` exclude each other on `started_jobs_strand_`; of
those that are posted any may come next.

A pointer to a job or to a worker is its number. A dereference of a null `job_ptr` is
undefined; here it sets `crashed`, and nothing happens after it.
-/

namespace CppSerializer.Launcher

open Pack

/-! ## Jobs and workers -/

abbrev JobId := Nat

abbrev WorkerId := Nat

/-- `job::state`. -/
inductive JobState
  | registered
  | started
  | finished
  deriving DecidableEq

/-- The error code a wait is completed with. -/
inductive ErrorCode
  | success
  | operationAborted
  | other
  deriving DecidableEq

/-- The expiry of a timer: that of a new `steady_timer`, which has passed, or the one that
`expires_from_now(1s)` sets. -/
inductive Expiry
  | epoch
  | oneSecond
  deriving DecidableEq

/-- A `steady_timer` with the number of its pending waits. -/
structure Timer where
  expiry : Expiry
  waits : Nat
  deriving DecidableEq

/-- `job`. -/
structure Job where
  state : JobState
  pack : Packet
  timer : Timer
  deriving DecidableEq

/-- The job that `start_trigger_post` makes of a body, with the bytes that `gen` draws. -/
def Job.new (randomSalt sequence : List.Vector UnitT 4) (body : Bytes) : Job :=
  let header : PacketHeader :=
    { type := .err, key := List.Vector.replicate 32 0, datasize := 0
      sequence := List.Vector.replicate 4 0, randomSalt := List.Vector.replicate 4 0 }
  { state := .registered
    pack := {
      header := { header.gen randomSalt sequence with type := .workerPushRequest }
      data := ⟨body⟩ }
    timer := ⟨.epoch, 0⟩ }

/-- `df::worker`. `reading` says that its socket has not failed, and `posted` holds the
packets it was given, with their jobs. -/
structure Worker where
  valid : Bool
  reading : Bool
  posted : List (JobId × Packet)
  deriving DecidableEq

/-- `jobmap`, in the order of the insertions. -/
abbrev JobMap := List (PacketHeader × Option JobId)

namespace JobMap

def entry (m : JobMap) (h : PacketHeader) : Option (PacketHeader × Option JobId) :=
  m.find? fun e => e.1.keyCompare h

/-- `emplace`, which leaves an entry that is there already. -/
def emplace (m : JobMap) (h : PacketHeader) (j : JobId) : JobMap :=
  match m.entry h with
  | some _ => m
  | none => m ++ [(h, some j)]

/-- `operator[]`, which inserts a null pointer where there is no entry. -/
def index (m : JobMap) (h : PacketHeader) : JobMap × Option JobId :=
  match m.entry h with
  | some e => (m, e.2)
  | none => (m ++ [(h, none)], none)

/-- A job that is found was in the map, which is left as it is. -/
theorem index_fst {m : JobMap} {h : PacketHeader} {j : JobId} (hj : (m.index h).2 = some j) :
    (m.index h).1 = m := by
  unfold index at hj ⊢
  cases hentry : m.entry h with
  | none =>
    rw [hentry] at hj
    cases hj
  | some e => rfl

end JobMap

/-! ## Calls and handlers -/

/-- Where a call of `start_trigger_post` or `start_jobs` is. In `tryPop` the variable `j`
still points to the job of the last round of the loop; in `scan`, `rest` are the workers
that `get_available_worker` has yet to look at. -/
inductive Call
  | emplace (j : JobId)
  | tryPop (j : Option JobId)
  | scan (j : JobId) (rest : List WorkerId)
  | startPost (j : JobId) (w : WorkerId)
  | asyncWait (j : JobId)
  | expiresFromNow (j : JobId)
  | returned
  deriving DecidableEq

/-- The steps of the calls. `repush` is the branch that finds no worker: it pushes the job
again, asks for a new worker and leaves the loop. -/
inductive CallOp
  | emplace
  | tryPop
  | look (w : WorkerId)
  | repush
  | startPost
  | asyncWait
  | expiresFromNow
  deriving DecidableEq

/-- A handler posted through `started_jobs_strand_`. The responses are numbered in the order
in which they come in; the number is for the log. -/
inductive StrandHandler
  | ack (pack : PacketHeader)
  | response (number : Nat) (pack : Packet)
  deriving DecidableEq

/-- The call of the `on_completion_` of job `callee` with a response. -/
structure Completion where
  number : Nat
  callee : JobId
  pack : Packet
  deriving DecidableEq

/-- What has happened: the jobs in the order of their `emplace`, for every response the job
to whose packet it is one, if any, and the completions. No step reads it. -/
structure Log where
  entered : List JobId
  received : List (Option JobId)
  completions : List Completion
  deriving DecidableEq

/-- `launcher`, with the calls and handlers under way. `waited` holds the waits that are
completed and whose handlers have not run; `wakeups` counts the calls of
`create_worker`. -/
structure State where
  workers : List Worker
  jobs : List Job
  registeredJobs : List JobId
  startedJobs : JobMap
  calls : List Call
  strand : List StrandHandler
  waited : List (JobId × ErrorCode)
  wakeups : Nat
  crashed : Bool
  log : Log
  deriving DecidableEq

/-- The steps: a call of `start_trigger_post`, which makes the job and pushes it; of
`add_worker`; of `start_jobs`; a worker deregisters, its socket fails, which makes it invalid
unless it is a body that is read, it sends an ack, or a response, to the packet of job
`origin` if there is one; the timer of a job expires; and the steps of what is under way. -/
inductive Action
  | startTriggerPost (randomSalt sequence : List.Vector UnitT 4) (body : Bytes)
  | addWorker
  | startJobs
  | dereg (w : WorkerId)
  | fail (w : WorkerId) (inBody : Bool)
  | ack (w : WorkerId) (header : PacketHeader)
  | respond (w : WorkerId) (origin : Option JobId) (pack : Packet)
  | expire (j : JobId)
  | waited (i : Nat)
  | strand (i : Nat)
  | call (i : Nat) (op : CallOp)
  deriving DecidableEq

namespace State

def init : State := ⟨[], [], [], [], [], [], [], 0, false, ⟨[], [], []⟩⟩

/-! ## Timers -/

/-- The pending waits of a job's timer are completed with the error code. -/
def complete (s : State) (j : JobId) (ec : ErrorCode) : State :=
  match s.jobs[j]? with
  | some job =>
    { s with
      jobs := s.jobs.set j { job with timer := { job.timer with waits := 0 } }
      waited := s.waited ++ List.replicate job.timer.waits (j, ec) }
  | none => s

/-- The test of the handler of the wait. -/
def repushes (ec : ErrorCode) : Bool := ec != .success && ec != .operationAborted

/-- The handler of the wait runs. -/
def runWaited (s : State) (i : Nat) : Option State :=
  s.waited[i]?.map fun (j, ec) =>
    { s with
      waited := s.waited.eraseIdx i
      registeredJobs := if repushes ec then s.registeredJobs ++ [j] else s.registeredJobs }

def asyncWait (s : State) (j : JobId) : Option State :=
  s.jobs[j]?.map fun job =>
    { s with
      jobs := s.jobs.set j { job with timer := { job.timer with waits := job.timer.waits + 1 } } }

/-- `expires_from_now(1s)`. -/
def expiresFromNow (s : State) (j : JobId) : Option State :=
  (s.complete j .operationAborted).jobs[j]?.map fun job =>
    { s.complete j .operationAborted with
      jobs := (s.complete j .operationAborted).jobs.set j
        { job with timer := { job.timer with expiry := .oneSecond } } }

/-! ## Handlers of what workers send -/

/-- `job_ptr j = started_jobs_[header]`, and the rest of the handler with `*j`. -/
def withStarted (s : State) (header : PacketHeader) (f : State → JobId → Job → State) : State :=
  match s.startedJobs.index header with
  | (m, none) => { s with startedJobs := m, crashed := true }
  | (m, some j) =>
    match s.jobs[j]? with
    | some job => f { s with startedJobs := m } j job
    | none => { s with startedJobs := m, crashed := true }

/-- The handler of `on_worker_ack`. -/
def runAck (s : State) (header : PacketHeader) : State :=
  s.withStarted header fun s j job =>
    { s with jobs := s.jobs.set j { job with state := .started } }.complete j .operationAborted

/-- The handler of `on_worker_response`. -/
def runResponse (s : State) (number : Nat) (pack : Packet) : State :=
  s.withStarted pack.header fun s j job =>
    { s with
      jobs := s.jobs.set j { job with state := .finished }
      log := { s.log with completions := s.log.completions ++ [⟨number, j, pack⟩] } }

def runStrand (s : State) (i : Nat) : Option State :=
  s.strand[i]?.map fun handler =>
    let s := { s with strand := s.strand.eraseIdx i }
    match handler with
    | .ack header => s.runAck header
    | .response number pack => s.runResponse number pack

/-! ## Calls -/

def setCall (s : State) (i : Nat) (c : Call) : State := { s with calls := s.calls.set i c }

/-- `try_pop`, and what the loop does next. -/
def tryPop (s : State) (i : Nat) : State :=
  match s.registeredJobs with
  | j :: rest =>
    { s with registeredJobs := rest }.setCall i (.scan j (List.range s.workers.length))
  | [] => s.setCall i .returned

/-- `get_available_worker` looks at one worker. -/
def look (s : State) (i : Nat) (j : JobId) (rest : List WorkerId) (w : WorkerId) : Option State :=
  s.workers[w]?.map fun worker =>
    s.setCall i (if worker.valid then .startPost j w else .scan j (rest.erase w))

/-- `start_post`, which serializes the packet of the job. -/
def startPost (s : State) (i : Nat) (j : JobId) (w : WorkerId) : Option State := do
  let job ← s.jobs[j]?
  let worker ← s.workers[w]?
  let (pack, _) ← job.pack.serialize
  return { s with
    jobs := s.jobs.set j { job with pack := pack }
    workers := s.workers.set w { worker with posted := worker.posted ++ [(j, pack)] }
    calls := s.calls.set i (.asyncWait j) }

/-- Call `i` performs the step `op`, which has to be its next one. -/
def stepCall (s : State) (i : Nat) (op : CallOp) : Option State :=
  match s.calls[i]?, op with
  | some (.emplace j), .emplace =>
    s.jobs[j]?.map fun job =>
      { s with
        startedJobs := s.startedJobs.emplace job.pack.header j
        calls := s.calls.set i (.tryPop none)
        log := { s.log with entered := s.log.entered ++ [j] } }
  | some (.tryPop _), .tryPop => some (s.tryPop i)
  | some (.scan j rest), .look w => s.look i j rest w
  | some (.scan j []), .repush =>
    some ({ s with
      registeredJobs := s.registeredJobs ++ [j], wakeups := s.wakeups + 1 }.setCall i .returned)
  | some (.startPost j w), .startPost => s.startPost i j w
  | some (.asyncWait j), .asyncWait => (s.asyncWait j).map fun s => s.setCall i (.expiresFromNow j)
  | some (.expiresFromNow j), .expiresFromNow =>
    (s.expiresFromNow j).map fun s => s.setCall i (.tryPop (some j))
  | _, _ => none

/-! ## The step function -/

/-- The packet of job `j` was posted to worker `w`. -/
def PostedTo (s : State) (j : JobId) (w : WorkerId) : Prop :=
  ∃ worker, s.workers[w]? = some worker ∧ ∃ p ∈ worker.posted, p.1 = j

/-- The handlers that a worker's packet makes, when its socket is open. -/
def receive (s : State) (w : WorkerId) (handler : StrandHandler) : Option State :=
  match s.workers[w]? with
  | some worker => if worker.reading then some { s with strand := s.strand ++ [handler] } else none
  | none => none

/-- One atomic step. -/
def step (s : State) (a : Action) : Option State :=
  if s.crashed then none else
  match a with
  | .startTriggerPost randomSalt sequence body =>
    if PacketHeader.Drawable randomSalt ∧ PacketHeader.Drawable sequence then
      some { s with
        jobs := s.jobs ++ [Job.new randomSalt sequence body]
        registeredJobs := s.registeredJobs ++ [s.jobs.length]
        calls := s.calls ++ [.emplace s.jobs.length] }
    else none
  | .addWorker =>
    some { s with workers := s.workers ++ [⟨true, true, []⟩], calls := s.calls ++ [.tryPop none] }
  | .startJobs => some { s with calls := s.calls ++ [.tryPop none] }
  | .dereg w =>
    s.workers[w]?.map fun worker =>
      { s with workers := s.workers.set w { worker with valid := false } }
  | .fail w inBody =>
    s.workers[w]?.map fun worker =>
      { s with workers :=
          s.workers.set w { worker with valid := inBody && worker.valid, reading := false } }
  | .ack w header => s.receive w (.ack header)
  | .respond w origin pack =>
    (s.receive w (.response s.log.received.length pack)).map fun s =>
      { s with log := { s.log with received := s.log.received ++ [origin] } }
  | .expire j => some (s.complete j .success)
  | .waited i => s.runWaited i
  | .strand i => s.runStrand i
  | .call i op => s.stepCall i op

/-! ## What the parts of a step can do -/

theorem receive_some {s t : State} {w : WorkerId} {handler : StrandHandler}
    (h : s.receive w handler = some t) : t = { s with strand := s.strand ++ [handler] } := by
  unfold receive at h
  split at h
  · split at h
    · cases h
      rfl
    · cases h
  · cases h

/-- The next step of a call, by what the call is about to do. -/
inductive CallStep (s : State) (i : Nat) : CallOp → State → Prop
  | emplace (j : JobId) (job : Job) (call : s.calls[i]? = some (.emplace j))
      (found : s.jobs[j]? = some job) : CallStep s i .emplace
        { s with
          startedJobs := s.startedJobs.emplace job.pack.header j
          calls := s.calls.set i (.tryPop none)
          log := { s.log with entered := s.log.entered ++ [j] } }
  | tryPop (held : Option JobId) (call : s.calls[i]? = some (.tryPop held)) :
      CallStep s i .tryPop (s.tryPop i)
  | look (j : JobId) (rest : List WorkerId) (w : WorkerId) (worker : Worker)
      (call : s.calls[i]? = some (.scan j rest)) (found : s.workers[w]? = some worker) :
      CallStep s i (.look w)
        (s.setCall i (if worker.valid then .startPost j w else .scan j (rest.erase w)))
  | repush (j : JobId) (call : s.calls[i]? = some (.scan j [])) : CallStep s i .repush
      ({ s with
        registeredJobs := s.registeredJobs ++ [j], wakeups := s.wakeups + 1 }.setCall i .returned)
  | startPost (j : JobId) (w : WorkerId) (job : Job) (worker : Worker)
      (call : s.calls[i]? = some (.startPost j w)) (foundJob : s.jobs[j]? = some job)
      (foundWorker : s.workers[w]? = some worker) : CallStep s i .startPost
        { s with
          jobs := s.jobs.set j { job with pack := job.pack.sized }
          workers := s.workers.set w
            { worker with posted := worker.posted ++ [(j, job.pack.sized)] }
          calls := s.calls.set i (.asyncWait j) }
  | asyncWait (j : JobId) (job : Job) (call : s.calls[i]? = some (.asyncWait j))
      (found : s.jobs[j]? = some job) : CallStep s i .asyncWait
        ({ s with
          jobs := s.jobs.set j
            { job with timer := { job.timer with waits := job.timer.waits + 1 } } }.setCall i
              (.expiresFromNow j))
  | expiresFromNow (j : JobId) (job : Job) (call : s.calls[i]? = some (.expiresFromNow j))
      (found : (s.complete j .operationAborted).jobs[j]? = some job) :
      CallStep s i .expiresFromNow
        ({ s.complete j .operationAborted with
          jobs := (s.complete j .operationAborted).jobs.set j
            { job with timer := { job.timer with expiry := .oneSecond } } }.setCall i
              (.tryPop (some j)))

theorem stepCall_cases {s t : State} {i : Nat} {op : CallOp} (h : s.stepCall i op = some t) :
    CallStep s i op t := by
  unfold stepCall at h
  split at h
  · rename_i j hc
    obtain ⟨job, hjob, rfl⟩ := Option.map_eq_some_iff.mp h
    exact .emplace j job hc hjob
  · rename_i held hc
    cases h
    exact .tryPop held hc
  · rename_i j rest w hc
    obtain ⟨worker, hworker, rfl⟩ := Option.map_eq_some_iff.mp h
    exact .look j rest w worker hc hworker
  · rename_i j hc
    cases h
    exact .repush j hc
  · rename_i j w hc
    simp only [State.startPost, Option.bind_eq_bind, Option.bind_eq_some_iff] at h
    obtain ⟨job, hjob, worker, hworker, ⟨pack, buf⟩, hserialize, h⟩ := h
    obtain ⟨-, rfl, -⟩ := Packet.serialize_some hserialize
    cases h
    exact .startPost j w job worker hc hjob hworker
  · rename_i j hc
    obtain ⟨s₁, hwait, rfl⟩ := Option.map_eq_some_iff.mp h
    obtain ⟨job, hjob, rfl⟩ := Option.map_eq_some_iff.mp hwait
    exact .asyncWait j job hc hjob
  · rename_i j hc
    obtain ⟨s₁, hexpires, rfl⟩ := Option.map_eq_some_iff.mp h
    obtain ⟨job, hjob, rfl⟩ := Option.map_eq_some_iff.mp hexpires
    exact .expiresFromNow j job hc hjob
  · cases h

/-- The lookup finds a job and the rest of the handler runs, or there is none and the null
pointer is followed. -/
theorem withStarted_cases (s : State) (header : PacketHeader) (f : State → JobId → Job → State) :
    (∃ m, (∀ j, (s.startedJobs.index header).2 = some j → s.jobs[j]? = none) ∧
      s.withStarted header f = { s with startedJobs := m, crashed := true }) ∨
    ∃ j job, (s.startedJobs.index header).2 = some j ∧ s.jobs[j]? = some job ∧
      s.withStarted header f = f s j job := by
  unfold withStarted
  split
  · rename_i m hindex
    refine Or.inl ⟨m, ?_, rfl⟩
    intro j hj
    rw [hindex] at hj
    cases hj
  · rename_i m j hindex
    have hfound : (s.startedJobs.index header).2 = some j := by rw [hindex]
    have hm : m = s.startedJobs := by
      have := JobMap.index_fst hfound
      rwa [hindex] at this
    subst hm
    split
    · rename_i job hjob
      exact Or.inr ⟨j, job, hfound, hjob, rfl⟩
    · rename_i hjob
      refine Or.inl ⟨_, ?_, rfl⟩
      intro k hk
      rw [hfound] at hk
      cases hk
      exact hjob

end State

end CppSerializer.Launcher
