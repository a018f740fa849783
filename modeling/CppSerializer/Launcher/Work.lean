import CppSerializer.Launcher.Retry
import CppSerializer.Library.Work

/-!
# The work of the launcher

What the calls, the handlers and the waits of the launcher have left to do, when there are `N`
workers at most. The one step that undoes another is the `push` of a loop that has found no
worker. It ends the call, so a call that searches pays for the next one of the job.
-/

namespace CppSerializer.Launcher

open Pack Work

/-! ## Work -/

/-- The steps that the launcher takes when nobody calls it and no worker or timer does
anything. -/
def Action.IsInternal : Action → Prop
  | .waited _ | .strand _ | .call _ _ => True
  | .startTriggerPost .. | .addWorker | .startJobs | .dereg .. | .fail .. | .ack .. | .respond ..
  | .expire .. => False

/-- `get_available_worker` looks at no worker twice, and at none that was added after it began. The
iteration of the set may come to the latter, too; a scan does not remember them, so they are left
out here. -/
def LooksOnce (s : State) : Action → Prop
  | .call i (.look w) => ∀ j rest, s.calls[i]? = some (.scan j rest) → w ∈ rest
  | _ => True

/-- A job that is queued will be searched a worker for. -/
def jobWork (N : Nat) : Nat := N + 7

def callWork (N : Nat) : Call → Nat
  | .emplace _ => N + 3
  | .tryPop _ => N + 2
  | .scan _ rest => N + 8 + rest.length
  | .startPost _ _ => N + 7
  | .asyncWait _ => N + 6
  | .expiresFromNow _ => N + 3
  | .returned => 0

/-- A response pays for the callback of the job, which writes and starts a read. -/
def strandWork : StrandHandler → Nat
  | .ack _ => 1
  | .response _ _ => 3

def waitedWork (N : Nat) (w : JobId × ErrorCode) : Nat :=
  1 + if State.repushes w.2 then jobWork N else 0

namespace State

def work (N : Nat) (s : State) : Nat :=
  weight (fun _ => jobWork N) s.registeredJobs + weight (callWork N) s.calls +
    weight (fun job => 2 * job.timer.waits) s.jobs + weight (waitedWork N) s.waited +
    weight strandWork s.strand

end State

open State

variable {N : Nat}

/-- A wait that is completed has only its handler left. -/
theorem work_complete (N : Nat) (s : State) (j : JobId) {ec : ErrorCode}
    (hec : repushes ec = false) : (s.complete j ec).work N ≤ s.work N := by
  unfold complete
  split
  · rename_i job hjob
    have hset := weight_set (f := fun job : Job => 2 * job.timer.waits) hjob
      { job with timer := { job.timer with waits := 0 } }
    have hwaits := weight_replicate (f := waitedWork N) job.timer.waits (j, ec)
    simp only [waitedWork, hec] at hwaits
    simp only [work, weight_append] at hset ⊢
    rw [hwaits]
    simp only [Bool.false_eq_true, if_false] at hset ⊢
    omega
  · exact Nat.le_refl _

theorem workers_complete (s : State) (j : JobId) (ec : ErrorCode) :
    (s.complete j ec).workers = s.workers ∧ (s.complete j ec).log = s.log := by
  unfold complete
  split <;> exact ⟨rfl, rfl⟩

/-- The work after a step of a call, when nothing but the call and the queue changes. -/
theorem work_setCall {s : State} {i : Nat} {c : Call} (hc : s.calls[i]? = some c) (c' : Call) :
    (s.setCall i c').work N + callWork N c = s.work N + callWork N c' := by
  have hset := weight_set (f := callWork N) hc c'
  simp only [work, setCall]
  omega

/-! ## Steps -/

/-- What a step leaves of the work; a completion takes the work of its callback along. -/
structure Decreases (N : Nat) (s t : State) : Prop where
  workers : t.workers.length = s.workers.length
  work : t.work N + 2 * t.log.completions.length < s.work N + 2 * s.log.completions.length

theorem decreases_call {s t : State} {i : Nat} {op : CallOp} (hN : s.workers.length ≤ N)
    (hlooks : LooksOnce s (.call i op)) (h : CallStep s i op t) : Decreases N s t := by
  cases h with
  | emplace j job hc hjob =>
    have hset := weight_set (f := callWork N) hc (.tryPop none)
    refine ⟨rfl, ?_⟩
    simp only [State.work, callWork] at hset ⊢
    omega
  | tryPop held hc =>
    unfold tryPop
    split
    · rename_i j rest hregistered
      have hset := weight_set (f := callWork N) hc (.scan j (List.range s.workers.length))
      refine ⟨rfl, ?_⟩
      simp only [State.work, setCall, callWork, List.length_range, hregistered, weight_cons,
        jobWork] at hset ⊢
      omega
    · have hset := work_setCall (N := N) hc .returned
      refine ⟨rfl, ?_⟩
      simp only [callWork] at hset
      change State.work N _ + 2 * s.log.completions.length < _
      omega
  | look j rest w worker hc hworker =>
    have hmem := hlooks j rest hc
    refine ⟨rfl, ?_⟩
    have hset := work_setCall (N := N) hc
      (if worker.valid then .startPost j w else .scan j (rest.erase w))
    have hlength := List.length_erase_of_mem hmem
    have hpos := List.length_pos_of_mem hmem
    change State.work N _ + 2 * s.log.completions.length < _
    cases hvalid : worker.valid <;> simp only [hvalid, callWork, if_true, Bool.false_eq_true,
      if_false] at hset ⊢ <;> omega
  | repush j hc =>
    have hset := weight_set (f := callWork N) hc .returned
    refine ⟨rfl, ?_⟩
    simp only [State.work, setCall, callWork, weight_append, weight_cons, weight_nil, jobWork,
      List.length_nil] at hset ⊢
    omega
  | startPost j w job worker hc hjob hworker =>
    have hset := weight_set (f := callWork N) hc (.asyncWait j)
    have hjobs := weight_set (f := fun job : Job => 2 * job.timer.waits) hjob
      { job with pack := job.pack.sized }
    refine ⟨List.length_set, ?_⟩
    simp only [State.work, callWork] at hset hjobs ⊢
    omega
  | asyncWait j job hc hjob =>
    have hset := weight_set (f := callWork N) hc (.expiresFromNow j)
    have hjobs := weight_set (f := fun job : Job => 2 * job.timer.waits) hjob
      { job with timer := { job.timer with waits := job.timer.waits + 1 } }
    refine ⟨rfl, ?_⟩
    simp only [State.work, setCall, callWork] at hset hjobs ⊢
    omega
  | expiresFromNow j job hc hjob =>
    obtain ⟨hworkers, hlog⟩ := workers_complete s j .operationAborted
    have hle := @work_complete N s j .operationAborted rfl
    have hcalls : (s.complete j .operationAborted).calls[i]? = some (.expiresFromNow j) := by
      rw [← hc]
      unfold complete
      split <;> rfl
    have hset := weight_set (f := callWork N) hcalls (.tryPop (some j))
    have hjobs := weight_set (f := fun job : Job => 2 * job.timer.waits) hjob
      { job with timer := { job.timer with expiry := .oneSecond } }
    refine ⟨congrArg List.length hworkers, ?_⟩
    simp only [State.work, setCall, callWork, hlog] at hset hjobs hle ⊢
    omega

/-- A job keeps its waits when its state changes. -/
theorem work_setState {s : State} {j : JobId} {job : Job} (hjob : s.jobs[j]? = some job)
    (state : JobState) : ({ s with jobs := s.jobs.set j { job with state := state } } : State).work
      N = s.work N := by
  have hset := weight_set (f := fun job : Job => 2 * job.timer.waits) hjob
    { job with state := state }
  simp only [State.work] at hset ⊢
  omega

theorem work_runAck (N : Nat) (s : State) (header : PacketHeader) :
    (s.runAck header).workers = s.workers ∧ (s.runAck header).log = s.log ∧
      (s.runAck header).work N ≤ s.work N := by
  unfold runAck
  rcases withStarted_cases s header fun s j job =>
    { s with jobs := s.jobs.set j { job with state := .started } }.complete j .operationAborted with
    ⟨m, -, heq⟩ | ⟨j, job, -, hjob, heq⟩
  · rw [heq]
    exact ⟨rfl, rfl, Nat.le_refl _⟩
  · rw [heq]
    obtain ⟨hworkers, hlog⟩ := workers_complete
      { s with jobs := s.jobs.set j { job with state := .started } } j .operationAborted
    refine ⟨hworkers, hlog, ?_⟩
    rw [← work_setState (N := N) hjob .started]
    exact work_complete N _ j rfl

theorem work_runResponse (N : Nat) (s : State) (number : Nat) (pack : Packet) :
    (s.runResponse number pack).workers = s.workers ∧
      (s.runResponse number pack).log.completions.length ≤ s.log.completions.length + 1 ∧
      (s.runResponse number pack).work N = s.work N := by
  unfold runResponse
  rcases withStarted_cases s pack.header fun s j job =>
    { s with
      jobs := s.jobs.set j { job with state := .finished }
      log := { s.log with completions := s.log.completions ++ [⟨number, j, pack⟩] } } with
    ⟨m, -, heq⟩ | ⟨j, job, -, hjob, heq⟩
  · rw [heq]
    exact ⟨rfl, Nat.le_succ _, rfl⟩
  · rw [heq]
    exact ⟨rfl, Nat.le_of_eq List.length_append, work_setState hjob .finished⟩

theorem decreases_strand {s t : State} {i : Nat} (h : s.runStrand i = some t) :
    Decreases N s t := by
  obtain ⟨handler, hposted, rfl⟩ := Option.map_eq_some_iff.mp h
  have herase := weight_eraseIdx (f := strandWork) hposted
  have hleft : ({ s with strand := s.strand.eraseIdx i } : State).work N + strandWork handler =
      s.work N := by
    simp only [State.work] at herase ⊢
    omega
  cases handler with
  | ack header =>
    obtain ⟨hworkers, hlog, hwork⟩ :=
      work_runAck N { s with strand := s.strand.eraseIdx i } header
    refine ⟨congrArg List.length hworkers, ?_⟩
    simp only [strandWork, hlog] at hleft ⊢
    omega
  | response number pack =>
    obtain ⟨hworkers, hcompletions, hwork⟩ :=
      work_runResponse N { s with strand := s.strand.eraseIdx i } number pack
    refine ⟨congrArg List.length hworkers, ?_⟩
    simp only [strandWork] at hleft hcompletions ⊢
    omega

theorem decreases_waited {s t : State} {i : Nat} (h : s.runWaited i = some t) :
    Decreases N s t := by
  obtain ⟨⟨j, ec⟩, hwaited, rfl⟩ := Option.map_eq_some_iff.mp h
  have herase := weight_eraseIdx (f := waitedWork N) hwaited
  refine ⟨rfl, ?_⟩
  simp only [waitedWork] at herase
  simp only [State.work]
  split at herase
  · rename_i hec
    rw [if_pos hec]
    simp only [weight_append, weight_cons, weight_nil]
    omega
  · rename_i hec
    rw [if_neg hec]
    omega

/-- Every step that the launcher takes on its own uses work up. -/
theorem decreases_step {s t : State} {a : Action} (hN : s.workers.length ≤ N)
    (ha : a.IsInternal) (hlooks : LooksOnce s a) (h : s.step a = some t) : Decreases N s t := by
  unfold State.step at h
  split at h
  · cases h
  cases a with
  | waited i => exact decreases_waited h
  | strand i => exact decreases_strand h
  | call i op => exact decreases_call hN hlooks (stepCall_cases h)
  | startTriggerPost | addWorker | startJobs | dereg | fail | ack | respond | expire => cases ha

/-! ## Calls -/

theorem work_startTriggerPost {s t : State} {randomSalt sequence : List.Vector UnitT 4}
    {body : Bytes} (h : s.step (.startTriggerPost randomSalt sequence body) = some t) :
    t.workers = s.workers ∧ t.work N = s.work N + (2 * N + 10) := by
  unfold State.step at h
  split at h
  · cases h
  · simp only at h
    split at h <;> cases h
    refine ⟨rfl, ?_⟩
    simp only [State.work, weight_append, weight_cons, weight_nil, callWork, jobWork, Job.new,
      Nat.mul_zero]
    omega

theorem work_addWorker {s t : State} (h : s.step .addWorker = some t) :
    t.workers.length = s.workers.length + 1 ∧ t.work N = s.work N + (N + 2) := by
  unfold State.step at h
  split at h
  · cases h
  · cases h
    refine ⟨List.length_append, ?_⟩
    simp only [State.work, weight_append, weight_cons, weight_nil, callWork]
    omega

theorem work_startJobs {s t : State} (h : s.step .startJobs = some t) :
    t.workers = s.workers ∧ t.work N = s.work N + (N + 2) := by
  unfold State.step at h
  split at h
  · cases h
  · cases h
    refine ⟨rfl, ?_⟩
    simp only [State.work, weight_append, weight_cons, weight_nil, callWork]
    omega

end CppSerializer.Launcher
