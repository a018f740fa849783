import CppSerializer.Launcher.Correlation

/-!
# Dispatching jobs

What a step of the launcher does to the queue, to the calls under way, to the worker set and to
the packets that were posted. `DispatchStep` says it for every step: those of the calls are the
`CallStep`s, and the handlers of what workers send take no part.
-/

namespace CppSerializer.Launcher

open Pack Transition Shares State

/-- The step takes no part in dispatching. -/
structure SameDispatch (s t : State) : Prop where
  registeredJobs : t.registeredJobs = s.registeredJobs
  calls : t.calls = s.calls
  workers : t.workers = s.workers
  length : t.jobs.length = s.jobs.length

theorem SameDispatch.trans {s t u : State} (h : SameDispatch s t) (h' : SameDispatch t u) :
    SameDispatch s u :=
  ⟨h'.registeredJobs.trans h.registeredJobs, h'.calls.trans h.calls,
    h'.workers.trans h.workers, h'.length.trans h.length⟩

theorem sameDispatch_complete (s : State) (j : JobId) (ec : ErrorCode) :
    SameDispatch s (s.complete j ec) := by
  unfold complete
  split
  · exact ⟨rfl, rfl, rfl, List.length_set⟩
  · exact ⟨rfl, rfl, rfl, rfl⟩

theorem sameDispatch_withStarted (s : State) (header : PacketHeader)
    {f : State → JobId → Job → State} (hf : ∀ s j job, SameDispatch s (f s j job)) :
    SameDispatch s (s.withStarted header f) := by
  rcases withStarted_cases s header f with ⟨m, -, heq⟩ | ⟨j, job, -, -, heq⟩
  · rw [heq]
    exact ⟨rfl, rfl, rfl, rfl⟩
  · rw [heq]
    exact hf s j job

theorem sameDispatch_runStrand {s t : State} {i : Nat} (h : s.runStrand i = some t) :
    SameDispatch s t := by
  obtain ⟨handler, -, rfl⟩ := Option.map_eq_some_iff.mp h
  have herase : SameDispatch s { s with strand := s.strand.eraseIdx i } := ⟨rfl, rfl, rfl, rfl⟩
  cases handler with
  | ack header =>
    apply herase.trans
    apply sameDispatch_withStarted
    intro s j job
    have hset : SameDispatch s { s with jobs := s.jobs.set j { job with state := .started } } :=
      ⟨rfl, rfl, rfl, List.length_set⟩
    exact hset.trans (sameDispatch_complete _ j .operationAborted)
  | response number pack =>
    apply herase.trans
    apply sameDispatch_withStarted
    intro s j job
    exact ⟨rfl, rfl, rfl, List.length_set⟩

/-! ## Steps -/

theorem length_call {s t : State} {i : Nat} {op : CallOp} (h : CallStep s i op t) :
    t.jobs.length = s.jobs.length := by
  cases h with
  | tryPop held hc =>
    unfold State.tryPop
    split <;> rfl
  | startPost | asyncWait => exact List.length_set
  | expiresFromNow j job hc hjob =>
    rw [← (sameDispatch_complete s j .operationAborted).length]
    exact List.length_set
  | _ => rfl

/-- Everything that a step can do to the dispatching of jobs. -/
inductive DispatchStep (s t : State) : Action → Prop
  | submit (randomSalt sequence : List.Vector UnitT 4) (body : Bytes)
      (registeredJobs : t.registeredJobs = s.registeredJobs ++ [s.jobs.length])
      (calls : t.calls = s.calls ++ [.emplace s.jobs.length])
      (workers : t.workers = s.workers) (length : t.jobs.length = s.jobs.length + 1) :
      DispatchStep s t (.startTriggerPost randomSalt sequence body)
  | start (a : Action) (ha : ∀ i op, a ≠ .call i op) (hw : ∀ i, a ≠ .waited i) (new : List Worker)
      (fresh : ∀ worker ∈ new, worker.posted = [])
      (registeredJobs : t.registeredJobs = s.registeredJobs)
      (calls : t.calls = s.calls ++ [.tryPop none]) (workers : t.workers = s.workers ++ new)
      (length : t.jobs.length = s.jobs.length) : DispatchStep s t a
  | worker (a : Action) (ha : ∀ i op, a ≠ .call i op) (hw : ∀ i, a ≠ .waited i) (w : WorkerId)
      (before after : Worker)
      (found : s.workers[w]? = some before) (posted : after.posted = before.posted)
      (valid : after.valid = true → before.valid = true)
      (registeredJobs : t.registeredJobs = s.registeredJobs) (calls : t.calls = s.calls)
      (workers : t.workers = s.workers.set w after) (length : t.jobs.length = s.jobs.length) :
      DispatchStep s t a
  | waited (i : Nat) (j : JobId) (ec : ErrorCode) (found : s.waited[i]? = some (j, ec))
      (registeredJobs : t.registeredJobs =
        if repushes ec then s.registeredJobs ++ [j] else s.registeredJobs)
      (calls : t.calls = s.calls) (workers : t.workers = s.workers)
      (length : t.jobs.length = s.jobs.length) : DispatchStep s t (.waited i)
  | call (i : Nat) (op : CallOp) (step : CallStep s i op t) : DispatchStep s t (.call i op)
  | other (a : Action) (ha : ∀ i op, a ≠ .call i op) (hw : ∀ i, a ≠ .waited i)
      (same : SameDispatch s t) :
      DispatchStep s t a

theorem dispatchStep {s t : State} {a : Action} (h : s.step a = some t) : DispatchStep s t a := by
  unfold step at h
  split at h
  · cases h
  cases a with
  | startTriggerPost randomSalt sequence body =>
    simp only at h
    split at h <;> cases h
    exact .submit randomSalt sequence body rfl rfl rfl List.length_append
  | addWorker =>
    cases h
    exact .start _ (by simp) (by simp) [⟨true, true, []⟩] (by simp) rfl rfl rfl rfl
  | startJobs =>
    cases h
    exact .start _ (by simp) (by simp) [] (by simp) rfl rfl (List.append_nil _).symm rfl
  | dereg w =>
    obtain ⟨worker, hworker, rfl⟩ := Option.map_eq_some_iff.mp h
    refine .worker _ (by simp) (by simp) w worker { worker with valid := false } hworker rfl ?_
      rfl rfl rfl rfl
    intro hvalid
    cases hvalid
  | fail w inBody =>
    obtain ⟨worker, hworker, rfl⟩ := Option.map_eq_some_iff.mp h
    refine .worker _ (by simp) (by simp) w worker
      { worker with valid := inBody && worker.valid, reading := false }
      hworker rfl ?_ rfl rfl rfl rfl
    intro hvalid
    exact (Bool.and_eq_true_iff.mp hvalid).2
  | ack w header =>
    obtain rfl := receive_some h
    exact .other _ (by simp) (by simp) ⟨rfl, rfl, rfl, rfl⟩
  | respond w origin pack =>
    obtain ⟨s₁, hreceive, rfl⟩ := Option.map_eq_some_iff.mp h
    obtain rfl := receive_some hreceive
    exact .other _ (by simp) (by simp) ⟨rfl, rfl, rfl, rfl⟩
  | expire j =>
    cases h
    exact .other _ (by simp) (by simp) (sameDispatch_complete s j .success)
  | waited i =>
    obtain ⟨⟨j, ec⟩, hwaited, rfl⟩ := Option.map_eq_some_iff.mp h
    exact .waited i j ec hwaited rfl rfl rfl rfl
  | strand i => exact .other _ (by simp) (by simp) (sameDispatch_runStrand h)
  | call i op => exact .call i op (stepCall_cases h)

/-! ## Packets that were posted -/

/-- The packets that workers were given, with their jobs. -/
def State.allPosted (s : State) : List (JobId × Packet) := s.workers.flatMap Worker.posted

theorem mem_allPosted {s : State} {p : JobId × Packet} : p ∈ s.allPosted ↔ s.Given p :=
  List.mem_flatMap

/-- A packet is posted by `start_post`, and by nothing else. -/
inductive PostStep (s t : State) : Action → Prop
  | post (i : Nat) (j : JobId) (w : WorkerId) (job : Job)
      (call : s.calls[i]? = some (.startPost j w)) (found : s.jobs[j]? = some job)
      (posted : t.allPosted.Perm ((j, job.pack.sized) :: s.allPosted)) :
      PostStep s t (.call i .startPost)
  | keep (a : Action) (ha : ∀ i, a ≠ .call i .startPost) (posted : t.allPosted = s.allPosted) :
      PostStep s t a

theorem allPosted_of_workers {s t : State} (h : t.workers = s.workers) :
    t.allPosted = s.allPosted := by
  rw [allPosted, allPosted, h]

theorem postStep_call {s t : State} {i : Nat} {op : CallOp} (h : CallStep s i op t) :
    PostStep s t (.call i op) := by
  cases h with
  | startPost j w job worker hc hjob hworker =>
    refine .post i j w job hc hjob ?_
    change (List.flatMap _ _).Perm ([(j, job.pack.sized)] ++ s.allPosted)
    exact flatMap_set_append hworker rfl
  | tryPop held hc =>
    refine .keep _ (by simp) (allPosted_of_workers ?_)
    unfold State.tryPop
    split <;> rfl
  | expiresFromNow j job hc hjob =>
    refine .keep _ (by simp) (allPosted_of_workers ?_)
    exact (sameDispatch_complete s j .operationAborted).workers
  | _ => exact .keep _ (by simp) rfl

theorem postStep {s t : State} {a : Action} (h : s.step a = some t) : PostStep s t a := by
  cases dispatchStep h with
  | submit _ _ _ _ _ workers => exact .keep _ (by simp) (allPosted_of_workers workers)
  | start _ ha hw new fresh _ _ workers =>
    refine .keep _ (fun i => ha i _) ?_
    have hnew : new.flatMap Worker.posted = [] := List.flatMap_eq_nil_iff.mpr fresh
    rw [allPosted, workers, List.flatMap_append, hnew, List.append_nil, allPosted]
  | worker _ ha hw w before after found posted _ _ _ workers =>
    refine .keep _ (fun i => ha i _) ?_
    rw [allPosted, workers]
    exact flatMap_set_eq found posted
  | waited i _ _ _ _ _ workers => exact .keep _ (by simp) (allPosted_of_workers workers)
  | call i op hcall => exact postStep_call hcall
  | other _ ha hw same => exact .keep _ (fun i => ha i _) (allPosted_of_workers same.workers)

end CppSerializer.Launcher
