import CppSerializer.Launcher.Answers

/-!
# Packets of jobs and their answers

The packet of a job is made when its trigger is submitted, and `serialize` fills in the size
before it is posted; nothing else in it ever changes (`packets_of_step`). So what a worker is given
for a job is the packet made of the body that was submitted (`run_given`), and where no response
finds another job, the `on_completion_` of a job is called with what its worker has made of that
body (`run_results`).
-/

namespace CppSerializer.Launcher

open Pack Transition Shares State

/-! ## Packets -/

/-- The packets of the jobs, as they are posted. -/
def State.packets (s : State) : List Packet := s.jobs.map fun job => job.pack.sized

/-- The packet of the job that the step makes. -/
def Action.submitted : Action → List Packet
  | .startTriggerPost randomSalt sequence body => [(Job.new randomSalt sequence body).pack.sized]
  | _ => []

theorem packets_set {s : State} {j : JobId} {job job' : Job} (hjob : s.jobs[j]? = some job)
    (hpack : job'.pack.sized = job.pack.sized) :
    (s.jobs.set j job').map (fun job => job.pack.sized) = s.packets :=
  map_set_eq hjob hpack

theorem packets_complete (s : State) (j : JobId) (ec : ErrorCode) :
    (s.complete j ec).packets = s.packets := by
  unfold complete
  split
  · rename_i job hjob
    exact packets_set hjob rfl
  · rfl

theorem packets_call {s t : State} {i : Nat} {op : CallOp} (h : CallStep s i op t) :
    t.packets = s.packets := by
  cases h with
  | emplace | look | repush => rfl
  | tryPop held hc =>
    unfold State.tryPop
    split <;> rfl
  | startPost j w job worker hc hjob hworker => exact packets_set hjob rfl
  | asyncWait j job hc hjob => exact packets_set hjob rfl
  | expiresFromNow j job hc hjob =>
    rw [← packets_complete s j .operationAborted]
    exact packets_set hjob rfl

theorem packets_withStarted (s : State) (header : PacketHeader) {f : State → JobId → Job → State}
    (hf : ∀ j job, s.jobs[j]? = some job → (f s j job).packets = s.packets) :
    (s.withStarted header f).packets = s.packets := by
  rcases withStarted_cases s header f with ⟨m, -, heq⟩ | ⟨j, job, -, hjob, heq⟩
  · rw [heq]
    rfl
  · rw [heq]
    exact hf j job hjob

theorem packets_runStrand {s t : State} {i : Nat} (h : s.runStrand i = some t) :
    t.packets = s.packets := by
  obtain ⟨handler, -, rfl⟩ := Option.map_eq_some_iff.mp h
  cases handler with
  | ack header =>
    apply packets_withStarted { s with strand := s.strand.eraseIdx i }
    intro j job hjob
    rw [packets_complete]
    exact packets_set hjob rfl
  | response number pack =>
    apply packets_withStarted { s with strand := s.strand.eraseIdx i }
    intro j job hjob
    exact packets_set hjob rfl

/-- The packets of the jobs stay as they are, and a submission adds one. -/
theorem packets_of_step {s t : State} {a : Action} (h : s.step a = some t) :
    t.packets = s.packets ++ a.submitted := by
  unfold step at h
  split at h
  · cases h
  cases a with
  | startTriggerPost randomSalt sequence body =>
    simp only at h
    split at h <;> cases h
    rw [packets, List.map_append]
    rfl
  | addWorker | startJobs =>
    cases h
    exact (List.append_nil _).symm
  | dereg w | fail w inBody =>
    obtain ⟨worker, -, rfl⟩ := Option.map_eq_some_iff.mp h
    exact (List.append_nil _).symm
  | ack w header =>
    obtain rfl := receive_some h
    exact (List.append_nil _).symm
  | respond w origin pack =>
    obtain ⟨s₁, hreceive, rfl⟩ := Option.map_eq_some_iff.mp h
    obtain rfl := receive_some hreceive
    exact (List.append_nil _).symm
  | expire j =>
    cases h
    rw [packets_complete]
    exact (List.append_nil _).symm
  | waited i =>
    obtain ⟨⟨j, ec⟩, -, rfl⟩ := Option.map_eq_some_iff.mp h
    exact (List.append_nil _).symm
  | strand i =>
    rw [packets_runStrand h]
    exact (List.append_nil _).symm
  | call i op =>
    rw [packets_call (stepCall_cases h)]
    exact (List.append_nil _).symm

theorem packets_getElem? {s t : State} {a : Action} (h : s.step a = some t) {j : JobId}
    {pack : Packet} (hj : s.packets[j]? = some pack) : t.packets[j]? = some pack := by
  obtain ⟨hlt, -⟩ := List.getElem?_eq_some_iff.mp hj
  rw [packets_of_step h, List.getElem?_append_left hlt]
  exact hj

/-- Worker `w` was given the packet for the job. -/
def State.Pushed (s : State) (w : WorkerId) (p : JobId × Packet) : Prop :=
  ∃ worker, s.workers[w]? = some worker ∧ p ∈ worker.posted

/-- What a worker was given it was given for good. -/
theorem State.Pushed.step {s t : State} {a : Action} (h : s.step a = some t) {w : WorkerId}
    {p : JobId × Packet} (hp : s.Pushed w p) : t.Pushed w p := by
  obtain ⟨worker, hw, hp⟩ := hp
  obtain ⟨hlt, -⟩ := List.getElem?_eq_some_iff.mp hw
  have hsame : t.workers = s.workers → t.Pushed w p := by
    intro hworkers
    exact ⟨worker, hworkers ▸ hw, hp⟩
  have hset : ∀ {w₀ : WorkerId} {before after : Worker}, s.workers[w₀]? = some before →
      (∀ p ∈ before.posted, p ∈ after.posted) → t.workers = s.workers.set w₀ after →
      t.Pushed w p := by
    intro w₀ before after hbefore hmore hworkers
    by_cases hw₀ : w₀ = w
    · subst hw₀
      rw [hw] at hbefore
      cases hbefore
      refine ⟨after, ?_, hmore p hp⟩
      rw [hworkers, List.getElem?_set_self hlt]
    · refine ⟨worker, ?_, hp⟩
      rw [hworkers, List.getElem?_set_ne hw₀]
      exact hw
  cases dispatchStep h with
  | submit _ _ _ _ _ workers => exact hsame workers
  | start a ha hw' new fresh registeredJobs calls workers =>
    refine ⟨worker, ?_, hp⟩
    rw [workers, List.getElem?_append_left hlt]
    exact hw
  | worker a ha hw' w₀ before after found posted valid registeredJobs calls workers =>
    exact hset found (fun p hp => posted ▸ hp) workers
  | waited i j ec found registeredJobs calls workers => exact hsame workers
  | call i op step =>
    cases step with
    | startPost j w₀ job before call foundJob foundWorker =>
      exact hset foundWorker (fun p hp => List.mem_append_left _ hp) rfl
    | tryPop held hc =>
      apply hsame
      unfold State.tryPop
      split <;> rfl
    | expiresFromNow j job hc hjob => exact hsame (sameDispatch_complete s j _).workers
    | _ => exact hsame rfl
  | other a ha hw' same => exact hsame same.workers

/-- Who responds to the packet of a job was given it. -/
theorem pushed_of_received {as : List Action} {s : State} (hrun : run step init as = some s)
    (hecho : Guarded step Echoes init as) {j : JobId} (hj : some j ∈ s.log.received) :
    ∃ w pack, s.Pushed w (j, pack) := by
  revert hecho hj
  refine run_induction (P := fun as s => Guarded step Echoes init as →
    some j ∈ s.log.received → ∃ w pack, s.Pushed w (j, pack)) (fun _ hj => by cases hj) ?_ as s hrun
  intro as s a t hs ih ht hecho hj
  rcases received_of_step ht with hsame | ⟨w, origin, pack, rfl, hnew⟩
  · rw [hsame] at hj
    obtain ⟨w, pack, hpushed⟩ := ih hecho.prefix hj
    exact ⟨w, pack, hpushed.step ht⟩
  · rw [hnew] at hj
    rcases List.mem_append.mp hj with hold | hlast
    · obtain ⟨w, pack, hpushed⟩ := ih hecho.prefix hold
      exact ⟨w, pack, hpushed.step ht⟩
    · obtain ⟨k, given, worker, rfl, hworker, hgiven, -⟩ := hecho.last hs w origin pack rfl
      cases List.mem_singleton.mp hlast
      exact ⟨w, given, State.Pushed.step ht ⟨worker, hworker, hgiven⟩⟩

/-- A worker is given the packets of the jobs. -/
theorem run_given {as : List Action} {s : State} (hrun : run step init as = some s) :
    ∀ p ∈ s.allPosted, s.packets[p.1]? = some p.2 := by
  refine run_induction (P := fun _ s => ∀ p ∈ s.allPosted, s.packets[p.1]? = some p.2) ?_ ?_ as s
    hrun
  · intro p hp
    cases hp
  intro as s a t _ ih ht p hp
  cases postStep ht with
  | post i j w job call found posted =>
    rcases List.mem_cons.mp (posted.mem_iff.mp hp) with rfl | hold
    · apply packets_getElem? ht
      rw [packets, List.getElem?_map, found]
      rfl
    · exact packets_getElem? ht (ih p hold)
  | keep _ ha posted =>
    rw [posted] at hp
    exact packets_getElem? ht (ih p hp)

/-- The packets are those of the submissions. -/
theorem run_packets {as : List Action} {s : State} (hrun : run step init as = some s) :
    s.packets = as.flatMap Action.submitted := by
  refine run_induction (P := fun as s => s.packets = as.flatMap Action.submitted) rfl ?_ as s hrun
  intro as s a t _ ih ht
  rw [packets_of_step ht, ih, List.flatMap_append, List.flatMap_singleton]

theorem run_packets_type {as : List Action} {s : State} (hrun : run step init as = some s) :
    ∀ pack ∈ s.packets, pack.header.type = .workerPushRequest := by
  intro pack hpack
  rw [run_packets hrun] at hpack
  obtain ⟨a, -, ha⟩ := List.mem_flatMap.mp hpack
  cases a with
  | startTriggerPost randomSalt sequence body =>
    rw [List.mem_singleton.mp ha]
    rfl
  | _ => cases ha

/-! ## Answers -/

/-- A worker answers a packet that it was given once at most, and what it sends is a result of the
payload. -/
def Computes (R : Bytes → Bytes → Prop) (s : State) (a : Action) : Prop :=
  Answers s a ∧ ∀ w j pack, a = .respond w (some j) pack → ∀ worker given,
    s.workers[w]? = some worker → (j, given) ∈ worker.posted → R given.data.buf pack.data.buf

/-- The response is one to the packet of the job, with a result of its body. -/
structure IsResult (R : Bytes → Bytes → Prop) (s : State) (j : JobId) (pack : Packet) : Prop where
  type : pack.header.type = .workerResponse
  result : ∃ given, s.packets[j]? = some given ∧ R given.data.buf pack.data.buf

theorem IsResult.step {R : Bytes → Bytes → Prop} {s t : State} {a : Action} {j : JobId}
    {pack : Packet} (h : IsResult R s j pack) (hstep : s.step a = some t) :
    IsResult R t j pack := by
  obtain ⟨given, hgiven, hresult⟩ := h.result
  exact ⟨h.type, given, packets_getElem? hstep hgiven, hresult⟩

/-- The response that comes in is one to the packet of its job. -/
theorem isResult_of_computes {R : Bytes → Bytes → Prop} {as : List Action} {s : State}
    (hrun : run step init as = some s) {w : WorkerId} {origin : Option JobId} {pack : Packet}
    (h : Computes R s (.respond w origin pack)) : ∃ j, origin = some j ∧ IsResult R s j pack := by
  obtain ⟨⟨hecho, -⟩, hcomputes⟩ := h
  obtain ⟨j, given, worker, rfl, hworker, hgiven, hheader⟩ := hecho w origin pack rfl
  have hposted : (j, given) ∈ s.allPosted :=
    mem_allPosted.mpr ⟨worker, List.mem_of_getElem? hworker, hgiven⟩
  refine ⟨j, rfl, ?_, given, run_given hrun (j, given) hposted, ?_⟩
  · rw [hheader]
  · exact hcomputes w j pack rfl worker given hworker hgiven

/-- A response that has come in: it waits on the strand, or a job was completed with it. -/
def State.Has (s : State) (n : Nat) (pack : Packet) : Prop :=
  .response n pack ∈ s.strand ∨ ∃ c ∈ s.log.completions, c.number = n ∧ c.pack = pack

/-- A response is known from the step that it comes in. -/
theorem has_of_step {s t : State} {a : Action} (h : s.step a = some t) {n : Nat} {pack : Packet}
    (hn : t.Has n pack) : s.Has n pack ∨
      n = s.log.received.length ∧ ∃ w origin, a = .respond w origin pack := by
  obtain ⟨-, hstep⟩ := correlationStep h
  cases hstep with
  | submit | enter => exact Or.inl hn
  | ack w header =>
    rcases hn with hn | hn
    · rcases List.mem_append.mp hn with hn | hn
      · exact Or.inl (Or.inl hn)
      · cases List.mem_singleton.mp hn
    · exact Or.inl (Or.inr hn)
  | respond w origin pack' =>
    rcases hn with hn | hn
    · rcases List.mem_append.mp hn with hn | hn
      · exact Or.inl (Or.inl hn)
      · cases List.mem_singleton.mp hn
        exact Or.inr ⟨rfl, w, origin, rfl⟩
    · exact Or.inl (Or.inr hn)
  | crash i handler m posted cause =>
    refine Or.inl (hn.imp_left fun hn => ?_)
    exact List.mem_of_mem_eraseIdx hn
  | runAck i header j jobs waited posted found topics =>
    refine Or.inl (hn.imp_left fun hn => ?_)
    exact List.mem_of_mem_eraseIdx hn
  | runResponse i number pack' j jobs posted found topics =>
    refine Or.inl ?_
    rcases hn with hn | ⟨c, hc, hnumber, hpack⟩
    · exact Or.inl (List.mem_of_mem_eraseIdx hn)
    · rcases List.mem_append.mp hc with hc | hc
      · exact Or.inr ⟨c, hc, hnumber, hpack⟩
      · cases List.mem_singleton.mp hc
        cases hnumber
        cases hpack
        exact Or.inl (List.mem_of_getElem? posted)
  | other _ _ ha quiet =>
    rw [Has, quiet.strand, quiet.log] at hn
    exact Or.inl hn

theorem received_getElem? {s t : State} {a : Action} (h : s.step a = some t) {n : Nat}
    {origin : Option JobId} (hn : s.log.received[n]? = some origin) :
    t.log.received[n]? = some origin := by
  rcases received_of_step h with hsame | ⟨w, new, pack, -, hnew⟩
  · rw [hsame]
    exact hn
  · obtain ⟨hlt, -⟩ := List.getElem?_eq_some_iff.mp hn
    rw [hnew, List.getElem?_append_left hlt]
    exact hn

theorem received_respond {s t : State} {w : WorkerId} {origin : Option JobId} {pack : Packet}
    (h : s.step (.respond w origin pack) = some t) :
    t.log.received = s.log.received ++ [origin] := by
  unfold step at h
  split at h
  · cases h
  · obtain ⟨s₁, hreceive, rfl⟩ := Option.map_eq_some_iff.mp h
    rw [receive_some hreceive]

theorem run_responses {R : Bytes → Bytes → Prop} {as : List Action} {s : State}
    (hrun : run step init as = some s) (hcomputes : Guarded step (Computes R) init as) :
    ∀ n pack, s.Has n pack →
      ∃ j, s.log.received[n]? = some (some j) ∧ IsResult R s j pack := by
  revert hcomputes
  refine run_induction (P := fun as s => Guarded step (Computes R) init as →
    ∀ n pack, s.Has n pack → ∃ j, s.log.received[n]? = some (some j) ∧ IsResult R s j pack) ?_ ?_
    as s hrun
  · rintro - n pack (hn | ⟨c, hc, -⟩)
    · cases hn
    · cases hc
  intro as s a t hs ih ht hcomputes n pack hn
  rcases has_of_step ht hn with hold | ⟨rfl, w, origin, rfl⟩
  · obtain ⟨j, hj, hresult⟩ := ih hcomputes.prefix n pack hold
    exact ⟨j, received_getElem? ht hj, hresult.step ht⟩
  · obtain ⟨j, rfl, hresult⟩ := isResult_of_computes hs (hcomputes.last hs)
    refine ⟨j, ?_, hresult.step ht⟩
    rw [received_respond ht]
    exact List.getElem?_concat_length

/-- The callback of a job is called with a result of its body. -/
theorem run_results {R : Bytes → Bytes → Prop} {as : List Action} {s : State}
    (hrun : run step init as = some s) (hcomputes : Guarded step (Computes R) init as)
    (hother : Guarded step FindsNoOther init as) :
    ∀ c ∈ s.log.completions, IsResult R s c.callee c.pack := by
  intro c hc
  obtain ⟨j, hj, hresult⟩ :=
    run_responses hrun hcomputes c.number c.pack (Or.inr ⟨c, hc, rfl, rfl⟩)
  have hcallee := run_callees hrun (hcomputes.mono fun _ _ h => h.1.1) hother c hc
  rw [hj] at hcallee
  cases hcallee
  exact hresult

end CppSerializer.Launcher
