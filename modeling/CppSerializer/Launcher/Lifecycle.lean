import CppSerializer.Launcher.Dispatch

/-!
# The states of a job

`on_worker_ack` sets the state of the job that it finds to `started`, and `on_worker_response`
calls its `on_completion_` and sets the state to `finished`; neither looks at the state before.
A job completes at most once, and its state only moves forward, in just those runs in which
every handler finds a job that is not finished (`completes_once_iff`). A worker that repeats
its response is enough to leave that.
-/

namespace CppSerializer.Launcher

open Pack Transition Shares State

/-- The place of a state on the way `registered`, `started`, `finished`. -/
def JobState.rank : JobState → Nat
  | .registered => 0
  | .started => 1
  | .finished => 2

theorem JobState.rank_le_finished (state : JobState) : state.rank ≤ JobState.finished.rank := by
  cases state <;> decide

theorem JobState.eq_finished {state : JobState} (h : JobState.started.rank < state.rank) :
    state = .finished := by
  cases state with
  | registered | started => exact absurd h (by decide)
  | finished => rfl

/-! ## Steps -/

/-- How often `on_completion_` of the job was called. -/
def State.completed (s : State) (j : JobId) : Nat :=
  (s.log.completions.map Completion.callee).count j

/-- The steps that matter to the states of jobs. Another handler finds no job. -/
inductive LifeStep (s t : State) : Action → Prop
  | submit (a : Action) (ha : ∀ i, a ≠ .strand i) (states : t.states = s.states ++ [.registered])
      (completed : ∀ j, t.completed j = s.completed j) : LifeStep s t a
  | ack (i : Nat) (header : PacketHeader) (j : JobId)
      (posted : s.strand[i]? = some (.ack header))
      (found : (s.startedJobs.index header).2 = some j) (lt : j < s.states.length)
      (states : t.states = s.states.set j .started)
      (completed : ∀ k, t.completed k = s.completed k) : LifeStep s t (.strand i)
  | response (i number : Nat) (pack : Packet) (j : JobId)
      (posted : s.strand[i]? = some (.response number pack))
      (found : (s.startedJobs.index pack.header).2 = some j) (lt : j < s.states.length)
      (states : t.states = s.states.set j .finished)
      (completed : ∀ k, t.completed k = s.completed k + if j = k then 1 else 0) :
      LifeStep s t (.strand i)
  | other (a : Action) (states : t.states = s.states)
      (completed : ∀ j, t.completed j = s.completed j)
      (missed : ∀ i handler j, a = .strand i → s.strand[i]? = some handler →
        (s.startedJobs.index handler.header).2 = some j → s.states[j]? = none) : LifeStep s t a

theorem completed_of_log {s t : State} (h : t.log = s.log) (j : JobId) :
    t.completed j = s.completed j := by
  rw [State.completed, State.completed, h]

theorem complete_log (s : State) (j : JobId) (ec : ErrorCode) : (s.complete j ec).log = s.log :=
  (quiet_complete s j ec).log

theorem lifeStep_strand {s t : State} {i : Nat} (h : s.runStrand i = some t) :
    LifeStep s t (.strand i) := by
  obtain ⟨handler, hposted, rfl⟩ := Option.map_eq_some_iff.mp h
  have hlt : ∀ {j : JobId} {job : Job}, s.jobs[j]? = some job → j < s.states.length := by
    intro j job hjob
    rw [State.states, List.length_map]
    exact (List.getElem?_eq_some_iff.mp hjob).1
  have hmissed : ∀ {header : PacketHeader}, handler.header = header →
      (∀ j, (s.startedJobs.index header).2 = some j → s.jobs[j]? = none) →
      ∀ i' handler' j, Action.strand i = .strand i' → s.strand[i']? = some handler' →
        (s.startedJobs.index handler'.header).2 = some j → s.states[j]? = none := by
    intro header hheader hnone i' handler' j hi hposted' hfound
    cases hi
    rw [hposted] at hposted'
    cases hposted'
    rw [State.states, List.getElem?_map, hnone j (hheader ▸ hfound)]
    rfl
  cases handler with
  | ack header =>
    simp only [runAck]
    rcases withStarted_cases { s with strand := s.strand.eraseIdx i } header _ with
      ⟨m, hnone, heq⟩ | ⟨j, job, hfound, hjob, heq⟩
    · rw [heq]
      exact .other _ rfl (fun _ => rfl) (hmissed rfl hnone)
    · rw [heq]
      refine .ack i header j hposted hfound (hlt hjob) ?_ (completed_of_log (complete_log _ _ _))
      rw [states_complete]
      exact List.map_set
  | response number pack =>
    simp only [runResponse]
    rcases withStarted_cases { s with strand := s.strand.eraseIdx i } pack.header _ with
      ⟨m, hnone, heq⟩ | ⟨j, job, hfound, hjob, heq⟩
    · rw [heq]
      exact .other _ rfl (fun _ => rfl) (hmissed rfl hnone)
    · rw [heq]
      refine .response i number pack j hposted hfound (hlt hjob) List.map_set ?_
      intro k
      simp only [State.completed, List.map_append, List.map_cons, List.map_nil,
        List.count_append, List.count_singleton, beq_iff_eq]

theorem lifeStep_call {s t : State} {i : Nat} {op : CallOp} (h : CallStep s i op t) :
    LifeStep s t (.call i op) := by
  have hsame : t.states = s.states → t.log.completions = s.log.completions →
      LifeStep s t (.call i op) := by
    intro hstates hlog
    refine .other _ hstates ?_ (by simp)
    intro j
    rw [State.completed, State.completed, hlog]
  cases h with
  | tryPop held hc =>
    apply hsame
    · unfold State.tryPop
      split <;> rfl
    · unfold State.tryPop
      split <;> rfl
  | startPost j w job worker hc hjob hworker => exact hsame (map_set_eq hjob rfl) rfl
  | asyncWait j job hc hjob => exact hsame (map_set_eq hjob rfl) rfl
  | expiresFromNow j job hc hjob =>
    apply hsame
    · rw [← states_complete s j .operationAborted]
      exact map_set_eq hjob rfl
    · exact congrArg Log.completions (complete_log s j .operationAborted)
  | _ => exact hsame rfl rfl

theorem lifeStep {s t : State} {a : Action} (h : s.step a = some t) : LifeStep s t a := by
  unfold step at h
  split at h
  · cases h
  cases a with
  | startTriggerPost randomSalt sequence body =>
    simp only at h
    split at h <;> cases h
    exact .submit _ (by simp) List.map_append fun _ => rfl
  | addWorker | startJobs =>
    cases h
    exact .other _ rfl (fun _ => rfl) (by simp)
  | dereg w =>
    obtain ⟨worker, -, rfl⟩ := Option.map_eq_some_iff.mp h
    exact .other _ rfl (fun _ => rfl) (by simp)
  | fail w inBody =>
    obtain ⟨worker, -, rfl⟩ := Option.map_eq_some_iff.mp h
    exact .other _ rfl (fun _ => rfl) (by simp)
  | ack w header =>
    obtain rfl := receive_some h
    exact .other _ rfl (fun _ => rfl) (by simp)
  | respond w origin pack =>
    obtain ⟨s₁, hreceive, rfl⟩ := Option.map_eq_some_iff.mp h
    obtain rfl := receive_some hreceive
    exact .other _ rfl (fun _ => rfl) (by simp)
  | expire j =>
    cases h
    exact .other _ (states_complete s j .success) (completed_of_log (complete_log s j .success))
      (by simp)
  | waited i =>
    obtain ⟨p, -, rfl⟩ := Option.map_eq_some_iff.mp h
    exact .other _ rfl (fun _ => rfl) (by simp)
  | strand i => exact lifeStep_strand h
  | call i op => exact lifeStep_call (stepCall_cases h)

/-! ## Completion at most once -/

/-- The state of no job goes backwards. -/
def Forward (s t : State) : Prop :=
  ∀ (j : JobId) (x y : JobState), s.states[j]? = some x → t.states[j]? = some y → x.rank ≤ y.rank

/-- No `on_completion_` was called twice. -/
def CompletedOnce (s : State) : Prop := ∀ j, s.completed j ≤ 1

/-- The condition on the state before a handler runs: the job that it finds is not finished. -/
def FindsUnfinished (s : State) (a : Action) : Prop :=
  ∀ i handler j, a = .strand i → s.strand[i]? = some handler →
    (s.startedJobs.index handler.header).2 = some j → s.states[j]? ≠ some .finished

/-- Only a call of its `on_completion_` finishes a job. -/
theorem run_finished {as : List Action} {s : State} (hrun : run step init as = some s) :
    ∀ j, s.states[j]? = some .finished → 1 ≤ s.completed j := by
  refine run_induction
    (P := fun _ s => ∀ j, s.states[j]? = some .finished → 1 ≤ s.completed j) ?_ ?_ as s hrun
  · intro j hj
    cases hj
  intro as s a t hs ih ht j hj
  cases lifeStep ht with
  | submit _ ha states completed =>
    rw [states] at hj
    rw [completed]
    by_cases hlt : j < s.states.length
    · rw [List.getElem?_append_left hlt] at hj
      exact ih j hj
    · rw [List.getElem?_append_right (Nat.le_of_not_lt hlt)] at hj
      have hmem := List.mem_of_getElem? hj
      cases List.mem_singleton.mp hmem
  | ack i header k posted found lt states completed =>
    rw [states] at hj
    rw [completed]
    by_cases hkj : k = j
    · subst hkj
      rw [List.getElem?_set_self lt] at hj
      cases hj
    · rw [List.getElem?_set_ne hkj] at hj
      exact ih j hj
  | response i number pack k posted found lt states completed =>
    rw [states] at hj
    rw [completed]
    by_cases hkj : k = j
    · rw [if_pos hkj]
      omega
    · rw [List.getElem?_set_ne hkj] at hj
      have := ih j hj
      omega
  | other _ states completed missed =>
    rw [states] at hj
    rw [completed]
    exact ih j hj

/-- What a run leaves whose handlers find no finished job: the jobs that completed are finished,
and completed once. -/
structure Lived (s : State) : Prop where
  once : CompletedOnce s
  finished : ∀ j, 1 ≤ s.completed j → s.states[j]? = some .finished

theorem Lived.step {s t : State} {a : Action} (hl : Lived s) (h : LifeStep s t a)
    (hguard : FindsUnfinished s a) : Lived t := by
  cases h with
  | submit _ ha states completed =>
    refine ⟨fun j => (completed j).symm ▸ hl.once j, fun j hj => ?_⟩
    rw [completed] at hj
    have hfinished := hl.finished j hj
    obtain ⟨hlt, -⟩ := List.getElem?_eq_some_iff.mp hfinished
    rw [states, List.getElem?_append_left hlt]
    exact hfinished
  | ack i header k posted found lt states completed =>
    refine ⟨fun j => (completed j).symm ▸ hl.once j, fun j hj => ?_⟩
    rw [completed] at hj
    have hfinished := hl.finished j hj
    have hkj : k ≠ j := by
      rintro rfl
      exact hguard i _ k rfl posted found hfinished
    rw [states, List.getElem?_set_ne hkj]
    exact hfinished
  | response i number pack k posted found lt states completed =>
    have hnone : s.completed k = 0 := by
      by_contra hne
      exact hguard i _ k rfl posted found (hl.finished k (by omega))
    refine ⟨fun j => ?_, fun j hj => ?_⟩
    · rw [completed]
      by_cases hkj : k = j
      · subst hkj
        rw [if_pos rfl, hnone]
      · rw [if_neg hkj]
        exact hl.once j
    · rw [completed] at hj
      by_cases hkj : k = j
      · subst hkj
        rw [states, List.getElem?_set_self lt]
      · rw [if_neg hkj] at hj
        rw [states, List.getElem?_set_ne hkj]
        exact hl.finished j hj
  | other _ states completed missed =>
    refine ⟨fun j => (completed j).symm ▸ hl.once j, fun j hj => ?_⟩
    rw [completed] at hj
    rw [states]
    exact hl.finished j hj

theorem run_lived {as : List Action} {s : State} (hrun : run step init as = some s)
    (hguard : Guarded step FindsUnfinished init as) : Lived s := by
  refine run_guarded (I := Lived) ?_ ?_ hrun hguard
  · exact ⟨fun j => Nat.zero_le 1, fun j hj => absurd hj (Nat.not_succ_le_zero 0)⟩
  · intro s a t hl hG ht
    exact hl.step (lifeStep ht) hG

/-- A state that is set to the state it has, or to a later one, moves no job backwards. -/
theorem forward_of_set {s t : State} {k : JobId} {state : JobState}
    (hstates : t.states = s.states.set k state)
    (hk : ∀ x, s.states[k]? = some x → x.rank ≤ state.rank) : Forward s t := by
  intro j x y hx hy
  rw [hstates] at hy
  by_cases hkj : k = j
  · subst hkj
    rw [List.getElem?_set_self (List.getElem?_eq_some_iff.mp hx).1] at hy
    cases hy
    exact hk x hx
  · rw [List.getElem?_set_ne hkj, hx] at hy
    cases hy
    exact Nat.le_refl _

theorem forward_of_unfinished {s t : State} {a : Action} (h : LifeStep s t a)
    (hguard : FindsUnfinished s a) : Forward s t := by
  cases h with
  | submit _ ha states completed =>
    intro j x y hx hy
    rw [states, List.getElem?_append_left (List.getElem?_eq_some_iff.mp hx).1, hx] at hy
    cases hy
    exact Nat.le_refl _
  | ack i header k posted found lt states completed =>
    refine forward_of_set states fun x hx => ?_
    by_contra hrank
    rw [JobState.eq_finished (Nat.lt_of_not_le hrank)] at hx
    exact hguard i _ k rfl posted found hx
  | response i number pack k posted found lt states completed =>
    exact forward_of_set states fun x _ => x.rank_le_finished
  | other _ states completed missed =>
    intro j x y hx hy
    rw [states, hx] at hy
    cases hy
    exact Nat.le_refl _

/-- A handler that finds a finished job moves it backwards, or completes it again. -/
theorem unfinished_of_once {as : List Action} {s t : State} {a : Action}
    (hrun : run step init as = some s) (hstep : s.step a = some t) (honce : CompletedOnce t)
    (hforward : Forward s t) : FindsUnfinished s a := by
  rintro i handler j rfl hposted hfound hfinished
  cases lifeStep hstep with
  | submit _ ha states completed => exact ha i rfl
  | ack _ header k posted found lt states completed =>
    rw [posted] at hposted
    cases hposted
    change (s.startedJobs.index header).2 = some j at hfound
    rw [found] at hfound
    cases hfound
    have hback := hforward j .finished .started hfinished
      (by rw [states, List.getElem?_set_self lt])
    exact absurd hback (by decide)
  | response _ number pack k posted found lt states completed =>
    rw [posted] at hposted
    cases hposted
    change (s.startedJobs.index pack.header).2 = some j at hfound
    rw [found] at hfound
    cases hfound
    have hbefore := run_finished hrun j hfinished
    have hafter := honce j
    rw [completed, if_pos rfl] at hafter
    omega
  | other _ states completed missed =>
    rw [missed i handler j rfl hposted hfound] at hfinished
    cases hfinished

/-- In a run every job completes at most once, in all states, and no step moves the state of a
job backwards, exactly if every handler finds a job that is not finished. -/
theorem completes_once_iff {as : List Action} {s : State} (hrun : run step init as = some s) :
    ((∀ pre t, pre <+: as → run step init pre = some t → CompletedOnce t) ∧
      ∀ pre a post t u, as = pre ++ a :: post → run step init pre = some t →
        t.step a = some u → Forward t u) ↔ Guarded step FindsUnfinished init as := by
  constructor
  · rintro ⟨honce, hforward⟩ pre a post t has ht
    have hsplit := hrun
    rw [has, run_append, ht, Option.bind_some, run_cons] at hsplit
    obtain ⟨u, hu, -⟩ := Option.bind_eq_some_iff.mp hsplit
    refine unfinished_of_once ht hu ?_ (hforward pre a post t u has ht hu)
    exact honce _ u ⟨post, by rw [has]; simp⟩ (run_concat ht hu)
  · intro hguard
    refine ⟨?_, ?_⟩
    · rintro pre t ⟨post, rfl⟩ ht
      exact (run_lived ht hguard.prefix).once
    · intro pre a post t u has ht hu
      exact forward_of_unfinished (lifeStep hu) (hguard pre a post t has ht)

/-! ## A worker that repeats itself -/

/-- What the worker answers to the one job. -/
def firstResponse : Packet :=
  { header := { (Job.new (List.Vector.replicate 4 1) (List.Vector.replicate 4 2) [65]).pack.header with
      type := .workerResponse, datasize := 1 }
    data := ⟨[90]⟩ }

/-- The job is posted to the worker, which sends its response twice. -/
def repeatedRun : List Action :=
  silentRun ++ [.respond 0 (some 0) firstResponse, .respond 0 (some 0) firstResponse,
    .strand 0, .strand 0]

theorem repeatedRun_end : ((run step init repeatedRun).map fun s => s.completed 0) = some 2 := by
  decide +kernel

theorem repeated_response : ¬ ∀ as s, run step init as = some s → CompletedOnce s := by
  intro hall
  obtain ⟨s, hs, hend⟩ := Option.map_eq_some_iff.mp repeatedRun_end
  have honce := hall _ s hs 0
  omega

theorem completes_once_iff_repeatedRun : ∃ s, run step init repeatedRun = some s ∧
    (((∀ pre t, pre <+: repeatedRun → run step init pre = some t → CompletedOnce t) ∧
      ∀ pre a post t u, repeatedRun = pre ++ a :: post → run step init pre = some t →
        t.step a = some u → Forward t u) ↔ Guarded step FindsUnfinished init repeatedRun) := by
  obtain ⟨s, hs, -⟩ := Option.map_eq_some_iff.mp repeatedRun_end
  exact ⟨s, hs, completes_once_iff hs⟩

end CppSerializer.Launcher
