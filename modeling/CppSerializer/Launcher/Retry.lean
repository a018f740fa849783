import CppSerializer.Launcher.Model
import CppSerializer.Library.Shares
import Mathlib.Data.List.Perm.Basic

/-!
# Jobs that are stranded

A job is in `registered_jobs_` or held by a loop of `start_jobs` until the loop has posted it
and goes on. The handler of the wait pushes it again only for an error other than
`operation_aborted`, and a steady timer completes a wait with no error or with that one, so a
job that no worker has acknowledged by then is stranded. `kept_iff` says that this is the
only way to lose one.
-/

namespace CppSerializer.Launcher

open Pack Transition Shares

/-! ## Where the jobs are -/

/-- The job that a call of `start_jobs` holds in its variable. -/
def Call.held : Call → Option JobId
  | .tryPop j => j
  | .scan j _ | .startPost j _ | .asyncWait j | .expiresFromNow j => some j
  | .emplace _ | .returned => none

namespace State

def states (s : State) : List JobState := s.jobs.map Job.state

/-- The jobs that are registered or held. -/
def places (s : State) : List JobId := s.registeredJobs ++ s.calls.filterMap Call.held

/-- A worker has acknowledged the job. -/
def Acknowledged (s : State) (j : JobId) : Prop :=
  s.states[j]? = some .started ∨ s.states[j]? = some .finished

/-- The job was posted, and it has a pending wait, 1s ahead, whose normal expiry puts it
back. -/
def RetryPending (s : State) (j : JobId) : Prop :=
  (∃ w, s.PostedTo j w) ∧ ∃ job, s.jobs[j]? = some job ∧ job.timer.waits ≠ 0 ∧
    job.timer.expiry = .oneSecond ∧ repushes .success = true

/-- The job is not stranded. -/
def Kept (s : State) (j : JobId) : Prop :=
  j ∈ s.registeredJobs ∨ (∃ c ∈ s.calls, c.held = some j) ∨ s.Acknowledged j ∨ s.RetryPending j

end State

open State

theorem mem_places {s : State} {j : JobId} :
    j ∈ s.places ↔ j ∈ s.registeredJobs ∨ ∃ c ∈ s.calls, c.held = some j := by
  rw [places, List.mem_append, List.mem_filterMap]

theorem not_retryPending (s : State) (j : JobId) : ¬ s.RetryPending j := by
  rintro ⟨-, job, -, -, -, hrepushes⟩
  cases hrepushes

theorem kept_iff_places {s : State} {j : JobId} :
    s.Kept j ↔ j ∈ s.places ∨ s.Acknowledged j := by
  rw [mem_places, Kept]
  constructor
  · rintro (h | h | h | h)
    · exact Or.inl (Or.inl h)
    · exact Or.inl (Or.inr h)
    · exact Or.inr h
    · exact absurd h (not_retryPending s j)
  · rintro ((h | h) | h)
    · exact Or.inl h
    · exact Or.inr (Or.inl h)
    · exact Or.inr (Or.inr (Or.inl h))

/-! ## Steps -/

/-- The steps that matter to the places of the jobs: a new job; a loop lets go of the job
that it has posted; and the others, which move no job away. -/
inductive PlaceStep (s t : State) : Action → Prop
  | submit (a : Action) (places : t.places.Perm (s.jobs.length :: s.places))
      (states : t.states = s.states ++ [.registered]) : PlaceStep s t a
  | release (i : Nat) (j : JobId) (call : s.calls[i]? = some (.tryPop (some j)))
      (places : s.places.Perm (j :: t.places)) (states : t.states = s.states) :
      PlaceStep s t (.call i .tryPop)
  | keep (a : Action)
      (hne : ∀ i j, a = .call i .tryPop → s.calls[i]? ≠ some (.tryPop (some j)))
      (places : t.places.Perm s.places) (length : t.states.length = s.states.length)
      (acknowledged : ∀ j, s.Acknowledged j → t.Acknowledged j) : PlaceStep s t a

theorem PlaceStep.same {s t : State} {a : Action}
    (hne : ∀ i j, a = .call i .tryPop → s.calls[i]? ≠ some (.tryPop (some j)))
    (hplaces : t.places.Perm s.places) (hstates : t.states = s.states) : PlaceStep s t a := by
  refine .keep a hne hplaces (by rw [hstates]) ?_
  intro j hj
  rwa [Acknowledged, hstates]

theorem places_complete (s : State) (j : JobId) (ec : ErrorCode) :
    (s.complete j ec).places = s.places := by
  unfold complete
  split <;> rfl

theorem states_complete (s : State) (j : JobId) (ec : ErrorCode) :
    (s.complete j ec).states = s.states := by
  unfold complete
  split
  · rename_i job hjob
    exact map_set_eq hjob rfl
  · rfl

/-- The handlers of what workers send move no job, and the job they find is acknowledged
afterwards. -/
theorem withStarted_places {s : State} {header : PacketHeader}
    {f : State → JobId → Job → State}
    (hf : ∀ s j job, s.jobs[j]? = some job → (f s j job).places = s.places ∧
      ∃ state, state ≠ .registered ∧ (f s j job).states = s.states.set j state) :
    (s.withStarted header f).places = s.places ∧
      (s.withStarted header f).states.length = s.states.length ∧
      ∀ j, s.Acknowledged j → (s.withStarted header f).Acknowledged j := by
  rcases withStarted_cases s header f with ⟨m, -, heq⟩ | ⟨j, job, -, hjob, heq⟩
  · rw [heq]
    exact ⟨rfl, rfl, fun _ hj => hj⟩
  · rw [heq]
    obtain ⟨hplaces, state, hstate, hstates⟩ := hf s j job hjob
    refine ⟨hplaces, by rw [hstates]; exact List.length_set, ?_⟩
    intro k hk
    rw [Acknowledged, hstates]
    by_cases hkj : k = j
    · subst hkj
      have hlt : k < s.states.length := by
        rw [State.states, List.length_map]
        exact (List.getElem?_eq_some_iff.mp hjob).1
      rw [List.getElem?_set_self hlt]
      cases state with
      | registered => exact absurd rfl hstate
      | started => exact Or.inl rfl
      | finished => exact Or.inr rfl
    · rw [List.getElem?_set_ne fun he => hkj he.symm]
      exact hk

theorem runAck_places (s : State) (header : PacketHeader) :
    (s.runAck header).places = s.places ∧
      (s.runAck header).states.length = s.states.length ∧
      ∀ j, s.Acknowledged j → (s.runAck header).Acknowledged j := by
  apply withStarted_places
  intro s j job hjob
  refine ⟨places_complete _ _ _, .started, by decide, ?_⟩
  rw [states_complete]
  exact List.map_set

theorem runResponse_places (s : State) (number : Nat) (pack : Packet) :
    (s.runResponse number pack).places = s.places ∧
      (s.runResponse number pack).states.length = s.states.length ∧
      ∀ j, s.Acknowledged j → (s.runResponse number pack).Acknowledged j := by
  apply withStarted_places
  intro s j job hjob
  exact ⟨rfl, .finished, by decide, List.map_set⟩

/-- A step of a call that leaves `registered_jobs_` alone and goes on to hold the same. -/
theorem places_setCall {s t : State} {i : Nat} {c c' : Call} (hc : s.calls[i]? = some c)
    (hcalls : t.calls = s.calls.set i c') (hregistered : t.registeredJobs = s.registeredJobs)
    (hheld : c'.held = c.held) : t.places.Perm s.places := by
  rw [places, places, hregistered, hcalls]
  have hset := filterMap_set_perm (g := Call.held) hc c'
  rw [hheld] at hset
  exact (hset.trans (filterMap_perm hc).symm).append_left _

theorem placeStep_tryPop {s : State} {i : Nat} {held : Option JobId}
    (hc : s.calls[i]? = some (.tryPop held)) :
    PlaceStep s (s.tryPop i) (.call i .tryPop) := by
  have hstates : (s.tryPop i).states = s.states := by
    unfold tryPop
    split <;> rfl
  -- the variable takes the popped job, and what it held before is gone
  have hplaces : s.places.Perm (held.toList ++ (s.tryPop i).places) := by
    have hbefore := filterMap_perm (g := Call.held) hc
    unfold tryPop
    split
    · rename_i j rest hregistered
      have hafter := filterMap_set_perm (g := Call.held) hc (.scan j (List.range s.workers.length))
      rw [List.perm_iff_count] at hbefore hafter ⊢
      intro k
      have hb := hbefore k
      have ha := hafter k
      simp only [Call.held, Option.toList_some, List.count_append, List.count_cons,
        List.count_nil] at hb ha
      simp only [places, setCall, hregistered, List.count_append, List.count_cons]
      omega
    · rename_i hregistered
      have hafter := filterMap_set_perm (g := Call.held) hc .returned
      rw [List.perm_iff_count] at hbefore hafter ⊢
      intro k
      have hb := hbefore k
      have ha := hafter k
      simp only [Call.held, Option.toList_none, List.count_append, List.count_nil] at hb ha
      simp only [places, setCall, hregistered, List.count_append, List.count_nil]
      omega
  cases held with
  | none =>
    refine .same ?_ hplaces.symm hstates
    intro i' j he hcall
    cases he
    rw [hc] at hcall
    cases hcall
  | some j => exact .release i j hc hplaces hstates

theorem placeStep_call {s t : State} {i : Nat} {op : CallOp} (h : s.stepCall i op = some t) :
    PlaceStep s t (.call i op) := by
  cases stepCall_cases h with
  | emplace j job hc hjob => exact .same (by simp) (places_setCall hc rfl rfl rfl) rfl
  | tryPop held hc => exact placeStep_tryPop hc
  | look j rest w worker hc hworker =>
    refine .same (by simp) (places_setCall hc rfl rfl ?_) rfl
    split <;> rfl
  | repush j hc =>
    refine .same (by simp) ?_ rfl
    have hbefore := filterMap_perm (g := Call.held) hc
    have hafter := filterMap_set_perm (g := Call.held) hc .returned
    rw [List.perm_iff_count] at hbefore hafter ⊢
    intro k
    have hb := hbefore k
    have ha := hafter k
    simp only [Call.held, Option.toList_some, Option.toList_none, List.count_append,
      List.count_nil] at hb ha
    simp only [places, setCall, List.count_append]
    omega
  | startPost j w job worker hc hjob hworker =>
    exact .same (by simp) (places_setCall hc rfl rfl rfl) (map_set_eq hjob rfl)
  | asyncWait j job hc hjob =>
    exact .same (by simp) (places_setCall hc rfl rfl rfl) (map_set_eq hjob rfl)
  | expiresFromNow j job hc hjob =>
    have hplaces := places_complete s j .operationAborted
    have hcalls : (s.complete j .operationAborted).calls[i]? = some (.expiresFromNow j) := by
      rw [← hc]
      unfold complete
      split <;> rfl
    have hstates := states_complete s j .operationAborted
    refine .same (by simp) ?_ (by rw [← hstates]; exact map_set_eq hjob rfl)
    rw [← hplaces]
    exact places_setCall hcalls rfl rfl rfl

/-- The waits are completed with the codes that a steady timer has. -/
def TimerCodes (s : State) : Prop := ∀ p ∈ s.waited, repushes p.2 = false

theorem placeStep {s t : State} {a : Action} (hcodes : TimerCodes s) (h : s.step a = some t) :
    PlaceStep s t a := by
  unfold step at h
  split at h
  · cases h
  cases a with
  | startTriggerPost randomSalt sequence body =>
    simp only at h
    split at h
    · cases h
      refine .submit _ ?_ List.map_append
      rw [List.perm_iff_count]
      intro k
      simp only [places, Call.held, List.filterMap_append, List.filterMap_cons,
        List.filterMap_nil, List.count_append, List.count_cons, List.count_nil]
      omega
    · cases h
  | addWorker | startJobs =>
    cases h
    refine .same (by simp) ?_ rfl
    simp only [places, List.filterMap_append, List.filterMap_cons, List.filterMap_nil, Call.held,
      List.append_nil]
    exact .refl _
  | dereg w =>
    obtain ⟨worker, hworker, rfl⟩ := Option.map_eq_some_iff.mp h
    exact .same (by simp) (.refl _) rfl
  | fail w inBody =>
    obtain ⟨worker, hworker, rfl⟩ := Option.map_eq_some_iff.mp h
    exact .same (by simp) (.refl _) rfl
  | ack w header =>
    obtain rfl := receive_some h
    exact .same (by simp) (.refl _) rfl
  | respond w origin pack =>
    obtain ⟨s₁, hreceive, rfl⟩ := Option.map_eq_some_iff.mp h
    obtain rfl := receive_some hreceive
    exact .same (by simp) (.refl _) rfl
  | expire j =>
    cases h
    refine .same (by simp) ?_ (states_complete s j .success)
    rw [places_complete]
  | waited i =>
    obtain ⟨⟨j, ec⟩, hwaited, rfl⟩ := Option.map_eq_some_iff.mp h
    have hec : repushes ec = false := hcodes _ (List.mem_of_getElem? hwaited)
    refine .same (by simp) ?_ rfl
    simp [places, hec]
  | strand i =>
    obtain ⟨handler, hhandler, rfl⟩ := Option.map_eq_some_iff.mp h
    cases handler with
    | ack header =>
      obtain ⟨hplaces, hlength, hacked⟩ :=
        runAck_places { s with strand := s.strand.eraseIdx i } header
      exact .keep _ (by simp) (by rw [hplaces]; exact .refl _) hlength hacked
    | response number pack =>
      obtain ⟨hplaces, hlength, hacked⟩ :=
        runResponse_places { s with strand := s.strand.eraseIdx i } number pack
      exact .keep _ (by simp) (by rw [hplaces]; exact .refl _) hlength hacked
  | call i op => exact placeStep_call h

/-! ## Invariants -/

theorem mem_waited_complete {s : State} {j : JobId} {ec : ErrorCode} {p : JobId × ErrorCode}
    (hp : p ∈ (s.complete j ec).waited) : p ∈ s.waited ∨ p.2 = ec := by
  unfold complete at hp
  split at hp
  · rcases List.mem_append.mp hp with hp | hp
    · exact Or.inl hp
    · rw [List.eq_of_mem_replicate hp]
      exact Or.inr rfl
  · exact Or.inl hp

theorem TimerCodes.complete {s : State} (hs : TimerCodes s) (j : JobId) {ec : ErrorCode}
    (hec : repushes ec = false) : TimerCodes (s.complete j ec) := by
  intro p hp
  rcases mem_waited_complete hp with hp | hp
  · exact hs p hp
  · rw [hp]
    exact hec

theorem TimerCodes.withStarted {s : State} (hs : TimerCodes s) (header : PacketHeader)
    {f : State → JobId → Job → State}
    (hf : ∀ s j job, TimerCodes s → TimerCodes (f s j job)) :
    TimerCodes (s.withStarted header f) := by
  rcases withStarted_cases s header f with ⟨m, -, heq⟩ | ⟨j, job, -, -, heq⟩
  · rw [heq]
    exact hs
  · rw [heq]
    exact hf s j job hs

theorem TimerCodes.step {s t : State} {a : Action} (hs : TimerCodes s) (h : s.step a = some t) :
    TimerCodes t := by
  unfold State.step at h
  split at h
  · cases h
  cases a with
  | startTriggerPost randomSalt sequence body =>
    simp only at h
    split at h <;> cases h
    exact hs
  | addWorker | startJobs =>
    cases h
    exact hs
  | dereg w =>
    obtain ⟨worker, -, rfl⟩ := Option.map_eq_some_iff.mp h
    exact hs
  | fail w inBody =>
    obtain ⟨worker, -, rfl⟩ := Option.map_eq_some_iff.mp h
    exact hs
  | ack w header =>
    obtain rfl := receive_some h
    exact hs
  | respond w origin pack =>
    obtain ⟨s₁, hreceive, rfl⟩ := Option.map_eq_some_iff.mp h
    obtain rfl := receive_some hreceive
    exact hs
  | expire j =>
    cases h
    exact hs.complete j rfl
  | waited i =>
    obtain ⟨p, -, rfl⟩ := Option.map_eq_some_iff.mp h
    exact fun q hq => hs q (List.mem_of_mem_eraseIdx hq)
  | strand i =>
    obtain ⟨handler, -, rfl⟩ := Option.map_eq_some_iff.mp h
    cases handler with
    | ack header =>
      apply TimerCodes.withStarted (s := { s with strand := s.strand.eraseIdx i }) hs
      intro s j job hs p hp
      rcases mem_waited_complete hp with hp | hp
      · exact hs p hp
      · rw [hp]
        rfl
    | response number pack =>
      apply TimerCodes.withStarted (s := { s with strand := s.strand.eraseIdx i }) hs
      intro s j job hs
      exact hs
  | call i op =>
    cases stepCall_cases h with
    | tryPop held hc =>
      unfold State.tryPop
      split <;> exact hs
    | expiresFromNow j job hc hjob => exact hs.complete _ rfl
    | _ => exact hs

theorem run_timerCodes {as : List Action} {s : State} (hrun : run step init as = some s) :
    TimerCodes s := by
  refine run_induction (P := fun _ s => TimerCodes s) ?_ ?_ as s hrun
  · intro p hp
    cases hp
  · intro _ s a t _ hs ht
    exact hs.step ht

/-- No job is in two places. -/
structure Placed (s : State) : Prop where
  nodup : s.places.Nodup
  lt : ∀ j ∈ s.places, j < s.jobs.length

theorem run_placed {as : List Action} {s : State} (hrun : run step init as = some s) :
    Placed s := by
  refine run_induction (P := fun _ s => Placed s) ?_ ?_ as s hrun
  · exact ⟨List.nodup_nil, fun j hj => by cases hj⟩
  intro as s a t hs ih ht
  have hlength : ∀ s : State, s.states.length = s.jobs.length := fun s => List.length_map _
  cases placeStep (run_timerCodes hs) ht with
  | submit _ places states =>
    have hlen : t.jobs.length = s.jobs.length + 1 := by
      rw [← hlength, ← hlength, states]
      exact List.length_append
    refine ⟨?_, ?_⟩
    · rw [places.nodup_iff, List.nodup_cons]
      exact ⟨fun hmem => Nat.lt_irrefl _ (ih.lt _ hmem), ih.nodup⟩
    · intro j hj
      rw [hlen]
      rcases List.mem_cons.mp (places.mem_iff.mp hj) with rfl | hj
      · exact Nat.lt_succ_self _
      · exact Nat.lt_succ_of_lt (ih.lt j hj)
  | release i j call places states =>
    have hnodup := ih.nodup
    rw [places.nodup_iff, List.nodup_cons] at hnodup
    refine ⟨hnodup.2, ?_⟩
    intro k hk
    rw [← hlength t, states, hlength s]
    exact ih.lt k (places.mem_iff.mpr (List.mem_cons_of_mem j hk))
  | keep _ _ places length acknowledged =>
    refine ⟨places.nodup_iff.mpr ih.nodup, ?_⟩
    intro k hk
    rw [← hlength t, length, hlength s]
    exact ih.lt k (places.mem_iff.mp hk)

/-! ## When no job is stranded -/

/-- The condition on the state before a `try_pop`: the job that the loop has posted in its
last round is acknowledged. -/
def ReleasesAcknowledged (s : State) (a : Action) : Prop :=
  ∀ i j, a = .call i .tryPop → s.calls[i]? = some (.tryPop (some j)) → s.Acknowledged j

theorem run_kept {as : List Action} {s : State} (hrun : run step init as = some s)
    (hguard : Guarded step ReleasesAcknowledged init as) : ∀ j < s.jobs.length, s.Kept j := by
  have hlength : ∀ s : State, s.states.length = s.jobs.length := fun s => List.length_map _
  suffices h : ∀ j < s.states.length, j ∈ s.places ∨ s.Acknowledged j by
    intro j hj
    rw [kept_iff_places]
    exact h j (by rwa [hlength])
  revert hguard
  refine run_induction (P := fun as s => Guarded step ReleasesAcknowledged init as →
    ∀ j < s.states.length, j ∈ s.places ∨ s.Acknowledged j) ?_ ?_ as s hrun
  · intro _ j hj
    cases hj
  intro as s a t hs ih ht hguard j hj
  have hbefore := ih hguard.prefix
  cases placeStep (run_timerCodes hs) ht with
  | submit _ places states =>
    rw [states, List.length_append, List.length_singleton] at hj
    by_cases hnew : j < s.states.length
    · rcases hbefore j hnew with hmem | hacked
      · exact Or.inl (places.mem_iff.mpr (List.mem_cons_of_mem _ hmem))
      · refine Or.inr ?_
        rw [Acknowledged, states, List.getElem?_append_left hnew]
        exact hacked
    · have he : j = s.jobs.length := by
        rw [← hlength]
        omega
      rw [he]
      exact Or.inl (places.mem_iff.mpr List.mem_cons_self)
  | release i k call places states =>
    rw [states] at hj
    have hacked : s.Acknowledged k := hguard.last hs i k rfl call
    rw [Acknowledged, states]
    rcases hbefore j hj with hmem | hj
    · rcases List.mem_cons.mp (places.mem_iff.mp hmem) with rfl | hmem
      · exact Or.inr hacked
      · exact Or.inl hmem
    · exact Or.inr hj
  | keep _ _ places length acknowledged =>
    rw [length] at hj
    rcases hbefore j hj with hmem | hacked
    · exact Or.inl (places.mem_iff.mpr hmem)
    · exact Or.inr (acknowledged j hacked)

/-- A loop that lets go of a job that is not acknowledged strands it. -/
theorem stranded_of_release {as : List Action} {s t : State} {i : Nat} {j : JobId}
    (hrun : run step init as = some s) (hstep : s.step (.call i .tryPop) = some t)
    (hcall : s.calls[i]? = some (.tryPop (some j))) (hacked : ¬ s.Acknowledged j) :
    j < t.jobs.length ∧ ¬ t.Kept j := by
  have hplaced := run_placed hrun
  cases placeStep (run_timerCodes hrun) hstep with
  | submit _ places states =>
    -- a `try_pop` makes no job
    unfold State.step at hstep
    split at hstep
    · cases hstep
    simp only [stepCall, hcall] at hstep
    cases hstep
    have hstates : (s.tryPop i).states = s.states := by
      unfold State.tryPop
      split <;> rfl
    rw [hstates] at states
    exact absurd (congrArg List.length states) (by simp)
  | keep _ hne => exact absurd hcall (hne i j rfl)
  | release _ k call places states =>
    rw [hcall] at call
    cases call
    have hnodup := hplaced.nodup
    rw [places.nodup_iff, List.nodup_cons] at hnodup
    have hj := hplaced.lt j (places.mem_iff.mpr List.mem_cons_self)
    have hlen : t.jobs.length = s.jobs.length := by
      have := congrArg List.length states
      simpa [State.states] using this
    refine ⟨by rwa [hlen], ?_⟩
    rw [kept_iff_places, Acknowledged, states]
    rintro (hmem | hj)
    · exact hnodup.1 hmem
    · exact hacked hj

/-- In a run no job is ever stranded exactly if every loop goes on only when the job that it
has posted is acknowledged. -/
theorem kept_iff {as : List Action} {s : State} (hrun : run step init as = some s) :
    (∀ pre t, pre <+: as → run step init pre = some t → ∀ j < t.jobs.length, t.Kept j) ↔
      Guarded step ReleasesAcknowledged init as := by
  constructor
  · intro hall pre a post t has ht i j ha hcall
    by_contra hacked
    subst ha
    rw [has, run_append, ht, Option.bind_some, run_cons] at hrun
    obtain ⟨u, hu, -⟩ := Option.bind_eq_some_iff.mp hrun
    obtain ⟨hj, hkept⟩ := stranded_of_release ht hu hcall hacked
    exact hkept (hall _ u ⟨post, by rw [has]; simp⟩ (run_concat ht hu) j hj)
  · rintro hguard pre t ⟨post, rfl⟩ ht
    exact run_kept ht hguard.prefix

/-! ## A worker that stays silent -/

/-- The loop of `start_trigger_post` posts the job to the one worker, finds no other job and
returns. -/
def silentRun : List Action :=
  [.addWorker, .startTriggerPost (List.Vector.replicate 4 1) (List.Vector.replicate 4 2) [65],
    .call 1 .emplace, .call 1 .tryPop, .call 1 (.look 0), .call 1 .startPost, .call 1 .asyncWait,
    .call 1 .expiresFromNow, .call 1 .tryPop]

theorem silentRun_end : ((run step init silentRun).map fun s => (s.places, s.states)) =
    some ([], [.registered]) := by
  decide +kernel

theorem silent_worker_strands : ¬ ∀ as s, run step init as = some s →
    ∀ j < s.jobs.length, s.Kept j := by
  intro hall
  obtain ⟨s, hs, hend⟩ := Option.map_eq_some_iff.mp silentRun_end
  obtain ⟨hplaces, hstates⟩ := Prod.mk.inj hend
  have hlen : s.jobs.length = 1 := by
    have := congrArg List.length hstates
    simpa [State.states] using this
  have hkept := hall silentRun s hs 0 (by omega)
  rw [kept_iff_places, hplaces, Acknowledged, hstates] at hkept
  simp at hkept

theorem kept_iff_silentRun :
    ∃ s, run step init silentRun = some s ∧
      ((∀ pre t, pre <+: silentRun → run step init pre = some t →
        ∀ j < t.jobs.length, t.Kept j) ↔ Guarded step ReleasesAcknowledged init silentRun) := by
  obtain ⟨s, hs, -⟩ := Option.map_eq_some_iff.mp silentRun_end
  exact ⟨s, hs, kept_iff hs⟩

end CppSerializer.Launcher
