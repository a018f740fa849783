import CppSerializer.Launcher.Dispatch

/-!
# Wake-ups that are lost

A loop of `start_jobs` that finds no valid worker pushes its job again and returns. A worker may
have registered in the meantime, with a loop of its own that has found the queue empty. While
every worker is valid this is the only way to leave a job in the queue with nobody to take it
out: `run_wakes` is the invariant, for runs whose loops push a job again only when there is no
worker or another loop is still to look at the queue. Any other push ends in a lost wake-up
(`lost_of_repush`).
-/

namespace CppSerializer.Launcher

open Pack Transition Shares State

/-! ## Calls that look at the queue again -/

/-- While every worker is valid, the call goes on to a `try_pop`. -/
def Call.able : Call → Bool
  | .returned | .scan _ [] => false
  | .emplace _ | .tryPop _ | .scan _ (_ :: _) | .startPost _ _ | .asyncWait _
  | .expiresFromNow _ => true

namespace State

def AllValid (s : State) : Prop := ∀ worker ∈ s.workers, worker.valid = true

/-- A job in the queue will be looked at. -/
def Woken (s : State) : Prop :=
  s.AllValid → s.workers ≠ [] → s.registeredJobs ≠ [] → ∃ c ∈ s.calls, c.able = true

/-- If no call is in progress and no worker has become invalid, the queue is empty or there is
no worker. -/
def NoLostWakeUp (s : State) : Prop :=
  (∀ c ∈ s.calls, c = .returned) → s.AllValid →
    (∃ worker ∈ s.workers, worker.valid = true) → s.registeredJobs = []

end State

/-- The condition on the state before a loop pushes its job again: there is no worker, or one
is invalid, or another call goes on to a `try_pop`. -/
def RepushesAwake (s : State) (a : Action) : Prop :=
  ∀ i, a = .call i .repush → s.workers = [] ∨ ¬ s.AllValid ∨
    ∃ k c, k ≠ i ∧ s.calls[k]? = some c ∧ c.able = true

/-- A call that takes a step to an able one, or leaves an able one beside it. -/
theorem exists_able_of_set {calls : List Call} {i : Nat} {c c' : Call} (hc : calls[i]? = some c)
    (hable : c'.able = true) : ∃ d ∈ calls.set i c', d.able = true :=
  ⟨c', List.mem_set (List.getElem?_eq_some_iff.mp hc).1 c', hable⟩

theorem woken_call {s t : State} {i : Nat} {op : CallOp} (h : CallStep s i op t)
    (hguard : RepushesAwake s (.call i op)) : t.Woken := by
  intro hvalid hworkers hjobs
  cases h with
  | tryPop held hc =>
    unfold State.tryPop at hvalid hworkers hjobs ⊢
    split
    · rename_i j rest hregistered
      rw [hregistered] at hworkers
      have hlength : s.workers.length ≠ 0 := fun hz => hworkers (List.eq_nil_of_length_eq_zero hz)
      refine exists_able_of_set hc ?_
      cases hrange : List.range s.workers.length with
      | nil => exact absurd (List.range_eq_nil.mp hrange) hlength
      | cons w ws => rfl
    · rename_i hregistered
      rw [hregistered] at hjobs
      exact absurd hregistered hjobs
  | look j rest w worker hc hworker =>
    have hfound : worker.valid = true := hvalid worker (List.mem_of_getElem? hworker)
    rw [if_pos hfound]
    exact exists_able_of_set hc rfl
  | repush j hc =>
    rcases hguard i rfl with hnone | hinvalid | ⟨k, c, hki, hk, hable⟩
    · exact absurd hnone hworkers
    · exact absurd hvalid hinvalid
    · refine ⟨c, ?_, hable⟩
      apply List.mem_of_getElem? (i := k)
      change (s.calls.set i Call.returned)[k]? = some c
      rw [List.getElem?_set_ne (Ne.symm hki)]
      exact hk
  | expiresFromNow j job hc hjob =>
    rw [← (sameDispatch_complete s j .operationAborted).calls] at hc
    exact exists_able_of_set hc rfl
  | emplace j job hc => exact exists_able_of_set hc rfl
  | startPost j w job worker hc => exact exists_able_of_set hc rfl
  | asyncWait j job hc => exact exists_able_of_set hc rfl

theorem allValid_of_set {workers : List Worker} {w : WorkerId} {before after : Worker}
    (found : workers[w]? = some before) (hvalid : after.valid = true → before.valid = true)
    (h : ∀ worker ∈ workers.set w after, worker.valid = true) :
    ∀ worker ∈ workers, worker.valid = true := by
  intro worker hworker
  obtain ⟨k, hk⟩ := List.mem_iff_getElem?.mp hworker
  by_cases hwk : w = k
  · subst hwk
    rw [found] at hk
    cases hk
    apply hvalid
    exact h after (List.mem_set (List.getElem?_eq_some_iff.mp found).1 after)
  · apply h
    apply List.mem_of_getElem? (i := k)
    rw [List.getElem?_set_ne hwk]
    exact hk

theorem woken_step {s t : State} {a : Action} (hs : s.Woken) (hcodes : TimerCodes s)
    (hguard : RepushesAwake s a) (h : s.step a = some t) : t.Woken := by
  cases dispatchStep h with
  | submit _ _ _ registeredJobs calls workers length =>
    intro _ _ _
    exact ⟨.emplace s.jobs.length, by rw [calls]; simp, rfl⟩
  | start _ ha hw new fresh registeredJobs calls workers length =>
    intro _ _ _
    exact ⟨.tryPop none, by rw [calls]; simp, rfl⟩
  | worker _ ha hw w before after found posted valid registeredJobs calls workers length =>
    intro hvalid hworkers hjobs
    rw [calls]
    refine hs ?_ ?_ (registeredJobs ▸ hjobs)
    · rw [AllValid, workers] at hvalid
      exact allValid_of_set found valid hvalid
    · rintro hnil
      rw [hnil] at found
      cases found
  | waited i j ec found registeredJobs calls workers length =>
    have hec : repushes ec = false := hcodes _ (List.mem_of_getElem? found)
    rw [hec, if_neg Bool.false_ne_true] at registeredJobs
    intro hvalid hworkers hjobs
    rw [calls]
    rw [AllValid, workers] at hvalid
    exact hs hvalid (workers ▸ hworkers) (registeredJobs ▸ hjobs)
  | call i op hcall => exact woken_call hcall hguard
  | other _ ha hw same =>
    intro hvalid hworkers hjobs
    rw [same.calls]
    rw [AllValid, same.workers] at hvalid
    exact hs hvalid (same.workers ▸ hworkers) (same.registeredJobs ▸ hjobs)

/-- In a run whose loops push a job again only when another loop is still to look at the
queue, or there is no worker for it, no wake-up is lost. -/
theorem run_wakes {as : List Action} {s : State} (hrun : run step init as = some s)
    (hguard : Guarded step RepushesAwake init as) : s.NoLostWakeUp := by
  have hwoken : s.Woken := by
    revert hguard
    refine run_induction (P := fun as s => Guarded step RepushesAwake init as → s.Woken) ?_ ?_
      as s hrun
    · intro _ _ hworkers
      exact absurd rfl hworkers
    · intro as s a t hs ih ht hguard
      exact woken_step (ih hguard.prefix) (run_timerCodes hs) (hguard.last hs) ht
  intro hreturned hvalid hworker
  by_contra hjobs
  obtain ⟨worker, hworker, -⟩ := hworker
  obtain ⟨c, hc, hable⟩ := hwoken hvalid (List.ne_nil_of_mem hworker) hjobs
  rw [hreturned c hc] at hable
  cases hable

/-! ## Where a wake-up is lost -/

theorem step_repush {s : State} {i : Nat} {j : JobId} (hcrashed : s.crashed = false)
    (hc : s.calls[i]? = some (.scan j [])) : s.step (.call i .repush) = some
      ({ s with
        registeredJobs := s.registeredJobs ++ [j]
        wakeups := s.wakeups + 1 }.setCall i .returned) := by
  simp only [State.step, hcrashed, stepCall, hc]
  rfl

/-- Calls that are not able leave a job in the queue there. -/
theorem exists_settled {s : State} (hcrashed : s.crashed = false)
    (hidle : ∀ c ∈ s.calls, c.able = false) (hjobs : s.registeredJobs ≠ []) :
    ∃ more u, run step s more = some u ∧ (∀ c ∈ u.calls, c = .returned) ∧
      u.workers = s.workers ∧ u.registeredJobs ≠ [] := by
  generalize hn : s.calls.countP (fun c => decide (c ≠ .returned)) = n
  induction n generalizing s with
  | zero =>
    refine ⟨[], s, rfl, ?_, rfl, hjobs⟩
    intro c hc
    have hreturned := List.countP_eq_zero.mp hn c hc
    simpa using hreturned
  | succ n ih =>
    have hpos : 0 < s.calls.countP fun c => decide (c ≠ .returned) := by
      rw [hn]
      exact Nat.succ_pos n
    obtain ⟨c, hc, hne⟩ := List.countP_pos_iff.mp hpos
    obtain ⟨i, hi⟩ := List.mem_iff_getElem?.mp hc
    obtain ⟨j, rfl⟩ : ∃ j, c = .scan j [] := by
      have hable := hidle c hc
      cases c with
      | returned => simp at hne
      | scan j rest =>
        cases rest with
        | nil => exact ⟨j, rfl⟩
        | cons w ws => cases hable
      | _ => cases hable
    have hidle' : ∀ d ∈ s.calls.set i .returned, d.able = false := by
      intro d hd
      rcases List.mem_or_eq_of_mem_set hd with hd | rfl
      · exact hidle d hd
      · rfl
    have hcount : (s.calls.set i .returned).countP (fun c => decide (c ≠ .returned)) = n := by
      obtain ⟨hlt, hget⟩ := List.getElem?_eq_some_iff.mp hi
      rw [List.countP_set hlt, hget, hn]
      simp
    obtain ⟨more, u, hrun, hreturned, hworkers, hu⟩ := ih (s := State.setCall { s with
      registeredJobs := s.registeredJobs ++ [j], wakeups := s.wakeups + 1 } i .returned) hcrashed
      hidle' (by simp [setCall]) hcount
    refine ⟨.call i .repush :: more, u, ?_, hreturned, hworkers, hu⟩
    rw [run_cons, step_repush hcrashed hi]
    exact hrun

/-- A loop that pushes its job again when no other will look at the queue, and every worker is
valid, can go on to lose the wake-up. -/
theorem lost_of_repush {s t : State} {i : Nat} (hstep : s.step (.call i .repush) = some t)
    (hguard : ¬ RepushesAwake s (.call i .repush)) :
    ∃ more u, run step t more = some u ∧ ¬ u.NoLostWakeUp := by
  simp only [RepushesAwake, Action.call.injEq, and_true, forall_eq', not_or, not_not] at hguard
  obtain ⟨hworkers, hvalid, hothers⟩ := hguard
  obtain ⟨hcrashed, -⟩ := correlationStep hstep
  cases dispatchStep hstep with
  | start _ ha => exact absurd rfl (ha i _)
  | worker _ ha => exact absurd rfl (ha i _)
  | other _ ha => exact absurd rfl (ha i _)
  | call _ _ hcall =>
    cases hcall with
    | repush j hc =>
      have hidle : ∀ c ∈ s.calls.set i .returned, c.able = false := by
        intro c hcmem
        obtain ⟨k, hk⟩ := List.mem_iff_getElem?.mp hcmem
        by_cases hki : k = i
        · subst hki
          rw [List.getElem?_set_self (List.getElem?_eq_some_iff.mp hc).1] at hk
          cases hk
          rfl
        · rw [List.getElem?_set_ne (Ne.symm hki)] at hk
          by_contra hable
          exact hothers ⟨k, c, hki, hk, by simpa using hable⟩
      obtain ⟨more, u, hrun, hreturned, hsame, hjobs⟩ := exists_settled (s := State.setCall { s with
        registeredJobs := s.registeredJobs ++ [j], wakeups := s.wakeups + 1 } i .returned) hcrashed
        hidle (by simp [setCall])
      refine ⟨more, u, hrun, ?_⟩
      intro hlost
      obtain ⟨worker, hworker⟩ := List.exists_mem_of_ne_nil _ hworkers
      have hall : u.AllValid := by
        rw [AllValid, hsame]
        exact hvalid
      apply hjobs
      apply hlost hreturned hall
      rw [hsame]
      exact ⟨worker, hworker, hvalid worker hworker⟩

/-- A job finds no worker. A worker registers, and its loop and that of the request that brought
it find the queue empty. Only then the job is pushed again. -/
def lateRepushRun : List Action :=
  [.startTriggerPost (List.Vector.replicate 4 1) (List.Vector.replicate 4 2) [65],
    .call 0 .emplace, .call 0 .tryPop, .addWorker, .call 1 .tryPop, .startJobs, .call 2 .tryPop,
    .call 0 .repush]

theorem lateRepushRun_end : ((run step init lateRepushRun).map fun s =>
    (s.calls, s.workers, s.registeredJobs)) =
      some ([.returned, .returned, .returned], [⟨true, true, []⟩], [0]) := by
  decide +kernel

theorem wake_up_lost : ¬ ∀ as s, run step init as = some s → s.NoLostWakeUp := by
  intro hall
  obtain ⟨s, hs, hend⟩ := Option.map_eq_some_iff.mp lateRepushRun_end
  simp only [Prod.mk.injEq] at hend
  obtain ⟨hcalls, hworkers, hjobs⟩ := hend
  have hnone : s.registeredJobs = [] := by
    apply hall _ s hs
    · simp [hcalls]
    · simp [AllValid, hworkers]
    · simp [hworkers]
  rw [hjobs] at hnone
  cases hnone

/-- A loop finds no worker and pushes its job again, as the first thing; the loop of the worker
that registers then takes the job. -/
def earlyRepushRun : List Action :=
  [.startTriggerPost (List.Vector.replicate 4 1) (List.Vector.replicate 4 2) [65],
    .call 0 .emplace, .call 0 .tryPop] ++ .call 0 .repush ::
  [.addWorker, .call 1 .tryPop, .call 1 (.look 0), .call 1 .startPost, .call 1 .asyncWait,
    .call 1 .expiresFromNow, .call 1 .tryPop]

theorem earlyRepushRun_guarded : Guarded step RepushesAwake init earlyRepushRun := by
  refine Guarded.append (guarded_of_forall ?_) ?_
  · intro a ha s i he
    subst he
    simp at ha
  · intro t ht
    refine guarded_cons ?_ fun u _ => guarded_of_forall ?_
    · intro i _
      have hworkers : ((run step init [.startTriggerPost (List.Vector.replicate 4 1)
          (List.Vector.replicate 4 2) [65], .call 0 .emplace, .call 0 .tryPop]).map
            State.workers) = some [] := by decide +kernel
      rw [ht] at hworkers
      exact Or.inl (Option.some.inj hworkers)
    · intro a ha s i he
      subst he
      simp at ha

theorem run_wakes_earlyRepushRun : ∃ s, run step init earlyRepushRun = some s ∧
    s.NoLostWakeUp := by
  have hrun : (run step init earlyRepushRun).isSome := by decide +kernel
  obtain ⟨s, hs⟩ := Option.isSome_iff_exists.mp hrun
  exact ⟨s, hs, run_wakes hs earlyRepushRun_guarded⟩

end CppSerializer.Launcher
