import CppSerializer.Launcher.Dispatch

/-!
# Jobs are conserved

A loop of `start_jobs` takes a job out of the queue, holds it, and posts it or pushes it again,
and the handler of a timer pushes one more copy. Here the timers may complete their waits with
any error code, so that this happens too, and a `Ledger` counts it. `jobs_conserved` says that
the copies of a job balance in every state, and that a worker who is given a packet was valid
when it was chosen.
-/

namespace CppSerializer.Launcher

open Pack Transition Shares State

/-! ## Runs with any error codes -/

/-- The launcher with the jobs that handlers of timers have pushed again. -/
structure Ledger where
  state : State
  repushed : List JobId

/-- A step of the launcher, or the completion of the waits of a job with an error code. -/
inductive LedgerAction
  | step (a : Action)
  | complete (j : JobId) (ec : ErrorCode)
  deriving DecidableEq

/-- The job that the step pushes again, when it is a handler of a timer. -/
def State.repushedBy (s : State) : Action → List JobId
  | .waited i =>
    match s.waited[i]? with
    | some (j, ec) => if repushes ec then [j] else []
    | none => []
  | _ => []

theorem repushedBy_eq_nil {s : State} {a : Action} (ha : ∀ i, a ≠ .waited i) :
    s.repushedBy a = [] := by
  cases a with
  | waited i => exact absurd rfl (ha i)
  | _ => rfl

namespace Ledger

def init : Ledger := ⟨State.init, []⟩

def step (l : Ledger) : LedgerAction → Option Ledger
  | .step a => (l.state.step a).map fun t => ⟨t, l.repushed ++ l.state.repushedBy a⟩
  | .complete j ec =>
    if l.state.crashed then none else some { l with state := l.state.complete j ec }

/-- The runs of the launcher are among those of the ledger. -/
theorem run_step {as : List Action} {s : State} (hrun : run State.step State.init as = some s) :
    ∃ l, run step init (as.map .step) = some l ∧ l.state = s := by
  refine run_induction (P := fun as s => ∃ l, run step init (as.map .step) = some l ∧ l.state = s)
    ⟨init, rfl, rfl⟩ ?_ as s hrun
  rintro as s a t hs ⟨l, hl, rfl⟩ ht
  refine ⟨⟨t, l.repushed ++ l.state.repushedBy a⟩, ?_, rfl⟩
  rw [List.map_append]
  apply run_concat hl
  rw [step, ht]
  rfl

end Ledger

/-! ## The balance -/

/-- The job that the call has popped and not posted or pushed again yet. -/
def Call.popped : Call → List JobId
  | .scan j _ | .startPost j _ => [j]
  | .emplace _ | .tryPop _ | .asyncWait _ | .expiresFromNow _ | .returned => []

/-- The calls that have popped the job and not posted or pushed it again yet. -/
def State.popped (s : State) (j : JobId) : Nat := (s.calls.flatMap Call.popped).count j

/-- How often the job was passed to `start_post`. -/
def State.timesPosted (s : State) (j : JobId) : Nat := (s.allPosted.map Prod.fst).count j

/-- The copies of a job. -/
def State.copies (s : State) (j : JobId) : Nat :=
  s.registeredJobs.count j + s.popped j + s.timesPosted j

theorem copies_congr {s t : State} (hregistered : t.registeredJobs = s.registeredJobs)
    (hcalls : t.calls.flatMap Call.popped = s.calls.flatMap Call.popped)
    (hposted : t.allPosted = s.allPosted) (j : JobId) : t.copies j = s.copies j := by
  rw [copies, copies, State.popped, State.popped, timesPosted, timesPosted, hregistered, hcalls,
    hposted]

theorem copies_same {s t : State} (h : SameDispatch s t) (j : JobId) : t.copies j = s.copies j :=
  copies_congr h.registeredJobs (by rw [h.calls]) (allPosted_of_workers h.workers) j

/-- A call that goes on to hold the same job. -/
theorem copies_setCall {s t : State} {i : Nat} {c c' : Call} (hc : s.calls[i]? = some c)
    (hcalls : t.calls = s.calls.set i c') (hpopped : c'.popped = c.popped)
    (hregistered : t.registeredJobs = s.registeredJobs) (hposted : t.allPosted = s.allPosted)
    (j : JobId) : t.copies j = s.copies j := by
  refine copies_congr hregistered ?_ hposted j
  rw [hcalls]
  exact flatMap_set_eq hc hpopped

/-- A loop that posts a job or pushes it again moves a copy and makes none. -/
theorem copies_call {s t : State} {i : Nat} {op : CallOp} (h : CallStep s i op t) (k : Nat) :
    t.copies k = s.copies k := by
  cases h with
  | emplace j job hc hjob => apply copies_setCall hc <;> rfl
  | tryPop held hc =>
    unfold State.tryPop
    split
    · rename_i j rest hregistered
      have hset := count_set (f := Call.popped) hc (.scan j (List.range s.workers.length)) k
      simp only [Call.popped, List.count_nil] at hset
      simp only [copies, State.popped, timesPosted, allPosted, setCall, hregistered,
        List.count_cons, List.count_nil] at hset ⊢
      omega
    · apply copies_setCall hc <;> rfl
  | look j rest w worker hc hworker =>
    apply copies_setCall hc rfl
    · split <;> rfl
    · rfl
    · rfl
  | repush j hc =>
    have hset := count_set (f := Call.popped) hc .returned k
    simp only [Call.popped, List.count_nil] at hset
    simp only [copies, State.popped, timesPosted, allPosted, setCall, List.count_append]
    omega
  | startPost j w job worker hc hjob hworker =>
    have hset := count_set (f := Call.popped) hc (.asyncWait j) k
    simp only [Call.popped, List.count_nil] at hset
    have hperm : ((s.workers.set w { worker with
        posted := worker.posted ++ [(j, job.pack.sized)] }).flatMap Worker.posted).Perm
          ([(j, job.pack.sized)] ++ s.allPosted) := flatMap_set_append hworker rfl
    have hposted := (hperm.map Prod.fst).count_eq k
    rw [List.map_append, List.count_append] at hposted
    simp only [copies, State.popped, timesPosted, allPosted, hposted, List.map_cons,
      List.map_nil]
    omega
  | asyncWait j job hc hjob => apply copies_setCall hc <;> rfl
  | expiresFromNow j job hc hjob =>
    have hsame := sameDispatch_complete s j .operationAborted
    rw [← hsame.calls] at hc
    rw [← copies_same hsame]
    apply copies_setCall hc <;> rfl

/-- A new job is one copy, and a job that a timer pushes again is one more. -/
theorem copies_step {s t : State} {a : Action} (h : s.step a = some t) (k : Nat) :
    t.copies k + (if k < s.jobs.length then 1 else 0) =
      s.copies k + (if k < t.jobs.length then 1 else 0) + (s.repushedBy a).count k := by
  have hkeep : t.jobs.length = s.jobs.length → s.repushedBy a = [] → t.copies k = s.copies k →
      t.copies k + (if k < s.jobs.length then 1 else 0) =
        s.copies k + (if k < t.jobs.length then 1 else 0) + (s.repushedBy a).count k := by
    intro hlength hnone hcopies
    rw [hlength, hnone, hcopies, List.count_nil, Nat.add_zero]
  cases dispatchStep h with
  | submit _ _ _ registeredJobs calls workers length =>
    have hposted := allPosted_of_workers workers
    have hnew : [s.jobs.length].count k = if k = s.jobs.length then 1 else 0 := by
      rw [List.count_singleton]
      simp only [beq_iff_eq, eq_comm (a := k)]
    simp only [copies, State.popped, timesPosted, hposted, registeredJobs, calls, length,
      repushedBy, List.count_append, List.flatMap_append, List.count_nil, List.flatMap_cons,
      List.flatMap_nil, Call.popped, hnew]
    split <;> split <;> split <;> omega
  | start _ ha hw new fresh registeredJobs calls workers length =>
    refine hkeep length (repushedBy_eq_nil hw) ?_
    refine copies_congr registeredJobs ?_ ?_ k
    · rw [calls, List.flatMap_append]
      exact List.append_nil _
    · rw [allPosted, workers, List.flatMap_append, List.flatMap_eq_nil_iff.mpr fresh]
      exact List.append_nil _
  | worker _ ha hw w before after found posted valid registeredJobs calls workers length =>
    refine hkeep length (repushedBy_eq_nil hw) ?_
    refine copies_congr registeredJobs (by rw [calls]) ?_ k
    rw [allPosted, workers]
    exact flatMap_set_eq found posted
  | waited i j ec found registeredJobs calls workers length =>
    have hposted := allPosted_of_workers workers
    simp only [copies, State.popped, timesPosted, hposted, registeredJobs, calls, length,
      repushedBy, found]
    split
    · rw [List.count_append]
      omega
    · rw [List.count_nil]
      omega
  | call i op hcall => exact hkeep (length_call hcall) rfl (copies_call hcall k)
  | other _ ha hw same => exact hkeep same.length (repushedBy_eq_nil hw) (copies_same same k)

theorem run_copies {es : List LedgerAction} {l : Ledger}
    (hrun : run Ledger.step Ledger.init es = some l) (k : Nat) : l.state.copies k =
      (if k < l.state.jobs.length then 1 else 0) + l.repushed.count k := by
  refine run_induction (P := fun _ l => l.state.copies k =
    (if k < l.state.jobs.length then 1 else 0) + l.repushed.count k) rfl ?_ es l hrun
  intro es l e l' _ ih he
  cases e with
  | step a =>
    obtain ⟨t, ht, rfl⟩ := Option.map_eq_some_iff.mp he
    have hstep := copies_step ht k
    simp only [List.count_append]
    omega
  | complete j ec =>
    simp only [Ledger.step] at he
    split at he
    · cases he
    · cases he
      have hsame := sameDispatch_complete l.state j ec
      simp only [copies_same hsame, hsame.length]
      exact ih

/-! ## The choice of a worker -/

/-- Call `i` has found worker `w` valid when `get_available_worker` looked at it for the job,
and has taken no step since. -/
def Chosen (es : List LedgerAction) (i : Nat) (j : JobId) (w : WorkerId) : Prop :=
  ∃ pre mid l rest worker, es = pre ++ .step (.call i (.look w)) :: mid ∧
    run Ledger.step Ledger.init pre = some l ∧ l.state.calls[i]? = some (.scan j rest) ∧
    l.state.workers[w]? = some worker ∧ worker.valid = true ∧
    ∀ op, LedgerAction.step (.call i op) ∉ mid

theorem Chosen.concat {es : List LedgerAction} {i : Nat} {j : JobId} {w : WorkerId}
    (h : Chosen es i j w) {e : LedgerAction} (he : ∀ op, e ≠ .step (.call i op)) :
    Chosen (es ++ [e]) i j w := by
  obtain ⟨pre, mid, l, rest, worker, rfl, hl, hcall, hworker, hvalid, hmid⟩ := h
  refine ⟨pre, mid ++ [e], l, rest, worker, by simp, hl, hcall, hworker, hvalid, ?_⟩
  intro op hmem
  rcases List.mem_append.mp hmem with hmem | hmem
  · exact hmid op hmem
  · exact he op (List.mem_singleton.mp hmem).symm

theorem calls_of_callStep {s t : State} {i : Nat} {op : CallOp} (h : CallStep s i op t) :
    ∃ c, t.calls = s.calls.set i c ∧ ∀ j w, c = .startPost j w → op = .look w ∧
      ∃ rest worker, s.calls[i]? = some (.scan j rest) ∧ s.workers[w]? = some worker ∧
        worker.valid = true := by
  cases h with
  | tryPop held hc =>
    unfold State.tryPop
    split
    · exact ⟨_, rfl, by simp⟩
    · exact ⟨_, rfl, by simp⟩
  | look j rest w worker hc hworker =>
    refine ⟨_, rfl, ?_⟩
    intro j' w' he
    split at he
    · rename_i hvalid
      cases he
      exact ⟨rfl, rest, worker, hc, hworker, hvalid⟩
    · cases he
  | expiresFromNow j job hc hjob =>
    refine ⟨.tryPop (some j), ?_, by simp⟩
    rw [← (sameDispatch_complete s j .operationAborted).calls]
    rfl
  | _ => exact ⟨_, rfl, by simp⟩

/-- A call gets to `start_post` by the look at a worker that is valid, and other steps leave
it there. -/
theorem startPost_of_step {s t : State} {a : Action} (h : s.step a = some t) {i : Nat} {j : JobId}
    {w : WorkerId} (ht : t.calls[i]? = some (.startPost j w)) :
    (s.calls[i]? = some (.startPost j w) ∧ ∀ op, a ≠ .call i op) ∨
      a = .call i (.look w) ∧ ∃ rest worker, s.calls[i]? = some (.scan j rest) ∧
        s.workers[w]? = some worker ∧ worker.valid = true := by
  -- a new call is not at `start_post`
  have hnew : ∀ c, c ≠ .startPost j w → t.calls = s.calls ++ [c] →
      s.calls[i]? = some (.startPost j w) := by
    intro c hc hcalls
    rw [hcalls] at ht
    by_cases hi : i < s.calls.length
    · rwa [List.getElem?_append_left hi] at ht
    · rw [List.getElem?_append_right (Nat.le_of_not_lt hi)] at ht
      exact absurd (List.mem_singleton.mp (List.mem_of_getElem? ht)).symm hc
  cases dispatchStep h with
  | submit _ _ _ _ calls => exact Or.inl ⟨hnew _ (by simp) calls, by simp⟩
  | start _ ha hw new _ _ calls => exact Or.inl ⟨hnew _ (by simp) calls, ha i⟩
  | worker _ ha hw _ _ _ _ _ _ _ calls => exact Or.inl ⟨calls ▸ ht, ha i⟩
  | waited _ _ _ _ _ calls => exact Or.inl ⟨calls ▸ ht, by simp⟩
  | other _ ha hw same => exact Or.inl ⟨same.calls ▸ ht, ha i⟩
  | call i' op hcall =>
    obtain ⟨c, hcalls, hchosen⟩ := calls_of_callStep hcall
    rw [hcalls] at ht
    by_cases hi : i' = i
    · subst hi
      have hc : c = .startPost j w := by
        have hlt := (List.getElem?_eq_some_iff.mp ht).1
        rw [List.length_set] at hlt
        rw [List.getElem?_set_self hlt] at ht
        exact Option.some.inj ht
      obtain ⟨rfl, rest, worker, hscan, hworker, hvalid⟩ := hchosen j w hc
      exact Or.inr ⟨rfl, rest, worker, hscan, hworker, hvalid⟩
    · rw [List.getElem?_set_ne hi] at ht
      refine Or.inl ⟨ht, ?_⟩
      intro op' he
      cases he
      exact hi rfl

theorem run_chosen {es : List LedgerAction} {l : Ledger}
    (hrun : run Ledger.step Ledger.init es = some l) : ∀ i j w,
      l.state.calls[i]? = some (.startPost j w) → Chosen es i j w := by
  refine run_induction (P := fun es l => ∀ i j w,
    l.state.calls[i]? = some (.startPost j w) → Chosen es i j w) ?_ ?_ es l hrun
  · intro i j w hcall
    cases hcall
  intro es l e l' hl ih he i j w hcall
  cases e with
  | step a =>
    obtain ⟨t, ht, rfl⟩ := Option.map_eq_some_iff.mp he
    rcases startPost_of_step ht hcall with ⟨hbefore, ha⟩ |
      ⟨rfl, rest, worker, hscan, hworker, hvalid⟩
    · refine (ih i j w hbefore).concat ?_
      intro op hop
      cases hop
      exact ha op rfl
    · exact ⟨es, [], l, rest, worker, rfl, hl, hscan, hworker, hvalid, by simp⟩
  | complete k ec =>
    simp only [Ledger.step] at he
    split at he
    · cases he
    · cases he
      rw [(sameDispatch_complete l.state k ec).calls] at hcall
      exact (ih i j w hcall).concat (by simp)

theorem startPost_enabled {s t : State} {i : Nat} (h : s.step (.call i .startPost) = some t) :
    ∃ j w, s.calls[i]? = some (.startPost j w) := by
  cases dispatchStep h with
  | start _ ha => exact absurd rfl (ha i _)
  | worker _ ha => exact absurd rfl (ha i _)
  | other _ ha => exact absurd rfl (ha i _)
  | call _ _ hcall =>
    cases hcall with
    | startPost j w job worker hc hjob hworker => exact ⟨j, w, hc⟩

/-- In every state the copies of a submitted job are in balance, and every `start_post` was on
a worker that its call had found valid. -/
theorem jobs_conserved {es : List LedgerAction} {l : Ledger}
    (hrun : run Ledger.step Ledger.init es = some l) :
    (∀ j < l.state.jobs.length, l.state.registeredJobs.count j + l.state.popped j +
      l.state.timesPosted j = 1 + l.repushed.count j) ∧
    ∀ pre i post, es = pre ++ .step (.call i .startPost) :: post →
      ∃ l' j w, run Ledger.step Ledger.init pre = some l' ∧
        l'.state.calls[i]? = some (.startPost j w) ∧ Chosen pre i j w := by
  refine ⟨?_, ?_⟩
  · intro j hj
    have hcopies := run_copies hrun j
    rw [if_pos hj] at hcopies
    exact hcopies
  · rintro pre i post rfl
    obtain ⟨l', hl', hrest⟩ := run_append_some hrun
    rw [run_cons] at hrest
    obtain ⟨u, hu, -⟩ := Option.bind_eq_some_iff.mp hrest
    obtain ⟨t, ht, -⟩ := Option.map_eq_some_iff.mp hu
    obtain ⟨j, w, hcall⟩ := startPost_enabled ht
    exact ⟨l', j, w, hl', hcall, run_chosen hl' i j w hcall⟩

/-- The job that a worker was given is pushed again by its timer. -/
def repushedRun : List LedgerAction :=
  [.step .addWorker,
    .step (.startTriggerPost (List.Vector.replicate 4 1) (List.Vector.replicate 4 2) [65]),
    .step (.call 0 .tryPop), .step (.call 0 (.look 0)), .step (.call 0 .startPost),
    .step (.call 0 .asyncWait), .complete 0 .other, .step (.waited 0)]

theorem repushedRun_end : ((run Ledger.step Ledger.init repushedRun).map fun l =>
    (l.state.registeredJobs, l.state.timesPosted 0, l.repushed)) = some ([0], 1, [0]) := by
  decide +kernel

theorem jobs_conserved_repushedRun : ∃ l, run Ledger.step Ledger.init repushedRun = some l ∧
    l.repushed = [0] ∧
    (∀ j < l.state.jobs.length, l.state.registeredJobs.count j + l.state.popped j +
      l.state.timesPosted j = 1 + l.repushed.count j) ∧
    ∀ pre i post, repushedRun = pre ++ .step (.call i .startPost) :: post →
      ∃ l' j w, run Ledger.step Ledger.init pre = some l' ∧
        l'.state.calls[i]? = some (.startPost j w) ∧ Chosen pre i j w := by
  obtain ⟨l, hl, hend⟩ := Option.map_eq_some_iff.mp repushedRun_end
  simp only [Prod.mk.injEq] at hend
  exact ⟨l, hl, hend.2.2, jobs_conserved hl⟩

end CppSerializer.Launcher
