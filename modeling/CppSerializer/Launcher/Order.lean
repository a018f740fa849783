import CppSerializer.Launcher.Conservation
import CppSerializer.Library.OnlyLeft

/-!
# The order of dispatch

Calls of the launcher that are made one at a time. A loop of `start_jobs` takes the job at the
front of the queue, and one that finds no valid worker pushes it again at the back. The jobs are
passed to workers in the order of their submission, and every search without a worker leaves the
queue as it was, exactly if each such push is into an empty queue (`inOrder_iff`).
-/

namespace CppSerializer.Launcher

open Pack Transition State

/-! ## Calls one at a time -/

/-- The action is a call of the launcher. -/
def Action.IsCall : Action → Prop
  | .startTriggerPost .. | .addWorker | .startJobs => True
  | .dereg .. | .fail .. | .ack .. | .respond .. | .expire .. | .waited .. | .strand ..
  | .call .. => False

/-- A call is made when no other is in progress. -/
def OneAtATime (s : State) (a : Action) : Prop := a.IsCall → ∀ c ∈ s.calls, c = .returned

/-- The call, if it is in progress. -/
def Call.left : Call → List Call
  | .returned => []
  | c => [c]

theorem Call.left_eq_nil {c : Call} : c.left = [] ↔ c = .returned := by
  cases c <;> simp [Call.left]

theorem Call.popped_of_left {c : Call} (h : c.left = []) : c.popped = [] := by
  rw [Call.left_eq_nil.mp h]
  rfl

/-- At most one call is in progress. -/
def State.Sequential (s : State) : Prop := ∃ cs, OnlyLeft Call.left s.calls cs

theorem sequential_of_idle {s : State} (h : ∀ c ∈ s.calls, c = .returned) :
    OnlyLeft Call.left s.calls [] :=
  OnlyLeft.nil_iff.mpr fun c hc => Call.left_eq_nil.mpr (h c hc)

/-- The call that takes a step is the one in progress. -/
theorem State.Sequential.set {s : State} (hs : s.Sequential) {i : Nat} {c : Call}
    (hc : s.calls[i]? = some c) (hne : c ≠ .returned) (c' : Call) :
    s.calls.flatMap Call.popped = c.popped ∧
    (s.calls.set i c').flatMap Call.popped = c'.popped ∧
    OnlyLeft Call.left (s.calls.set i c') c'.left := by
  obtain ⟨cs, hcs⟩ := hs
  have hleft : c.left ≠ [] := fun h => hne (Call.left_eq_nil.mp h)
  have hset := (hcs.set hc hleft).2 c'
  refine ⟨hcs.flatMap_eq (fun _ => Call.popped_of_left) hc hleft, ?_, hset⟩
  by_cases hreturned : c'.left = []
  · rw [hreturned] at hset
    rw [Call.popped_of_left hreturned, List.flatMap_eq_nil_iff]
    intro d hd
    exact Call.popped_of_left (OnlyLeft.nil_iff.mp hset d hd)
  · have hlt := (List.getElem?_eq_some_iff.mp hc).1
    exact hset.flatMap_eq (fun _ => Call.popped_of_left) (List.getElem?_set_self hlt) hreturned

/-! ## Jobs that wait -/

/-- The jobs that were submitted and not passed to a worker, one that a loop has popped
first. -/
def State.inLine (s : State) : List JobId := s.calls.flatMap Call.popped ++ s.registeredJobs

/-- The job that the step passes to `start_post`. -/
def State.dispatchedBy (s : State) : Action → List JobId
  | .call i .startPost =>
    match s.calls[i]? with
    | some (.startPost j _) => [j]
    | _ => []
  | _ => []

/-- The jobs that were passed to `start_post` in a run, in order. -/
def dispatched (as : List Action) : List JobId := trace step State.dispatchedBy init as

theorem dispatchedBy_eq_nil {s : State} {a : Action} (ha : ∀ i, a ≠ .call i .startPost) :
    s.dispatchedBy a = [] := by
  cases a with
  | call i op =>
    cases op with
    | startPost => exact absurd rfl (ha i)
    | _ => rfl
  | _ => rfl

/-- What a step does to the jobs that wait when calls are made one at a time. -/
inductive OrderStep (s t : State) (a : Action) : Prop
  | submit (inLine : t.inLine = s.inLine ++ [s.jobs.length])
      (length : t.jobs.length = s.jobs.length + 1) (dispatched : s.dispatchedBy a = [])
  | post (j : JobId) (inLine : s.inLine = j :: t.inLine) (length : t.jobs.length = s.jobs.length)
      (dispatched : s.dispatchedBy a = [j])
  | repush (i : Nat) (j : JobId) (action : a = .call i .repush)
      (call : s.calls[i]? = some (.scan j [])) (before : s.inLine = j :: s.registeredJobs)
      (inLine : t.inLine = s.registeredJobs ++ [j]) (length : t.jobs.length = s.jobs.length)
      (dispatched : s.dispatchedBy a = [])
  | keep (ha : ∀ i, a ≠ .call i .repush) (inLine : t.inLine = s.inLine)
      (length : t.jobs.length = s.jobs.length) (dispatched : s.dispatchedBy a = [])

theorem inLine_congr {s t : State} (hregistered : t.registeredJobs = s.registeredJobs)
    (hcalls : t.calls.flatMap Call.popped = s.calls.flatMap Call.popped) :
    t.inLine = s.inLine := by
  rw [inLine, inLine, hregistered, hcalls]

/-- A call goes on to hold the same job. -/
theorem inLine_setCall {s t : State} (hs : s.Sequential) {i : Nat} {c c' : Call}
    (hc : s.calls[i]? = some c) (hne : c ≠ .returned) (hcalls : t.calls = s.calls.set i c')
    (hpopped : c'.popped = c.popped) (hregistered : t.registeredJobs = s.registeredJobs) :
    t.inLine = s.inLine := by
  obtain ⟨hbefore, hafter, -⟩ := hs.set hc hne c'
  apply inLine_congr hregistered
  rw [hcalls, hafter, hpopped, hbefore]

theorem orderStep_call {s t : State} (hs : s.Sequential) {i : Nat} {op : CallOp}
    (h : CallStep s i op t) : OrderStep s t (.call i op) := by
  have hlength := length_call h
  cases h with
  | emplace j job hc hjob =>
    exact .keep (by simp) (inLine_setCall hs hc (by simp) rfl rfl rfl) hlength rfl
  | tryPop held hc =>
    refine .keep (by simp) ?_ hlength rfl
    unfold State.tryPop
    split
    · rename_i j rest hregistered
      obtain ⟨hbefore, hafter, -⟩ :=
        hs.set hc (by simp) (.scan j (List.range s.workers.length))
      change (s.calls.set i _).flatMap Call.popped ++ rest = _
      rw [hafter, inLine, hbefore, hregistered]
      rfl
    · exact inLine_setCall hs hc (by simp) rfl rfl rfl
  | look j rest w worker hc hworker =>
    refine .keep (by simp) (inLine_setCall hs hc (by simp) rfl ?_ rfl) hlength rfl
    split <;> rfl
  | repush j hc =>
    obtain ⟨hbefore, hafter, -⟩ := hs.set hc (by simp) .returned
    refine .repush i j rfl hc ?_ ?_ hlength rfl
    · rw [inLine, hbefore]
      rfl
    · change (s.calls.set i .returned).flatMap Call.popped ++ (s.registeredJobs ++ [j]) = _
      rw [hafter]
      rfl
  | startPost j w job worker hc hjob hworker =>
    obtain ⟨hbefore, hafter, -⟩ := hs.set hc (by simp) (.asyncWait j)
    refine .post j ?_ hlength ?_
    · change _ = j :: ((s.calls.set i (.asyncWait j)).flatMap Call.popped ++ s.registeredJobs)
      rw [inLine, hbefore, hafter]
      rfl
    · rw [dispatchedBy, hc]
  | asyncWait j job hc hjob =>
    exact .keep (by simp) (inLine_setCall hs hc (by simp) rfl rfl rfl) hlength rfl
  | expiresFromNow j job hc hjob =>
    have hsame := sameDispatch_complete s j .operationAborted
    have hcalls : (s.complete j .operationAborted).calls.set i (.tryPop (some j)) =
        s.calls.set i (.tryPop (some j)) := by rw [hsame.calls]
    exact .keep (by simp) (inLine_setCall hs hc (by simp) hcalls rfl hsame.registeredJobs) hlength
      rfl

theorem orderStep {s t : State} {a : Action} (hs : s.Sequential) (hcodes : TimerCodes s)
    (h : s.step a = some t) : OrderStep s t a := by
  have hdispatched : (∀ i op, a ≠ .call i op) → s.dispatchedBy a = [] :=
    fun ha => dispatchedBy_eq_nil fun i => ha i _
  cases dispatchStep h with
  | submit _ _ _ registeredJobs calls workers length =>
    refine .submit ?_ length rfl
    rw [inLine, inLine, registeredJobs, calls, List.flatMap_append, List.append_assoc,
      List.append_assoc]
    rfl
  | start _ ha hw new fresh registeredJobs calls workers length =>
    refine .keep (fun i => ha i _) (inLine_congr registeredJobs ?_) length (hdispatched ha)
    rw [calls, List.flatMap_append]
    exact List.append_nil _
  | worker _ ha hw w before after found posted valid registeredJobs calls workers length =>
    exact .keep (fun i => ha i _) (inLine_congr registeredJobs (by rw [calls])) length
      (hdispatched ha)
  | waited i j ec found registeredJobs calls workers length =>
    have hec : repushes ec = false := hcodes _ (List.mem_of_getElem? found)
    rw [hec, if_neg Bool.false_ne_true] at registeredJobs
    exact .keep (by simp) (inLine_congr registeredJobs (by rw [calls])) length rfl
  | call i op hcall => exact orderStep_call hs hcall
  | other _ ha hw same =>
    exact .keep (fun i => ha i _) (inLine_congr same.registeredJobs (by rw [same.calls]))
      same.length (hdispatched ha)

/-! ## Runs of calls one at a time -/

theorem call_of_callStep {s t : State} {i : Nat} {op : CallOp} (h : CallStep s i op t) :
    ∃ c c', s.calls[i]? = some c ∧ c ≠ .returned ∧ t.calls = s.calls.set i c' := by
  obtain ⟨c', hcalls, -⟩ := calls_of_callStep h
  cases h with
  | emplace _ _ hc | tryPop _ hc | look _ _ _ _ hc | repush _ hc | startPost _ _ _ _ hc
  | asyncWait _ _ hc | expiresFromNow _ _ hc => exact ⟨_, c', hc, by simp, hcalls⟩

/-- Only calls change where a call is. -/
theorem calls_of_step {s t : State} {a : Action} (ha : ¬ a.IsCall) (h : s.step a = some t) :
    (t.calls = s.calls ∧ ∀ i op, a ≠ .call i op) ∨ ∃ i op, a = .call i op ∧ CallStep s i op t := by
  unfold State.step at h
  split at h
  · cases h
  cases a with
  | startTriggerPost | addWorker | startJobs => exact absurd trivial ha
  | dereg w | fail w =>
    obtain ⟨worker, -, rfl⟩ := Option.map_eq_some_iff.mp h
    exact Or.inl ⟨rfl, by simp⟩
  | ack w header =>
    obtain rfl := receive_some h
    exact Or.inl ⟨rfl, by simp⟩
  | respond w origin pack =>
    obtain ⟨s₁, hreceive, rfl⟩ := Option.map_eq_some_iff.mp h
    obtain rfl := receive_some hreceive
    exact Or.inl ⟨rfl, by simp⟩
  | expire j =>
    cases h
    exact Or.inl ⟨(sameDispatch_complete s j .success).calls, by simp⟩
  | waited i =>
    obtain ⟨p, -, rfl⟩ := Option.map_eq_some_iff.mp h
    exact Or.inl ⟨rfl, by simp⟩
  | strand i => exact Or.inl ⟨(sameDispatch_runStrand h).calls, by simp⟩
  | call i op => exact Or.inr ⟨i, op, rfl, stepCall_cases h⟩

/-- A call that is made holds no job yet. -/
theorem calls_of_isCall {s t : State} {a : Action} (ha : a.IsCall) (h : s.step a = some t) :
    t.calls = s.calls ∨ ∃ d : Call, d.popped = [] ∧ t.calls = s.calls ++ [d] := by
  cases dispatchStep h with
  | submit _ _ _ registeredJobs calls => exact Or.inr ⟨_, rfl, calls⟩
  | start _ _ _ new fresh registeredJobs calls => exact Or.inr ⟨_, rfl, calls⟩
  | worker _ _ _ _ _ _ _ _ _ _ calls => exact Or.inl calls
  | other _ _ _ same => exact Or.inl same.calls
  | waited | call => cases ha

theorem State.Sequential.step {s t : State} {a : Action} (hs : s.Sequential)
    (hone : OneAtATime s a) (h : s.step a = some t) : t.Sequential := by
  by_cases ha : a.IsCall
  · have hidle := sequential_of_idle (hone ha)
    rcases calls_of_isCall ha h with hsame | ⟨d, -, hcalls⟩
    · rwa [State.Sequential, hsame]
    · rw [State.Sequential, hcalls]
      exact ⟨_, hidle.concat _⟩
  · rcases calls_of_step ha h with ⟨hsame, -⟩ | ⟨i, op, rfl, hcall⟩
    · rwa [State.Sequential, hsame]
    · obtain ⟨c, c', hc, hne, hcalls⟩ := call_of_callStep hcall
      rw [State.Sequential, hcalls]
      exact ⟨_, (hs.set hc hne c').2.2⟩

theorem run_sequential {as : List Action} {s : State} (hrun : run step init as = some s)
    (hone : Guarded step OneAtATime init as) : s.Sequential :=
  run_guarded ⟨[], rfl⟩ (fun _ _ _ hs ha ht => hs.step ha ht) hrun hone

/-- The condition on the state before a loop pushes its job again: no other job is queued. -/
def RepushesAlone (s : State) (a : Action) : Prop :=
  ∀ i, a = .call i .repush → s.registeredJobs = []

instance (s : State) (a : Action) : Decidable (RepushesAlone s a) :=
  match a with
  | .call i .repush => decidable_of_iff (s.registeredJobs = []) ⟨fun h _ _ => h, fun h => h i rfl⟩
  | .call _ .emplace | .call _ .tryPop | .call _ (.look _) | .call _ .startPost
  | .call _ .asyncWait | .call _ .expiresFromNow | .startTriggerPost .. | .addWorker | .startJobs
  | .dereg .. | .fail .. | .ack .. | .respond .. | .expire .. | .waited .. | .strand .. =>
    .isTrue fun _ h => by cases h

/-- The jobs that were passed to workers and those that wait are the jobs submitted, in
order. -/
theorem run_dispatched {as : List Action} {s : State} (hrun : run step init as = some s)
    (hone : Guarded step OneAtATime init as) (halone : Guarded step RepushesAlone init as) :
    dispatched as ++ s.inLine = List.range s.jobs.length := by
  revert hone halone
  refine run_induction (P := fun as s => Guarded step OneAtATime init as →
    Guarded step RepushesAlone init as → dispatched as ++ s.inLine = List.range s.jobs.length)
    (fun _ _ => rfl) ?_ as s hrun
  intro as s a t hs ih ht hone halone
  have hbefore := ih hone.prefix halone.prefix
  have hconcat : dispatched (as ++ [a]) = dispatched as ++ s.dispatchedBy a := trace_concat hs a
  rw [hconcat, List.append_assoc]
  cases orderStep (run_sequential hs hone.prefix) (run_timerCodes hs) ht with
  | submit inLine length dispatched =>
    rw [dispatched, inLine, length, List.nil_append, ← List.append_assoc, hbefore, List.range_succ]
  | post j inLine length dispatched =>
    rw [dispatched, length, ← hbefore, inLine]
    rfl
  | repush i j action call before inLine length dispatched =>
    have hempty := halone.last hs i action
    rw [dispatched, inLine, length, ← hbefore, before, hempty]
    rfl
  | keep ha inLine length dispatched =>
    rw [dispatched, inLine, length, List.nil_append, hbefore]

/-! ## Searches without a worker -/

/-- A loop that finds no valid worker leaves the queue as its `try_pop` has found it. -/
def LeavesQueue (as : List Action) : Prop :=
  ∀ pre i mid post s t, as = pre ++ .call i .tryPop :: (mid ++ .call i .repush :: post) →
    (∀ op, .call i op ∈ mid → ∃ w, op = .look w) → run step init pre = some s →
    run step init (pre ++ .call i .tryPop :: (mid ++ [.call i .repush])) = some t →
    t.registeredJobs = s.registeredJobs

/-- Call `i` gets to hold a job by `try_pop`; it goes on to hold it by looking at workers, and
nobody else changes the queue. -/
theorem popped_of_step {s t : State} {a : Action} (hs : s.Sequential) (hcodes : TimerCodes s)
    (hone : OneAtATime s a) (h : s.step a = some t) {i : Nat} {c : Call} {j : JobId}
    (hc : t.calls[i]? = some c) (hpopped : c.popped = [j]) :
    (a = .call i .tryPop ∧ s.registeredJobs = j :: t.registeredJobs) ∨
      ∃ c', s.calls[i]? = some c' ∧ c'.popped = [j] ∧ t.registeredJobs = s.registeredJobs ∧
        ∀ op, a = .call i op → ∃ w, op = .look w := by
  have hne : c ≠ .returned := by
    rintro rfl
    cases hpopped
  by_cases ha : a.IsCall
  · exfalso
    have hmem := List.mem_of_getElem? hc
    -- no call was in progress when a call is made
    rcases calls_of_isCall ha h with hsame | ⟨d, hd, hcalls⟩
    · rw [hsame] at hmem
      exact hne (hone ha c hmem)
    · rw [hcalls] at hmem
      rcases List.mem_append.mp hmem with hmem | hmem
      · exact hne (hone ha c hmem)
      · rw [List.mem_singleton.mp hmem, hd] at hpopped
        cases hpopped
  rcases calls_of_step ha h with ⟨hsame, hcall⟩ | ⟨k, op, rfl, hcall⟩
  · refine Or.inr ⟨c, hsame ▸ hc, hpopped, ?_, fun op hop => absurd hop (hcall i op)⟩
    cases dispatchStep h with
    | submit => exact absurd trivial ha
    | start _ _ _ new fresh registeredJobs => exact registeredJobs
    | worker _ _ _ _ _ _ _ _ _ registeredJobs => exact registeredJobs
    | waited k j ec found registeredJobs =>
      have hec : repushes ec = false := hcodes _ (List.mem_of_getElem? found)
      rwa [hec, if_neg Bool.false_ne_true] at registeredJobs
    | call k op => exact absurd rfl (hcall k op)
    | other _ _ _ same => exact same.registeredJobs
  · obtain ⟨d, d', hd, hdne, hcalls⟩ := call_of_callStep hcall
    obtain rfl : k = i := by
      by_contra hki
      rw [hcalls, List.getElem?_set_ne hki] at hc
      obtain ⟨cs, hcs⟩ := hs
      exact hki (hcs.unique hc (mt Call.left_eq_nil.mp hne) hd (mt Call.left_eq_nil.mp hdne))
    have hlt := (List.getElem?_eq_some_iff.mp hd).1
    -- only `try_pop` and a look at a worker end with a job that was popped
    have hat : ∀ e, t.calls = s.calls.set k e → e.popped = [j] := by
      intro e he
      rw [he, List.getElem?_set_self hlt] at hc
      cases hc
      exact hpopped
    cases hcall with
    | tryPop held hcall =>
      unfold State.tryPop at hat hc ⊢
      split at hat
      · rename_i j' rest hregistered
        obtain rfl := List.singleton_inj.mp (hat _ rfl)
        exact Or.inl ⟨rfl, hregistered⟩
      · cases hat _ rfl
    | look j' rest w worker hcall hworker =>
      have hsame := hat _ rfl
      refine Or.inr ⟨_, hcall, ?_, rfl, ?_⟩
      · split at hsame <;> exact hsame
      · rintro op ⟨⟩
        exact ⟨w, rfl⟩
    | expiresFromNow j' job hcall hjob =>
      have hcalls' : (s.complete j' .operationAborted).calls.set k (.tryPop (some j')) =
          s.calls.set k (.tryPop (some j')) := by
        rw [(sameDispatch_complete s j' .operationAborted).calls]
      cases hat (.tryPop (some j')) hcalls'
    | emplace | repush | startPost | asyncWait => cases hat _ rfl

/-- A job that a loop holds was at the front of the queue when the loop has popped it, with the
jobs that are in the queue behind it. -/
theorem run_searching {as : List Action} {s : State} (hrun : run step init as = some s)
    (hone : Guarded step OneAtATime init as) : ∀ i c j, s.calls[i]? = some c → c.popped = [j] →
      ∃ pre mid s₀, as = pre ++ .call i .tryPop :: mid ∧
        (∀ op, .call i op ∈ mid → ∃ w, op = .look w) ∧ run step init pre = some s₀ ∧
        s₀.registeredJobs = j :: s.registeredJobs := by
  revert hone
  refine run_induction (P := fun as s => Guarded step OneAtATime init as → ∀ i c j,
    s.calls[i]? = some c → c.popped = [j] → ∃ pre mid s₀, as = pre ++ .call i .tryPop :: mid ∧
      (∀ op, .call i op ∈ mid → ∃ w, op = .look w) ∧ run step init pre = some s₀ ∧
      s₀.registeredJobs = j :: s.registeredJobs) ?_ ?_ as s hrun
  · intro _ i c j hc
    cases hc
  intro as s a t hs ih ht hone i c j hc hpopped
  rcases popped_of_step (run_sequential hs hone.prefix) (run_timerCodes hs) (hone.last hs) ht hc
    hpopped with ⟨rfl, hregistered⟩ | ⟨c', hc', hpopped', hsame, hlook⟩
  · exact ⟨as, [], s, rfl, by simp, hs, hregistered⟩
  · obtain ⟨pre, mid, s₀, rfl, hmid, hs₀, hregistered⟩ := ih hone.prefix i c' j hc' hpopped'
    refine ⟨pre, mid ++ [a], s₀, by simp, ?_, hs₀, hregistered.trans (by rw [hsame])⟩
    intro op hop
    rcases List.mem_append.mp hop with hop | hop
    · exact hmid op hop
    · exact hlook op (List.mem_singleton.mp hop).symm

/-- The last `try_pop` of a call is where the run splits. -/
theorem split_unique {α : Type*} {pre mid pre' mid' : List α} {a : α}
    (h : pre ++ a :: mid = pre' ++ a :: mid') (hmid : a ∉ mid) (hmid' : a ∉ mid') :
    pre = pre' := by
  rcases List.append_eq_append_iff.mp h with ⟨more, hpre, hrest⟩ | ⟨more, hpre, hrest⟩
  · cases more with
    | nil => rw [hpre, List.append_nil]
    | cons b more =>
      obtain ⟨-, rfl⟩ := List.cons.inj hrest
      simp at hmid
  · cases more with
    | nil => rw [hpre, List.append_nil]
    | cons b more =>
      obtain ⟨-, rfl⟩ := List.cons.inj hrest
      simp at hmid'

/-- A loop that pushes its job again has found it at the front of the queue, before those that
are queued now. -/
theorem repush_some {as : List Action} {s t : State} {i : Nat} (hrun : run step init as = some s)
    (hone : Guarded step OneAtATime init as) (h : s.step (.call i .repush) = some t) :
    ∃ j pre mid s₀, as = pre ++ .call i .tryPop :: mid ∧
      (∀ op, .call i op ∈ mid → ∃ w, op = .look w) ∧ run step init pre = some s₀ ∧
      s₀.registeredJobs = j :: s.registeredJobs ∧ t.registeredJobs = s.registeredJobs ++ [j] ∧
      j ∉ s.registeredJobs := by
  rcases calls_of_step (by exact id) h with ⟨-, hcall⟩ | ⟨_, _, ha, hcall⟩
  · exact absurd rfl (hcall i .repush)
  · cases ha
    cases hcall with
    | repush j hc =>
      obtain ⟨pre, mid, s₀, has, hmid, hs₀, hregistered⟩ := run_searching hrun hone i _ j hc rfl
      refine ⟨j, pre, mid, s₀, has, hmid, hs₀, hregistered, rfl, ?_⟩
      have hnodup := (run_placed hrun).nodup
      rw [places, List.nodup_append] at hnodup
      intro hmem
      refine hnodup.2.2 j hmem j ?_ rfl
      exact List.mem_filterMap.mpr ⟨_, List.mem_of_getElem? hc, rfl⟩

/-- In a run of calls made one at a time, jobs are passed to workers in the order of their
submission, and every search without a worker leaves the queue as it was, exactly if a loop
pushes its job again only when no other job is queued. -/
theorem inOrder_iff {as : List Action} {s : State} (hrun : run step init as = some s)
    (hone : Guarded step OneAtATime init as) :
    (dispatched as <+: List.range s.jobs.length ∧ LeavesQueue as) ↔
      Guarded step RepushesAlone init as := by
  constructor
  · rintro ⟨-, hleaves⟩ pre a post u rfl hu i rfl
    obtain ⟨u', hu', hrest⟩ := run_append_some hrun
    rw [hu] at hu'
    cases hu'
    rw [run_cons] at hrest
    obtain ⟨t, ht, -⟩ := Option.bind_eq_some_iff.mp hrest
    obtain ⟨j, before, mid, s₀, rfl, hmid, hs₀, hfront, hback, hfresh⟩ :=
      repush_some hu hone.prefix ht
    have hsame := hleaves before i mid post s₀ t (by simp) hmid hs₀
      (by simpa using run_concat hu ht)
    rw [hback, hfront] at hsame
    cases hqueue : u.registeredJobs with
    | nil => rfl
    | cons k queue =>
      rw [hqueue] at hsame hfresh
      obtain ⟨rfl, -⟩ := List.cons.inj hsame
      exact absurd List.mem_cons_self hfresh
  · intro halone
    refine ⟨⟨s.inLine, run_dispatched hrun hone halone⟩, ?_⟩
    rintro pre i mid post s₀ t rfl hmid hs₀ ht
    have hsplit : pre ++ .call i .tryPop :: (mid ++ .call i .repush :: post) =
        (pre ++ .call i .tryPop :: mid) ++ .call i .repush :: post := by simp
    rw [hsplit] at hone halone
    have ht' : run step init ((pre ++ .call i .tryPop :: mid) ++ [.call i .repush]) = some t := by
      simpa using ht
    obtain ⟨u, hu, hstep⟩ := run_concat_some ht'
    obtain ⟨j, before, mid', s₁, heq, hmid', hs₁, hfront, hback, -⟩ :=
      repush_some hu hone.prefix hstep
    have hnone : ∀ m : List Action, (∀ op, .call i op ∈ m → ∃ w, op = .look w) →
        .call i .tryPop ∉ m := by
      intro m hm hmem
      obtain ⟨w, hw⟩ := hm _ hmem
      cases hw
    obtain rfl := split_unique heq (hnone mid hmid) (hnone mid' hmid')
    rw [hs₀] at hs₁
    cases hs₁
    have hempty := halone _ _ post u rfl hu i rfl
    rw [hback, hfront, hempty]
    rfl

/-! ## Two jobs and a late worker -/

/-- The steps of a loop of `start_jobs` that finds no worker. -/
def searchRun (i : Nat) : List Action := [.call i .emplace, .call i .tryPop, .call i .repush]

/-- The steps in which call `i` takes a job and passes it to worker 0. -/
def passRun (i : Nat) : List Action :=
  [.call i .tryPop, .call i (.look 0), .call i .startPost, .call i .asyncWait,
    .call i .expiresFromNow]

def submission (sequence unit : UnitT) : Action :=
  .startTriggerPost (List.Vector.replicate 4 sequence) (List.Vector.replicate 4 sequence) [unit]

/-- Two jobs are submitted before a worker registers. -/
def lateWorkerRun : List Action :=
  submission 1 65 :: searchRun 0 ++ submission 2 66 :: searchRun 1 ++ .addWorker :: passRun 2 ++
    passRun 2

theorem lateWorkerRun_end : (run step init lateWorkerRun).map (fun s => s.jobs.length) = some 2 ∧
    dispatched lateWorkerRun = [1, 0] := by
  decide +kernel

instance (s : State) (a : Action) : Decidable (OneAtATime s a) :=
  match a with
  | .startTriggerPost .. | .addWorker | .startJobs =>
    decidable_of_iff (∀ c ∈ s.calls, c = .returned) ⟨fun h _ => h, fun h => h trivial⟩
  | .dereg .. | .fail .. | .ack .. | .respond .. | .expire .. | .waited .. | .strand ..
  | .call .. => .isTrue fun h => h.elim

/-- The job that was submitted last is passed to the worker first. -/
theorem late_worker_reverses : ¬ ∀ as s, run step init as = some s →
    Guarded step OneAtATime init as → dispatched as <+: List.range s.jobs.length := by
  intro hall
  obtain ⟨s, hs, hlength⟩ := Option.map_eq_some_iff.mp lateWorkerRun_end.1
  have hone : Guarded step OneAtATime init lateWorkerRun := guarded_of_check (by decide +kernel)
  have hprefix := hall _ s hs hone
  rw [lateWorkerRun_end.2, hlength] at hprefix
  exact absurd hprefix (by decide)

/-- The first job is passed on before the second is submitted. -/
def earlyWorkerRun : List Action :=
  submission 1 65 :: searchRun 0 ++ .addWorker :: passRun 1 ++ .call 1 .tryPop ::
    submission 2 66 :: .call 2 .emplace :: passRun 2

theorem inOrder_iff_earlyWorkerRun : ∃ s, run step init earlyWorkerRun = some s ∧
    dispatched earlyWorkerRun = [0, 1] ∧
    ((dispatched earlyWorkerRun <+: List.range s.jobs.length ∧ LeavesQueue earlyWorkerRun) ↔
      Guarded step RepushesAlone init earlyWorkerRun) := by
  have hrun : (run step init earlyWorkerRun).isSome = true ∧
      dispatched earlyWorkerRun = [0, 1] := by decide +kernel
  obtain ⟨s, hs⟩ := Option.isSome_iff_exists.mp hrun.1
  have hone : Guarded step OneAtATime init earlyWorkerRun := guarded_of_check (by decide +kernel)
  exact ⟨s, hs, hrun.2, inOrder_iff hs hone⟩

end CppSerializer.Launcher
