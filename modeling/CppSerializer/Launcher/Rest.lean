import CppSerializer.Launcher.Payload
import CppSerializer.Launcher.Work

/-!
# The launcher at rest

The jobs and workers that the calls name exist (`run_named`). So a call that has not returned has
a next step, and the launcher has none to take only when every call has returned, and every handler
on the strand and of a timer has run (`returned_of_rest`). The one step that could be missing is
the post of a packet that is too large to serialize. A job whose callback was not called then
waits for something that is not the launcher's to do (`unanswered_of_rest`).
-/

namespace CppSerializer.Launcher

open Pack Transition Shares State

/-! ## What the calls name -/

def Call.job : Call → Option JobId
  | .emplace j | .scan j _ | .startPost j _ | .asyncWait j | .expiresFromNow j => some j
  | .tryPop _ | .returned => none

def Call.scanned : Call → List WorkerId
  | .scan _ rest => rest
  | .startPost _ w => [w]
  | .emplace _ | .tryPop _ | .asyncWait _ | .expiresFromNow _ | .returned => []

/-- The jobs and workers of the call are there. -/
structure Call.Named (s : State) (c : Call) : Prop where
  job : ∀ j ∈ c.job, j < s.jobs.length
  workers : ∀ w ∈ c.scanned, w < s.workers.length

theorem Call.Named.mono {s t : State} {c : Call} (h : c.Named s)
    (hjobs : s.jobs.length ≤ t.jobs.length) (hworkers : s.workers.length ≤ t.workers.length) :
    c.Named t :=
  ⟨fun j hj => Nat.lt_of_lt_of_le (h.job j hj) hjobs,
    fun w hw => Nat.lt_of_lt_of_le (h.workers w hw) hworkers⟩

/-- A call that names a job only. -/
theorem named_of_job {s : State} {c : Call} (hjob : ∀ j ∈ c.job, j < s.jobs.length)
    (hnone : c.scanned = []) : c.Named s := by
  refine ⟨hjob, ?_⟩
  intro w hw
  rw [hnone] at hw
  cases hw

theorem named_tryPop (s : State) (held : Option JobId) : (Call.tryPop held).Named s :=
  named_of_job (by simp [Call.job]) rfl

theorem named_returned (s : State) : Call.returned.Named s :=
  named_of_job (by simp [Call.job]) rfl

theorem length_workers {s t : State} {i : Nat} {op : CallOp} (h : CallStep s i op t) :
    t.workers.length = s.workers.length := by
  cases h with
  | tryPop held hc =>
    unfold State.tryPop
    split <;> rfl
  | startPost => exact List.length_set
  | expiresFromNow j job hc hjob =>
    exact congrArg List.length (sameDispatch_complete s j .operationAborted).workers
  | _ => rfl

/-- What a call goes on to do names what it has named, or a job of the queue and workers. -/
theorem named_call {s t : State} {i : Nat} {op : CallOp} (h : CallStep s i op t)
    (hs : ∀ c ∈ s.calls, c.Named s) (hqueue : ∀ j ∈ s.registeredJobs, j < s.jobs.length) :
    ∀ c ∈ t.calls, c.Named s := by
  have hset : ∀ {c c' : Call}, s.calls[i]? = some c → c'.Named s → ∀ calls,
      calls = s.calls.set i c' → ∀ c ∈ calls, c.Named s := by
    rintro c c' - hc' calls rfl d hd
    rcases List.mem_or_eq_of_mem_set hd with hold | rfl
    · exact hs d hold
    · exact hc'
  cases h with
  | emplace j job hc hjob => exact hset hc (named_tryPop s none) _ rfl
  | tryPop held hc =>
    unfold State.tryPop
    split
    · rename_i j rest hregistered
      have hafter : (Call.scan j (List.range s.workers.length)).Named s := by
        refine ⟨?_, fun w hw => List.mem_range.mp hw⟩
        rintro k ⟨⟩
        apply hqueue
        rw [hregistered]
        exact List.mem_cons_self
      exact hset hc hafter _ rfl
    · exact hset hc (named_returned s) _ rfl
  | look j rest w worker hc hworker =>
    have hcall := hs _ (List.mem_of_getElem? hc)
    refine hset hc ?_ _ rfl
    split
    · refine ⟨hcall.job, ?_⟩
      intro w' hw
      rw [List.mem_singleton.mp hw]
      exact (List.getElem?_eq_some_iff.mp hworker).1
    · exact ⟨hcall.job, fun w' hw => hcall.workers w' (List.mem_of_mem_erase hw)⟩
  | repush j hc => exact hset hc (named_returned s) _ rfl
  | startPost j w job worker hc hjob hworker =>
    have hcall := hs _ (List.mem_of_getElem? hc)
    have hafter : (Call.asyncWait j).Named s := named_of_job hcall.job rfl
    exact hset hc hafter _ rfl
  | asyncWait j job hc hjob =>
    have hcall := hs _ (List.mem_of_getElem? hc)
    have hafter : (Call.expiresFromNow j).Named s := named_of_job hcall.job rfl
    exact hset hc hafter _ rfl
  | expiresFromNow j job hc hjob =>
    refine hset hc (named_tryPop s (some j)) _ ?_
    rw [setCall, (sameDispatch_complete s j .operationAborted).calls]

theorem registered_lt {as : List Action} {s : State} (hrun : run step init as = some s) :
    ∀ j ∈ s.registeredJobs, j < s.jobs.length := by
  intro j hj
  have hcopies := run_copies_eq hrun j
  have hpos := List.count_pos_iff.mpr hj
  rw [copies] at hcopies
  split at hcopies <;> omega

theorem run_named {as : List Action} {s : State} (hrun : run step init as = some s) :
    ∀ c ∈ s.calls, c.Named s := by
  refine run_induction (P := fun _ s => ∀ c ∈ s.calls, c.Named s) ?_ ?_ as s hrun
  · intro c hc
    cases hc
  intro as s a t hs ih ht c hc
  cases dispatchStep ht with
  | submit randomSalt sequence body registeredJobs calls workers length =>
    rw [calls] at hc
    rcases List.mem_append.mp hc with hold | hnew
    · exact (ih c hold).mono (by omega) (by rw [workers])
    · rw [List.mem_singleton.mp hnew]
      refine named_of_job ?_ rfl
      intro j hj
      cases hj
      rw [length]
      exact Nat.lt_succ_self _
  | start _ ha hw new fresh registeredJobs calls workers length =>
    rw [calls] at hc
    rcases List.mem_append.mp hc with hold | hnew
    · refine (ih c hold).mono (by omega) ?_
      rw [workers, List.length_append]
      omega
    · rw [List.mem_singleton.mp hnew]
      exact named_tryPop t none
  | worker _ ha hw w before after found posted valid registeredJobs calls workers length =>
    rw [calls] at hc
    refine (ih c hc).mono (by omega) ?_
    rw [workers, List.length_set]
  | waited i j ec found registeredJobs calls workers length =>
    rw [calls] at hc
    exact (ih c hc).mono (by omega) (by rw [workers])
  | call i op hcall =>
    exact (named_call hcall ih (registered_lt hs) c hc).mono (by rw [length_call hcall])
      (by rw [length_workers hcall])
  | other _ ha hw same =>
    rw [same.calls] at hc
    exact (ih c hc).mono (by rw [same.length]) (by rw [same.workers])

/-! ## Steps that are left -/

/-- The next step of a call that has not returned, if the loop looks at the first worker. -/
def Call.nextOp : Call → Option CallOp
  | .emplace _ => some .emplace
  | .tryPop _ => some .tryPop
  | .scan _ [] => some .repush
  | .scan _ (w :: _) => some (.look w)
  | .startPost _ _ => some .startPost
  | .asyncWait _ => some .asyncWait
  | .expiresFromNow _ => some .expiresFromNow
  | .returned => none

/-- A call that has not returned can go on. -/
theorem stepCall_isSome {s : State} {i : Nat} {c : Call} (hc : s.calls[i]? = some c)
    (hnamed : c.Named s) (hfits : ∀ job ∈ s.jobs, job.pack.Fits) {op : CallOp}
    (hop : c.nextOp = some op) :
    (s.stepCall i op).isSome ∧ LooksOnce s (.call i op) := by
  have hjob : ∀ j ∈ c.job, ∃ job, s.jobs[j]? = some job := by
    intro j hj
    exact ⟨_, List.getElem?_eq_getElem (hnamed.job j hj)⟩
  have hworker : ∀ w ∈ c.scanned, ∃ worker, s.workers[w]? = some worker := by
    intro w hw
    exact ⟨_, List.getElem?_eq_getElem (hnamed.workers w hw)⟩
  cases c with
  | emplace j =>
    cases hop
    obtain ⟨job, hj⟩ := hjob j rfl
    exact ⟨by simp [stepCall, hc, hj], trivial⟩
  | tryPop held =>
    cases hop
    exact ⟨by simp [stepCall, hc], trivial⟩
  | scan j rest =>
    cases rest with
    | nil =>
      cases hop
      exact ⟨by simp [stepCall, hc], trivial⟩
    | cons w rest =>
      cases hop
      obtain ⟨worker, hw⟩ := hworker w List.mem_cons_self
      refine ⟨by simp [stepCall, hc, State.look, hw], ?_⟩
      intro j' rest' hcall
      rw [hc] at hcall
      cases hcall
      exact List.mem_cons_self
  | startPost j w =>
    cases hop
    obtain ⟨job, hj⟩ := hjob j rfl
    obtain ⟨worker, hw⟩ := hworker w (List.mem_singleton_self w)
    obtain ⟨⟨pack, buf⟩, hserialize⟩ := Option.isSome_iff_exists.mp
      ((Packet.serialize_isSome_iff job.pack).mpr (hfits job (List.mem_of_getElem? hj)))
    exact ⟨by simp [stepCall, hc, State.startPost, hj, hw, hserialize], trivial⟩
  | asyncWait j =>
    cases hop
    obtain ⟨job, hj⟩ := hjob j rfl
    exact ⟨by simp [stepCall, hc, State.asyncWait, hj], trivial⟩
  | expiresFromNow j =>
    cases hop
    have hlength := (sameDispatch_complete s j .operationAborted).length
    have hlt := hnamed.job j rfl
    rw [← hlength] at hlt
    have hj := List.getElem?_eq_getElem hlt
    exact ⟨by simp [stepCall, hc, State.expiresFromNow, hj], trivial⟩
  | returned => cases hop

/-- When the launcher has no step of its own to take, its calls have returned and its handlers
have run. -/
theorem returned_of_rest {as : List Action} {s : State} (hrun : run step init as = some s)
    (hcrashed : s.crashed = false) (hfits : ∀ job ∈ s.jobs, job.pack.Fits)
    (hrest : ∀ a, a.IsInternal → LooksOnce s a → s.step a = none) :
    (∀ c ∈ s.calls, c = .returned) ∧ s.strand = [] ∧ s.waited = [] := by
  refine ⟨?_, ?_, ?_⟩
  · intro c hc
    obtain ⟨i, hi⟩ := List.getElem?_of_mem hc
    cases hop : c.nextOp with
    | none =>
      cases c with
      | returned => rfl
      | scan j rest => cases rest <;> cases hop
      | _ => cases hop
    | some op =>
      obtain ⟨hsome, hlooks⟩ := stepCall_isSome hi (run_named hrun c hc) hfits hop
      have hnone := hrest (.call i op) trivial hlooks
      rw [State.step, if_neg (by simp [hcrashed])] at hnone
      change s.stepCall i op = none at hnone
      rw [hnone] at hsome
      cases hsome
  · by_contra hne
    obtain ⟨handler, rest, hstrand⟩ := List.exists_cons_of_ne_nil hne
    have hnone := hrest (.strand 0) trivial trivial
    rw [State.step, if_neg (by simp [hcrashed])] at hnone
    change s.runStrand 0 = none at hnone
    rw [runStrand, hstrand] at hnone
    cases hnone
  · by_contra hne
    obtain ⟨w, rest, hwaited⟩ := List.exists_cons_of_ne_nil hne
    have hnone := hrest (.waited 0) trivial trivial
    rw [State.step, if_neg (by simp [hcrashed])] at hnone
    change s.runWaited 0 = none at hnone
    rw [runWaited, hwaited] at hnone
    cases hnone

/-- The job is queued, or with a worker that has not responded to its packet. -/
def State.Unanswered (s : State) (j : JobId) : Prop :=
  j ∈ s.registeredJobs ∨ ∃ w pack, s.Pushed w (j, pack) ∧ some j ∉ s.log.received

/-- The response to the packet of a job has led to the callback of the job. -/
theorem callee_of_received {as : List Action} {s : State} (hrun : run step init as = some s)
    (hecho : Guarded step Echoes init as) (hother : Guarded step FindsNoOther init as)
    (hcrashed : s.crashed = false) (hstrand : s.strand = []) {j : JobId}
    (hj : some j ∈ s.log.received) : j ∈ s.callees := by
  obtain ⟨n, hn⟩ := List.getElem?_of_mem hj
  have hall := (run_numbered hrun).all hcrashed n (List.getElem?_eq_some_iff.mp hn).1
  rw [numbers, State.waiting, hstrand] at hall
  obtain ⟨done, hdone, rfl⟩ := List.mem_map.mp hall
  have hcallee := run_callees hrun hecho hother done hdone
  rw [hn] at hcallee
  cases hcallee
  exact List.mem_map_of_mem hdone

theorem unanswered_of_rest {as : List Action} {s : State} (hrun : run step init as = some s)
    (hecho : Guarded step Echoes init as) (hother : Guarded step FindsNoOther init as)
    (hcrashed : s.crashed = false) (hcalls : ∀ c ∈ s.calls, c = .returned)
    (hstrand : s.strand = []) {j : JobId} (hj : j < s.jobs.length) (hcallee : j ∉ s.callees) :
    s.Unanswered j := by
  have hcopies := run_copies_eq hrun j
  have hpopped : s.popped j = 0 := by
    rw [State.popped, List.count_eq_zero]
    intro hmem
    obtain ⟨c, hc, hjob⟩ := List.mem_flatMap.mp hmem
    rw [hcalls c hc] at hjob
    cases hjob
  rw [copies, hpopped, if_pos hj] at hcopies
  by_cases hqueued : j ∈ s.registeredJobs
  · exact Or.inl hqueued
  · rw [List.count_eq_zero.mpr hqueued] at hcopies
    have hposted : j ∈ s.allPosted.map Prod.fst := by
      apply List.count_pos_iff.mp
      rw [timesPosted] at hcopies
      omega
    obtain ⟨⟨k, pack⟩, hgiven, rfl⟩ := List.mem_map.mp hposted
    obtain ⟨worker, hworker, hgiven⟩ := List.mem_flatMap.mp hgiven
    obtain ⟨w, hw⟩ := List.getElem?_of_mem hworker
    refine Or.inr ⟨w, pack, ⟨worker, hw, hgiven⟩, ?_⟩
    exact fun hresponse =>
      hcallee (callee_of_received hrun hecho hother hcrashed hstrand hresponse)

end CppSerializer.Launcher
