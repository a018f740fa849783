import CppSerializer.Launcher.Conservation
import Mathlib.Data.List.TakeWhile

/-!
# At most one answer for a job

No timer pushes a job again, so every job is posted once at most, and a worker that sends one
response at most for each packet answers it once. Where no response finds another job, the
`on_completion_` of a job is called once at most (`callees_nodup`).
-/

namespace CppSerializer.Launcher

open Pack Transition Shares State

/-- A worker echoes the header of a packet that it was given, and the responses to the packet of
a job are not more than the times that it was posted. -/
def Answers (s : State) (a : Action) : Prop :=
  Echoes s a ∧ ∀ w j pack, a = .respond w (some j) pack →
    s.log.received.count (some j) < s.timesPosted j

theorem answers_of_ne {s : State} {a : Action} (ha : ∀ w origin pack, a ≠ .respond w origin pack) :
    Answers s a := by
  refine ⟨?_, ?_⟩
  · intro w origin pack he
    exact absurd he (ha w origin pack)
  · intro w j pack he
    exact absurd he (ha w (some j) pack)

theorem repushedBy_of_timerCodes {s : State} (hs : TimerCodes s) (a : Action) :
    s.repushedBy a = [] := by
  cases a with
  | waited i =>
    rw [repushedBy]
    split
    · rename_i j ec hwaited
      rw [hs (j, ec) (List.mem_of_getElem? hwaited)]
      rfl
    · rfl
  | _ => rfl

/-- Every job is in the queue, held by a call, or posted. -/
theorem run_copies_eq {as : List Action} {s : State} (hrun : run step init as = some s)
    (k : JobId) : s.copies k = if k < s.jobs.length then 1 else 0 := by
  refine run_induction (P := fun _ s => s.copies k = if k < s.jobs.length then 1 else 0) rfl ?_
    as s hrun
  intro as s a t hs ih ht
  have hcopies := copies_step ht k
  rw [repushedBy_of_timerCodes (run_timerCodes hs) a, List.count_nil, ih] at hcopies
  omega

theorem timesPosted_le_one {as : List Action} {s : State} (hrun : run step init as = some s)
    (k : JobId) : s.timesPosted k ≤ 1 := by
  have hcopies := run_copies_eq hrun k
  rw [copies] at hcopies
  split at hcopies <;> omega

theorem length_submit {s t : State} {randomSalt sequence : List.Vector UnitT 4} {body : Bytes}
    (h : s.step (.startTriggerPost randomSalt sequence body) = some t) :
    t.jobs.length = s.jobs.length + 1 := by
  unfold State.step at h
  split at h
  · cases h
  · simp only at h
    split at h <;> cases h
    exact List.length_append

/-- Only `start_trigger_post` makes a job. -/
theorem length_jobs {s t : State} {a : Action} (h : s.step a = some t)
    (ha : ∀ randomSalt sequence body, a ≠ .startTriggerPost randomSalt sequence body) :
    t.jobs.length = s.jobs.length := by
  cases dispatchStep h with
  | submit randomSalt sequence body => exact absurd rfl (ha randomSalt sequence body)
  | start _ _ _ _ _ _ _ _ length => exact length
  | worker _ _ _ _ _ _ _ _ _ _ _ _ length => exact length
  | waited _ _ _ _ _ _ _ length => exact length
  | call i op step => exact length_call step
  | other _ _ _ same => exact same.length

/-- A response is logged when it comes in, and at no other step. -/
theorem received_of_step {s t : State} {a : Action} (h : s.step a = some t) :
    t.log.received = s.log.received ∨ ∃ w origin pack, a = .respond w origin pack ∧
      t.log.received = s.log.received ++ [origin] := by
  obtain ⟨-, hstep⟩ := correlationStep h
  cases hstep with
  | respond w origin pack => exact Or.inr ⟨w, origin, pack, rfl, rfl⟩
  | other _ _ ha quiet => exact Or.inl (by rw [quiet.log])
  | _ => exact Or.inl rfl

/-- No packet is answered twice. -/
theorem run_received_nodup {as : List Action} {s : State} (hrun : run step init as = some s)
    (hanswers : Guarded step Answers init as) : s.log.received.Nodup := by
  revert hanswers
  refine run_induction (P := fun as s => Guarded step Answers init as → s.log.received.Nodup)
    (fun _ => List.nodup_nil) ?_ as s hrun
  intro as s a t hs ih ht hanswers
  have hnodup := ih hanswers.prefix
  rcases received_of_step ht with hsame | ⟨w, origin, pack, rfl, hnew⟩
  · rwa [hsame]
  · obtain ⟨hecho, honce⟩ := hanswers.last hs
    obtain ⟨j, -, -, rfl, -⟩ := hecho w origin pack rfl
    have hlt := honce w j pack rfl
    have hle := timesPosted_le_one hs j
    have hzero : s.log.received.count (some j) = 0 := by omega
    rw [hnew, List.nodup_append]
    refine ⟨hnodup, List.nodup_singleton _, ?_⟩
    rintro x hx y hy rfl
    rw [List.mem_singleton.mp hy] at hx
    exact List.count_eq_zero.mp hzero hx

/-- The jobs whose `on_completion_` was called, in the order of the calls. -/
def State.callees (s : State) : List JobId := s.log.completions.map Completion.callee

theorem callees_nodup {as : List Action} {s : State} (hrun : run step init as = some s)
    (hanswers : Guarded step Answers init as) (hother : Guarded step FindsNoOther init as) :
    s.callees.Nodup := by
  have hcallee := run_callees hrun (hanswers.mono fun _ _ h => h.1) hother
  have hreceived := run_received_nodup hrun hanswers
  obtain ⟨-, hnumbers, -⟩ := List.nodup_append.mp (run_numbered hrun).nodup
  refine List.Nodup.map_on ?_ (List.Nodup.of_map _ hnumbers)
  intro c hc c' hc' he
  -- both are for the one response to the packet of the job
  have hfirst := hcallee c hc
  have hsecond := hcallee c' hc'
  rw [he] at hfirst
  obtain ⟨hlt, -⟩ := List.getElem?_eq_some_iff.mp hfirst
  have hnumber := (List.getElem?_inj hlt hreceived).mp (hfirst.trans hsecond.symm)
  exact List.inj_on_of_nodup_map hnumbers hc hc' hnumber

/-- Where no two jobs have the same key and salt, no response can find another job. -/
theorem findsNoOther_of_nodup {s : State} (hm : Matching s) (hnodup : s.topics.Nodup)
    (a : Action) : FindsNoOther s a := by
  intro j _ k hk hsalt
  have hne : k ≠ j := by simpa using List.mem_takeWhile_imp hk
  have hlt := hm.entered k ((List.takeWhile_sublist _).subset hk)
  have hget := List.getElem?_eq_getElem hlt
  rw [salt_eq, salt_eq, hget] at hsalt
  cases hj : s.topics[j]? with
  | none =>
    rw [hj] at hsalt
    cases hsalt
  | some topic =>
    rw [hj] at hsalt
    -- the keys are all zero
    have hkey := hm.key _ (List.mem_of_getElem? hget)
    have hkey' := hm.key _ (List.mem_of_getElem? hj)
    have htopic : s.topics[k] = topic := Prod.ext (hkey.trans hkey'.symm) (Option.some.inj hsalt)
    exact hne ((List.getElem?_inj hlt hnodup).mp (by rw [hget, hj, htopic]))

/-- Only jobs that were made are completed. -/
theorem callees_lt {as : List Action} {s : State} (hrun : run step init as = some s) :
    ∀ j ∈ s.callees, j < s.jobs.length := by
  refine run_induction (P := fun _ s => ∀ j ∈ s.callees, j < s.jobs.length) ?_ ?_ as s hrun
  · intro j hj
    cases hj
  intro as s a t hs ih ht j hj
  obtain ⟨hcrashed, hstep⟩ := correlationStep ht
  have hlength : s.jobs.length ≤ t.jobs.length := by
    have hprefix := topics_prefix hstep
    have htopics := hprefix.length_le
    rwa [topics, topics, List.length_map, List.length_map] at htopics
  have hkeep : t.callees = s.callees → j < t.jobs.length := by
    intro hsame
    rw [hsame] at hj
    exact Nat.lt_of_lt_of_le (ih j hj) hlength
  cases hstep with
  | runResponse i number pack k jobs posted found topics =>
    rw [callees, List.map_append] at hj
    rcases List.mem_append.mp hj with hj | hj
    · exact Nat.lt_of_lt_of_le (ih j hj) hlength
    · rw [List.mem_singleton.mp hj]
      have hm := run_matching hs
      have hfirst := (found_iff hm hcrashed _ k).mp found
      have hk := hm.entered k (List.mem_of_find?_eq_some hfirst)
      rw [State.topics, List.length_map] at hk
      exact Nat.lt_of_lt_of_le hk hlength
  | other _ _ ha quiet => exact hkeep (by rw [callees, callees, quiet.log])
  | _ => exact hkeep rfl

end CppSerializer.Launcher
