import CppSerializer.Launcher.Retry
import Mathlib.Data.List.Find

/-!
# Responses and the jobs they are handed to

`started_jobs_` finds the job of a response by key and salt. The key of every job is zero,
`emplace` keeps an older entry, and no entry is ever removed, so what is found is the first
job that was entered with the salt (`Matching.started`). A response is handed to its own job,
and no null pointer is followed, exactly in the runs in which every response is handled when
its job has been entered, and before any other with its salt (`correlated_iff`).
-/

namespace CppSerializer.Launcher

open Pack Transition Shares State

/-! ## The map of started jobs -/

namespace JobMap

theorem entry_emplace (m : JobMap) (h h' : PacketHeader) (j : JobId) :
    (m.emplace h j).entry h' =
      (m.entry h').or (if h.topic = h'.topic then some (h, some j) else none) := by
  unfold emplace
  cases hentry : m.entry h with
  | none =>
    simp only [entry, List.find?_append, PacketHeader.keyCompare]
    by_cases he : h.topic = h'.topic
    · simp [he]
    · simp [he]
  | some e =>
    by_cases he : h.topic = h'.topic
    · have hsame : m.entry h' = m.entry h := by
        unfold entry PacketHeader.keyCompare
        rw [he]
      simp [hsame, hentry]
    · simp [he]

theorem index_snd (m : JobMap) (h : PacketHeader) : (m.index h).2 = (m.entry h).bind Prod.snd := by
  unfold index
  cases m.entry h <;> rfl

end JobMap

/-! ## What a step does to the correlation -/

def Job.topic (job : Job) : KeyT × List.Vector UnitT 4 := job.pack.header.topic

def StrandHandler.header : StrandHandler → PacketHeader
  | .ack header => header
  | .response _ pack => pack.header

def StrandHandler.number : StrandHandler → Option Nat
  | .ack _ => none
  | .response number _ => some number

namespace State

/-- The keys and salts of the jobs. -/
def topics (s : State) : List (KeyT × List.Vector UnitT 4) := s.jobs.map Job.topic

/-- The packet was posted to some worker. -/
def Given (s : State) (p : JobId × Packet) : Prop := ∃ worker ∈ s.workers, p ∈ worker.posted

end State

/-- A step that leaves all this as it is, but for packets that it posts to workers. -/
structure Quiet (s t : State) : Prop where
  topics : t.topics = s.topics
  startedJobs : t.startedJobs = s.startedJobs
  strand : t.strand = s.strand
  crashed : t.crashed = s.crashed
  log : t.log = s.log
  given : ∀ p, t.Given p → s.Given p ∨ s.topics[p.1]? = some p.2.header.topic

inductive CorrelationStep (s : State) : Action → State → Prop
  | submit (randomSalt sequence : List.Vector UnitT 4) (body : Bytes) (registered : List JobId)
      (calls : List Call) : CorrelationStep s (.startTriggerPost randomSalt sequence body)
        { s with
          jobs := s.jobs ++ [Job.new randomSalt sequence body]
          registeredJobs := registered
          calls := calls }
  | enter (i : Nat) (j : JobId) (header : PacketHeader) (calls : List Call)
      (topic : s.topics[j]? = some header.topic) : CorrelationStep s (.call i .emplace)
        { s with
          startedJobs := s.startedJobs.emplace header j
          calls := calls
          log := { s.log with entered := s.log.entered ++ [j] } }
  | ack (w : WorkerId) (header : PacketHeader) : CorrelationStep s (.ack w header)
      { s with strand := s.strand ++ [.ack header] }
  | respond (w : WorkerId) (origin : Option JobId) (pack : Packet) :
      CorrelationStep s (.respond w origin pack)
        { s with
          strand := s.strand ++ [.response s.log.received.length pack]
          log := { s.log with received := s.log.received ++ [origin] } }
  | crash (i : Nat) (handler : StrandHandler) (m : JobMap)
      (posted : s.strand[i]? = some handler)
      (cause : ∀ j, (s.startedJobs.index handler.header).2 = some j → s.topics.length ≤ j) :
      CorrelationStep s (.strand i)
        { s with strand := s.strand.eraseIdx i, startedJobs := m, crashed := true }
  | runAck (i : Nat) (header : PacketHeader) (j : JobId) (jobs : List Job)
      (waited : List (JobId × ErrorCode)) (posted : s.strand[i]? = some (.ack header))
      (found : (s.startedJobs.index header).2 = some j) (topics : jobs.map Job.topic = s.topics) :
      CorrelationStep s (.strand i)
        { s with strand := s.strand.eraseIdx i, jobs := jobs, waited := waited }
  | runResponse (i number : Nat) (pack : Packet) (j : JobId) (jobs : List Job)
      (posted : s.strand[i]? = some (.response number pack))
      (found : (s.startedJobs.index pack.header).2 = some j)
      (topics : jobs.map Job.topic = s.topics) :
      CorrelationStep s (.strand i)
        { s with
          strand := s.strand.eraseIdx i
          jobs := jobs
          log := { s.log with completions := s.log.completions ++ [⟨number, j, pack⟩] } }
  | other (a : Action) (t : State) (ha : ∀ i, a ≠ .strand i) (quiet : Quiet s t) :
      CorrelationStep s a t

theorem quiet_complete (s : State) (j : JobId) (ec : ErrorCode) : Quiet s (s.complete j ec) := by
  unfold complete
  split
  · rename_i job hjob
    exact ⟨map_set_eq hjob rfl, rfl, rfl, rfl, rfl, fun _ hp => Or.inl hp⟩
  · exact ⟨rfl, rfl, rfl, rfl, rfl, fun _ hp => Or.inl hp⟩

theorem correlationStep_call {s t : State} {i : Nat} {op : CallOp}
    (h : s.stepCall i op = some t) : CorrelationStep s (.call i op) t := by
  have hsame : ∀ p, s.Given p → s.Given p ∨ s.topics[p.1]? = some p.2.header.topic :=
    fun _ hp => Or.inl hp
  cases stepCall_cases h with
  | emplace j job hc hjob =>
    refine .enter i j job.pack.header _ ?_
    rw [topics, List.getElem?_map, hjob]
    rfl
  | tryPop held hc =>
    refine .other _ _ (by simp) ?_
    unfold State.tryPop
    split <;> exact ⟨rfl, rfl, rfl, rfl, rfl, hsame⟩
  | look | repush => exact .other _ _ (by simp) ⟨rfl, rfl, rfl, rfl, rfl, hsame⟩
  | startPost j w job worker hc hjob hworker =>
    refine .other _ _ (by simp) ⟨map_set_eq hjob rfl, rfl, rfl, rfl, rfl, ?_⟩
    rintro p ⟨worker', hworker', hp⟩
    rcases List.mem_or_eq_of_mem_set hworker' with hmem | rfl
    · exact Or.inl ⟨worker', hmem, hp⟩
    · rcases List.mem_append.mp hp with hp | hp
      · exact Or.inl ⟨worker, List.mem_of_getElem? hworker, hp⟩
      · rw [List.mem_singleton.mp hp]
        refine Or.inr ?_
        rw [topics, List.getElem?_map, hjob]
        rfl
  | asyncWait j job hc hjob =>
    exact .other _ _ (by simp) ⟨map_set_eq hjob rfl, rfl, rfl, rfl, rfl, hsame⟩
  | expiresFromNow j job hc hjob =>
    have hquiet := quiet_complete s j .operationAborted
    have htopics : ((s.complete j .operationAborted).jobs.set j
        { job with timer := { job.timer with expiry := .oneSecond } }).map Job.topic =
          s.topics := by
      rw [← hquiet.topics]
      exact map_set_eq hjob rfl
    exact .other _ _ (by simp) ⟨htopics, hquiet.startedJobs, hquiet.strand, hquiet.crashed,
      hquiet.log, hquiet.given⟩

theorem correlationStep_strand {s t : State} {i : Nat} (h : s.runStrand i = some t) :
    CorrelationStep s (.strand i) t := by
  obtain ⟨handler, hhandler, rfl⟩ := Option.map_eq_some_iff.mp h
  have hcrash : ∀ {j : JobId}, s.jobs[j]? = none → s.topics.length ≤ j := by
    intro j hj
    rw [topics, List.length_map]
    exact List.getElem?_eq_none_iff.mp hj
  cases handler with
  | ack header =>
    simp only [runAck]
    rcases withStarted_cases { s with strand := s.strand.eraseIdx i } header _ with
      ⟨m, hnone, heq⟩ | ⟨j, job, hfound, hjob, heq⟩
    · rw [heq]
      exact .crash i _ m hhandler fun j hj => hcrash (hnone j hj)
    · rw [heq]
      have htopics : (s.jobs.set j { job with state := .started }).map Job.topic = s.topics :=
        map_set_eq hjob rfl
      unfold complete
      split
      · rename_i job' hjob'
        refine .runAck i header j _ _ hhandler hfound ?_
        rw [← htopics]
        exact map_set_eq hjob' rfl
      · exact .runAck i header j _ _ hhandler hfound htopics
  | response number pack =>
    simp only [runResponse]
    rcases withStarted_cases { s with strand := s.strand.eraseIdx i } pack.header _ with
      ⟨m, hnone, heq⟩ | ⟨j, job, hfound, hjob, heq⟩
    · rw [heq]
      exact .crash i _ m hhandler fun j hj => hcrash (hnone j hj)
    · rw [heq]
      exact .runResponse i number pack j _ hhandler hfound (map_set_eq hjob rfl)

theorem correlationStep {s t : State} {a : Action} (h : s.step a = some t) :
    s.crashed = false ∧ CorrelationStep s a t := by
  unfold step at h
  split at h
  · cases h
  rename_i hcrashed
  refine ⟨by simpa using hcrashed, ?_⟩
  have hsame : ∀ p, s.Given p → s.Given p ∨ s.topics[p.1]? = some p.2.header.topic :=
    fun _ hp => Or.inl hp
  have hset : ∀ w worker (worker' : Worker), s.workers[w]? = some worker →
      worker'.posted = worker.posted → Quiet s { s with workers := s.workers.set w worker' } := by
    intro w worker worker' hworker hposted
    refine ⟨rfl, rfl, rfl, rfl, rfl, ?_⟩
    rintro p ⟨x, hx, hp⟩
    rcases List.mem_or_eq_of_mem_set hx with hmem | rfl
    · exact Or.inl ⟨x, hmem, hp⟩
    · exact Or.inl ⟨worker, List.mem_of_getElem? hworker, hposted ▸ hp⟩
  cases a with
  | startTriggerPost randomSalt sequence body =>
    simp only at h
    split at h <;> cases h
    exact .submit randomSalt sequence body _ _
  | addWorker =>
    cases h
    refine .other _ _ (by simp) ⟨rfl, rfl, rfl, rfl, rfl, ?_⟩
    rintro p ⟨worker, hworker, hp⟩
    rcases List.mem_append.mp hworker with hworker | hworker
    · exact Or.inl ⟨worker, hworker, hp⟩
    · rw [List.mem_singleton.mp hworker] at hp
      cases hp
  | startJobs =>
    cases h
    exact .other _ _ (by simp) ⟨rfl, rfl, rfl, rfl, rfl, hsame⟩
  | dereg w =>
    obtain ⟨worker, hworker, rfl⟩ := Option.map_eq_some_iff.mp h
    exact .other _ _ (by simp) (hset w worker _ hworker rfl)
  | fail w inBody =>
    obtain ⟨worker, hworker, rfl⟩ := Option.map_eq_some_iff.mp h
    exact .other _ _ (by simp) (hset w worker _ hworker rfl)
  | ack w header =>
    obtain rfl := receive_some h
    exact .ack w header
  | respond w origin pack =>
    obtain ⟨s₁, hreceive, rfl⟩ := Option.map_eq_some_iff.mp h
    obtain rfl := receive_some hreceive
    exact .respond w origin pack
  | expire j =>
    cases h
    exact .other _ _ (by simp) (quiet_complete s j .success)
  | waited i =>
    obtain ⟨⟨j, ec⟩, hwaited, rfl⟩ := Option.map_eq_some_iff.mp h
    exact .other _ _ (by simp) ⟨rfl, rfl, rfl, rfl, rfl, hsame⟩
  | strand i => exact correlationStep_strand h
  | call i op => exact correlationStep_call h

/-! ## Invariants -/

/-- The topics of jobs are fixed when they are made. -/
theorem topics_prefix {s t : State} {a : Action} (h : CorrelationStep s a t) :
    s.topics <+: t.topics := by
  cases h with
  | submit randomSalt sequence body registered calls =>
    rw [topics, topics, List.map_append]
    exact List.prefix_append _ _
  | runAck i header j jobs waited posted found topics => exact topics ▸ List.prefix_rfl
  | runResponse i number pack j jobs posted found topics => exact topics ▸ List.prefix_rfl
  | other _ _ ha quiet => exact quiet.topics ▸ List.prefix_rfl
  | _ => exact List.prefix_rfl

theorem topics_of_prefix {s t : State} (h : s.topics <+: t.topics) {j : JobId}
    {topic : KeyT × List.Vector UnitT 4} (hj : s.topics[j]? = some topic) :
    t.topics[j]? = some topic := by
  obtain ⟨more, hmore⟩ := h
  obtain ⟨hlt, -⟩ := List.getElem?_eq_some_iff.mp hj
  rw [← hmore, List.getElem?_append_left hlt]
  exact hj

/-- The search for the first job entered with a topic. -/
def State.first (s : State) (topic : KeyT × List.Vector UnitT 4) : Option JobId :=
  s.log.entered.find? fun j => s.topics[j]? = some topic

theorem topics_first {s : State} {topic : KeyT × List.Vector UnitT 4} {j : JobId}
    (h : s.first topic = some j) : s.topics[j]? = some topic := by
  have hfound := List.find?_some h
  exact of_decide_eq_true hfound

structure Matching (s : State) : Prop where
  entered : ∀ j ∈ s.log.entered, j < s.topics.length
  key : ∀ topic ∈ s.topics, topic.1 = List.Vector.replicate 32 0
  given : ∀ p, s.Given p → s.topics[p.1]? = some p.2.header.topic
  started : s.crashed = false → ∀ h : PacketHeader,
    (s.startedJobs.entry h).map Prod.snd = (s.first h.topic).map some

theorem first_of_prefix {s t : State} (htopics : s.topics <+: t.topics)
    (hentered : ∀ j ∈ s.log.entered, j < s.topics.length) (hlog : t.log.entered = s.log.entered)
    (topic : KeyT × List.Vector UnitT 4) : t.first topic = s.first topic := by
  obtain ⟨more, hmore⟩ := htopics
  unfold State.first
  rw [hlog]
  refine List.find?_congr ?_
  intro j hj
  rw [← hmore, List.getElem?_append_left (hentered j hj)]

theorem Matching.step {s t : State} {a : Action} (hm : Matching s) (hs : s.crashed = false)
    (h : CorrelationStep s a t) : Matching t := by
  have hprefix := topics_prefix h
  -- what a step that enters no job and inserts no entry has to show
  have hkeep : t.log.entered = s.log.entered →
      (∀ topic ∈ t.topics, topic.1 = List.Vector.replicate 32 0) →
      (∀ p, t.Given p → s.Given p ∨ s.topics[p.1]? = some p.2.header.topic) →
      (t.crashed = false → t.startedJobs = s.startedJobs) → Matching t := by
    intro hlog hkey hgiven hstarted
    refine ⟨?_, hkey, ?_, ?_⟩
    · intro j hj
      rw [hlog] at hj
      exact Nat.lt_of_lt_of_le (hm.entered j hj) hprefix.length_le
    · intro p hp
      rcases hgiven p hp with hp | hp
      · exact topics_of_prefix hprefix (hm.given p hp)
      · exact topics_of_prefix hprefix hp
    · intro hcrashed header
      rw [hstarted hcrashed, first_of_prefix hprefix hm.entered hlog]
      exact hm.started hs header
  have hsame : ∀ p, s.Given p → s.Given p ∨ s.topics[p.1]? = some p.2.header.topic :=
    fun _ hp => Or.inl hp
  cases h with
  | submit randomSalt sequence body registered calls =>
    refine hkeep rfl ?_ hsame fun _ => rfl
    intro topic htopic
    rw [topics, List.map_append] at htopic
    rcases List.mem_append.mp htopic with htopic | htopic
    · exact hm.key topic htopic
    · rw [List.mem_singleton.mp htopic]
      rfl
  | enter i j header calls topic =>
    obtain ⟨hlt, -⟩ := List.getElem?_eq_some_iff.mp topic
    refine ⟨?_, hm.key, hm.given, ?_⟩
    · intro k hk
      rcases List.mem_append.mp hk with hk | hk
      · exact hm.entered k hk
      · rw [List.mem_singleton.mp hk]
        exact hlt
    · intro _ h
      have hfirst : State.first { s with
          startedJobs := s.startedJobs.emplace header j
          calls := calls
          log := { s.log with entered := s.log.entered ++ [j] } } h.topic =
          (s.first h.topic).or (if header.topic = h.topic then some j else none) := by
        unfold State.first
        rw [List.find?_append]
        congr 1
        rw [List.find?_singleton]
        change (if decide (s.topics[j]? = some h.topic) = true then some j else none) = _
        simp only [topic, Option.some.injEq, decide_eq_true_eq]
      rw [hfirst]
      change ((s.startedJobs.emplace header j).entry h).map Prod.snd = _
      rw [JobMap.entry_emplace, Option.map_or, Option.map_or, hm.started hs h]
      by_cases he : header.topic = h.topic
      · rw [if_pos he, if_pos he]
        rfl
      · rw [if_neg he, if_neg he]
        rfl
  | ack w header => exact hkeep rfl hm.key hsame fun _ => rfl
  | respond w origin pack => exact hkeep rfl hm.key hsame fun _ => rfl
  | crash i handler m posted cause => exact hkeep rfl hm.key hsame fun hc => by cases hc
  | runAck i header j jobs waited posted found topics =>
    refine hkeep rfl ?_ hsame fun _ => rfl
    rw [State.topics, topics]
    exact hm.key
  | runResponse i number pack j jobs posted found topics =>
    refine hkeep rfl ?_ hsame fun _ => rfl
    rw [State.topics, topics]
    exact hm.key
  | other _ _ ha quiet =>
    refine hkeep (by rw [quiet.log]) ?_ quiet.given fun _ => quiet.startedJobs
    rw [quiet.topics]
    exact hm.key

theorem run_matching {as : List Action} {s : State} (hrun : run step init as = some s) :
    Matching s := by
  refine run_induction (P := fun _ s => Matching s) ?_ ?_ as s hrun
  · refine ⟨fun j hj => ?_, fun topic ht => ?_, ?_, fun _ _ => rfl⟩
    · cases hj
    · cases ht
    · rintro p ⟨worker, hworker, -⟩
      cases hworker
  · intro _ s a t _ hm ht
    obtain ⟨hs, hstep⟩ := correlationStep ht
    exact hm.step hs hstep

/-- The entry that a handler finds is that of the first job entered with the topic. -/
theorem found_iff {s : State} (hm : Matching s) (hs : s.crashed = false) (header : PacketHeader)
    (j : JobId) : (s.startedJobs.index header).2 = some j ↔ s.first header.topic = some j := by
  have hstarted := hm.started hs header
  rw [JobMap.index_snd]
  cases hentry : s.startedJobs.entry header with
  | none =>
    rw [hentry] at hstarted
    cases hfirst : s.first header.topic with
    | none => simp
    | some k =>
      rw [hfirst] at hstarted
      cases hstarted
  | some e =>
    rw [hentry] at hstarted
    cases hfirst : s.first header.topic with
    | none =>
      rw [hfirst] at hstarted
      cases hstarted
    | some k =>
      rw [hfirst] at hstarted
      have he : e.2 = some k := Option.some.inj hstarted
      rw [Option.bind_some, he]

/-! ## Numbers of responses -/

namespace State

/-- The responses whose handlers wait on the strand. -/
def waiting (s : State) : List Nat := s.strand.filterMap StrandHandler.number

/-- The jobs whose `on_completion_` was called with a response. -/
def handed (s : State) (n : Nat) : List JobId :=
  (s.log.completions.filter fun c => c.number = n).map Completion.callee

/-- The responses that wait or were handed to a job. -/
def numbers (s : State) : List Nat := s.waiting ++ s.log.completions.map Completion.number

end State

/-- A response is in one place, and in one at least if no null pointer was followed. -/
structure Numbered (s : State) : Prop where
  nodup : s.numbers.Nodup
  lt : ∀ n ∈ s.numbers, n < s.log.received.length
  all : s.crashed = false → ∀ n < s.log.received.length, n ∈ s.numbers

theorem Numbered.of_perm {s t : State} (hn : Numbered s) (hperm : t.numbers.Perm s.numbers)
    (hreceived : t.log.received = s.log.received) (hcrashed : s.crashed = false) : Numbered t := by
  refine ⟨hperm.nodup_iff.mpr hn.nodup, ?_, ?_⟩
  · intro n hmem
    rw [hreceived]
    exact hn.lt n (hperm.mem_iff.mp hmem)
  · intro _ n hlt
    rw [hreceived] at hlt
    exact hperm.mem_iff.mpr (hn.all hcrashed n hlt)

theorem Numbered.step {s t : State} {a : Action} (hn : Numbered s) (hs : s.crashed = false)
    (h : CorrelationStep s a t) : Numbered t := by
  cases h with
  | submit | enter => exact hn.of_perm (.refl _) rfl hs
  | ack w header =>
    refine hn.of_perm ?_ rfl hs
    simp only [numbers, waiting, List.filterMap_append, List.filterMap_cons, List.filterMap_nil,
      StrandHandler.number, List.append_nil]
    exact .refl _
  | respond w origin pack =>
    have hperm : (State.numbers { s with
        strand := s.strand ++ [.response s.log.received.length pack]
        log := { s.log with received := s.log.received ++ [origin] } }).Perm
        (s.log.received.length :: s.numbers) := by
      simp only [numbers, waiting, List.filterMap_append, List.filterMap_cons, List.filterMap_nil,
        StrandHandler.number, List.append_assoc, List.singleton_append]
      exact List.perm_middle
    refine ⟨?_, ?_, ?_⟩
    · rw [hperm.nodup_iff, List.nodup_cons]
      exact ⟨fun hmem => Nat.lt_irrefl _ (hn.lt _ hmem), hn.nodup⟩
    · intro n hmem
      rw [List.length_append, List.length_singleton]
      rcases List.mem_cons.mp (hperm.mem_iff.mp hmem) with rfl | hmem
      · omega
      · exact Nat.lt_succ_of_lt (hn.lt n hmem)
    · intro _ n hlt
      rw [List.length_append, List.length_singleton] at hlt
      refine hperm.mem_iff.mpr (List.mem_cons.mpr ?_)
      by_cases hnew : n = s.log.received.length
      · exact Or.inl hnew
      · exact Or.inr (hn.all hs n (by omega))
  | crash i handler m posted cause =>
    have hsub : List.Sublist ((s.strand.eraseIdx i).filterMap StrandHandler.number) s.waiting :=
      (List.eraseIdx_sublist _ _).filterMap _
    have hnumbers := hsub.append (List.Sublist.refl (s.log.completions.map Completion.number))
    exact ⟨hn.nodup.sublist hnumbers, fun n hmem => hn.lt n (hnumbers.subset hmem),
      fun hc => by cases hc⟩
  | runAck i header j jobs waited posted found topics =>
    have hperm := filterMap_perm (g := StrandHandler.number) posted
    exact hn.of_perm (hperm.symm.append_right _) rfl hs
  | runResponse i number pack j jobs posted found topics =>
    have hperm := filterMap_perm (g := StrandHandler.number) posted
    refine hn.of_perm ?_ rfl hs
    rw [List.perm_iff_count] at hperm ⊢
    intro n
    have hcount := hperm n
    simp only [StrandHandler.number, Option.toList_some, List.count_append] at hcount
    simp only [numbers, waiting, List.map_append, List.map_cons, List.map_nil, List.count_append]
      at hcount ⊢
    omega
  | other _ _ ha quiet =>
    refine hn.of_perm ?_ (by rw [quiet.log]) hs
    rw [numbers, numbers, waiting, waiting, quiet.strand, quiet.log]

theorem run_numbered {as : List Action} {s : State} (hrun : run step init as = some s) :
    Numbered s := by
  refine run_induction (P := fun _ s => Numbered s) ?_ ?_ as s hrun
  · exact ⟨List.nodup_nil, fun n hn => (by cases hn), fun _ n hn => (by cases hn)⟩
  · intro _ s a t _ hn ht
    obtain ⟨hs, hstep⟩ := correlationStep ht
    exact hn.step hs hstep

/-! ## When responses reach their jobs -/

/-- Every response to the packet of a job waits, or was handed to this job, once, and to no
other; and no null pointer was followed. -/
structure Correlated (s : State) : Prop where
  running : s.crashed = false
  handed : ∀ n j, s.log.received[n]? = some (some j) →
    (n ∈ s.waiting ∧ s.handed n = []) ∨ (n ∉ s.waiting ∧ s.handed n = [j])

/-- A worker sends a response only to a packet that it was given, and echoes its header. -/
def Echoes (s : State) (a : Action) : Prop :=
  ∀ w origin pack, a = .respond w origin pack → ∃ j p worker, origin = some j ∧
    s.workers[w]? = some worker ∧ (j, p) ∈ worker.posted ∧
    pack.header =
      { p.header with type := .workerResponse, datasize := pack.header.datasize }

/-- The salt that was drawn for a job. -/
def State.salt (s : State) (j : JobId) : Option (List.Vector UnitT 4) :=
  s.jobs[j]?.map fun job => job.pack.header.randomSalt

/-- The job has been entered, and none with its salt before it. -/
def State.FirstWithSalt (s : State) (j : JobId) : Prop :=
  ∃ before after, s.log.entered = before ++ j :: after ∧ ∀ k ∈ before, s.salt k ≠ s.salt j

/-- The condition on the state before a handler runs: an ack has the key and the salt of a job
that has been entered, and a response to the packet of a job is handled when that job has
been entered, and before any other with its salt. -/
def FindsOwn (s : State) (a : Action) : Prop :=
  ∀ i, a = .strand i →
    (∀ header, s.strand[i]? = some (.ack header) →
      ∃ j ∈ s.log.entered, s.topics[j]? = some header.topic) ∧
    ∀ n pack j, s.strand[i]? = some (.response n pack) →
      s.log.received[n]? = some (some j) → s.FirstWithSalt j

theorem salt_eq (s : State) (j : JobId) : s.salt j = s.topics[j]?.map Prod.snd := by
  rw [topics, List.getElem?_map, Option.map_map]
  rfl

theorem first_iff {s : State} (hm : Matching s) {j : JobId} {topic : KeyT × List.Vector UnitT 4}
    (hj : s.topics[j]? = some topic) : s.first topic = some j ↔ s.FirstWithSalt j := by
  have hsalt : ∀ k ∈ s.log.entered, s.topics[k]? = some topic ↔ s.salt k = s.salt j := by
    intro k hk
    have hget := List.getElem?_eq_getElem (hm.entered k hk)
    have hkey := hm.key _ (List.mem_of_getElem? hget)
    have hkey' := hm.key _ (List.mem_of_getElem? hj)
    rw [salt_eq, salt_eq, hget, hj]
    simp only [Option.map_some, Option.some.injEq]
    constructor
    · intro he
      rw [he]
    · intro he
      exact Prod.ext (hkey.trans hkey'.symm) he
  rw [State.first, List.find?_eq_some_iff_append]
  constructor
  · rintro ⟨-, before, after, hsplit, hbefore⟩
    refine ⟨before, after, hsplit, fun k hk he => ?_⟩
    have hmem : k ∈ s.log.entered := hsplit ▸ List.mem_append_left _ hk
    have := hbefore k hk
    rw [decide_eq_true ((hsalt k hmem).mpr he)] at this
    cases this
  · rintro ⟨before, after, hsplit, hbefore⟩
    refine ⟨decide_eq_true hj, before, after, hsplit, fun k hk => ?_⟩
    have hmem : k ∈ s.log.entered := hsplit ▸ List.mem_append_left _ hk
    rw [decide_eq_false fun he => hbefore k hk ((hsalt k hmem).mp he)]
    rfl

/-- Responses on the strand carry the key and the salt of the job they are for. -/
theorem run_echoed {as : List Action} {s : State} (hrun : run step init as = some s)
    (hecho : Guarded step Echoes init as) : ∀ n pack, .response n pack ∈ s.strand →
      ∃ j, s.log.received[n]? = some (some j) ∧ s.topics[j]? = some pack.header.topic := by
  revert hecho
  refine run_induction (P := fun as s => Guarded step Echoes init as →
    ∀ n pack, .response n pack ∈ s.strand →
      ∃ j, s.log.received[n]? = some (some j) ∧ s.topics[j]? = some pack.header.topic) ?_ ?_
    as s hrun
  · intro _ n pack hmem
    cases hmem
  intro as s a t hs ih ht hecho n pack hmem
  obtain ⟨-, hstep⟩ := correlationStep ht
  have hprefix := topics_prefix hstep
  have hkeep : .response n pack ∈ s.strand → t.log.received = s.log.received →
      ∃ j, t.log.received[n]? = some (some j) ∧ t.topics[j]? = some pack.header.topic := by
    intro hold hreceived
    obtain ⟨j, hj, htopic⟩ := ih hecho.prefix n pack hold
    exact ⟨j, hreceived ▸ hj, topics_of_prefix hprefix htopic⟩
  have hguard := hecho.last hs
  cases hstep with
  | submit | enter => exact hkeep hmem rfl
  | ack w header =>
    rcases List.mem_append.mp hmem with hmem | hmem
    · exact hkeep hmem rfl
    · cases List.mem_singleton.mp hmem
  | respond w origin pack' =>
    rcases List.mem_append.mp hmem with hmem | hmem
    · obtain ⟨j, hj, htopic⟩ := ih hecho.prefix n pack hmem
      refine ⟨j, ?_, htopic⟩
      obtain ⟨hlt, -⟩ := List.getElem?_eq_some_iff.mp hj
      exact (List.getElem?_append_left hlt).trans hj
    · cases List.mem_singleton.mp hmem
      obtain ⟨j, p, worker, rfl, hworker, hp, hheader⟩ := hguard w origin pack rfl
      refine ⟨j, List.getElem?_concat_length, ?_⟩
      have hgiven := (run_matching hs).given (j, p) ⟨worker, List.mem_of_getElem? hworker, hp⟩
      rw [hheader]
      exact hgiven
  | crash i handler m posted cause => exact hkeep (List.mem_of_mem_eraseIdx hmem) rfl
  | runAck i header j jobs waited posted found topics =>
    exact hkeep (List.mem_of_mem_eraseIdx hmem) rfl
  | runResponse i number pack' j jobs posted found topics =>
    exact hkeep (List.mem_of_mem_eraseIdx hmem) rfl
  | other _ _ ha quiet => exact hkeep (quiet.strand ▸ hmem) (by rw [quiet.log])

/-- No job with the salt of job `j` was entered before `j`. -/
def State.NoneBefore (s : State) (j : JobId) : Prop :=
  ∀ k ∈ s.log.entered.takeWhile (· ≠ j), s.salt k ≠ s.salt j

instance (s : State) (j : JobId) : Decidable (s.NoneBefore j) :=
  inferInstanceAs (Decidable (∀ k ∈ s.log.entered.takeWhile (· ≠ j), s.salt k ≠ s.salt j))

/-- The job to whose packet the response is that the step handles, if it handles one. -/
def State.answered (s : State) : Action → Option JobId
  | .strand i => (s.strand[i]?.bind StrandHandler.number).bind fun n => s.log.received[n]?.join
  | _ => none

/-- When a response to the packet of a job is handled, no other job with its salt was entered
before it. -/
def FindsNoOther (s : State) (a : Action) : Prop := ∀ j ∈ s.answered a, s.NoneBefore j

instance (s : State) (a : Action) : Decidable (FindsNoOther s a) :=
  inferInstanceAs (Decidable (∀ j ∈ s.answered a, s.NoneBefore j))

theorem answered_response {s : State} {i n : Nat} {pack : Packet} {j : JobId}
    (hposted : s.strand[i]? = some (.response n pack))
    (hj : s.log.received[n]? = some (some j)) : s.answered (.strand i) = some j := by
  rw [answered, hposted, Option.bind_some, StrandHandler.number, Option.bind_some, hj]
  rfl

theorem noneBefore_of_first {s : State} {j : JobId} (h : s.FirstWithSalt j) : s.NoneBefore j := by
  obtain ⟨before, after, hsplit, hbefore⟩ := h
  have hne : ∀ k ∈ before, decide (k ≠ j) = true := by
    intro k hk
    refine decide_eq_true ?_
    rintro rfl
    exact hbefore k hk rfl
  intro k hk
  rw [hsplit, List.takeWhile_append_of_pos hne, List.takeWhile_cons_of_neg (by simp),
    List.append_nil] at hk
  exact hbefore k hk

/-- What is found for the topic of `j` is `j`, if no job with its salt was entered before. -/
theorem first_of_noneBefore {s : State} {j k : JobId} {topic : KeyT × List.Vector UnitT 4}
    (hj : s.topics[j]? = some topic) (hnone : s.NoneBefore j) (hk : s.first topic = some k) :
    k = j := by
  have htopic := topics_first hk
  by_contra hne
  obtain ⟨-, before, after, hsplit, hbefore⟩ := List.find?_eq_some_iff_append.mp hk
  have hpos : ∀ i ∈ before ++ [k], decide (i ≠ j) = true := by
    intro i hi
    refine decide_eq_true ?_
    rintro rfl
    rcases List.mem_append.mp hi with hi | hi
    · have := hbefore i hi
      rw [decide_eq_true hj] at this
      cases this
    · exact hne (List.mem_singleton.mp hi).symm
  refine hnone k ?_ (by rw [salt_eq, salt_eq, htopic, hj])
  rw [hsplit, ← List.singleton_append, ← List.append_assoc, List.takeWhile_append_of_pos hpos]
  simp

/-- The calls that were made went to the jobs of the responses. -/
theorem run_callees {as : List Action} {s : State} (hrun : run step init as = some s)
    (hecho : Guarded step Echoes init as) (hother : Guarded step FindsNoOther init as) :
    ∀ c ∈ s.log.completions, s.log.received[c.number]? = some (some c.callee) := by
  revert hecho hother
  refine run_induction (P := fun as s => Guarded step Echoes init as →
    Guarded step FindsNoOther init as →
      ∀ c ∈ s.log.completions, s.log.received[c.number]? = some (some c.callee)) ?_ ?_ as s hrun
  · intro _ _ c hc
    cases hc
  intro as s a t hs ih ht hecho hother
  have hcallee := ih hecho.prefix hother.prefix
  obtain ⟨hcrashed, hstep⟩ := correlationStep ht
  have hguard := hother.last hs
  cases hstep with
  | submit | enter | ack | crash | runAck => exact hcallee
  | respond w origin pack =>
    intro c hc
    obtain ⟨hlt, -⟩ := List.getElem?_eq_some_iff.mp (hcallee c hc)
    exact (List.getElem?_append_left hlt).trans (hcallee c hc)
  | runResponse i number pack k jobs posted found topics =>
    intro c hc
    rcases List.mem_append.mp hc with hc | hc
    · exact hcallee c hc
    · rw [List.mem_singleton.mp hc]
      obtain ⟨j, hj, htopic⟩ :=
        run_echoed hs hecho.prefix number pack (List.mem_of_getElem? posted)
      have hfirst := (found_iff (run_matching hs) hcrashed _ k).mp found
      have hnone := hguard j (answered_response posted hj)
      rw [first_of_noneBefore htopic hnone hfirst]
      exact hj
  | other _ _ ha quiet =>
    rw [quiet.log]
    exact hcallee

theorem findsNoOther_of_findsOwn {s : State} {a : Action} (h : FindsOwn s a) :
    FindsNoOther s a := by
  intro j hj
  cases a with
  | strand i =>
    obtain ⟨n, hn, hj⟩ := Option.bind_eq_some_iff.mp hj
    obtain ⟨handler, hposted, hn⟩ := Option.bind_eq_some_iff.mp hn
    cases handler with
    | ack header => cases hn
    | response number pack =>
      cases hn
      exact noneBefore_of_first ((h i rfl).2 n pack j hposted (Option.join_eq_some_iff.mp hj))
  | _ => cases hj

/-- A handler that finds a job has nothing to crash on. -/
theorem run_running {as : List Action} {s : State} (hrun : run step init as = some s)
    (hecho : Guarded step Echoes init as) (hown : Guarded step FindsOwn init as) :
    s.crashed = false := by
  revert hecho hown
  refine run_induction (P := fun as s => Guarded step Echoes init as →
    Guarded step FindsOwn init as → s.crashed = false) (fun _ _ => rfl) ?_ as s hrun
  intro as s a t hs ih ht hecho hown
  have hcrashed := ih hecho.prefix hown.prefix
  obtain ⟨-, hstep⟩ := correlationStep ht
  have hm := run_matching hs
  cases hstep with
  | crash i handler m posted cause =>
    have hfinds : ∃ j < s.topics.length, s.first handler.header.topic = some j := by
      obtain ⟨hack, hresponse⟩ := hown.last hs i rfl
      cases handler with
      | ack header =>
        obtain ⟨j, hj, htopic⟩ := hack header posted
        have hsome : (s.first header.topic).isSome := by
          rw [State.first, List.find?_isSome]
          exact ⟨j, hj, decide_eq_true htopic⟩
        obtain ⟨k, hk⟩ := Option.isSome_iff_exists.mp hsome
        exact ⟨k, hm.entered k (List.mem_of_find?_eq_some hk), hk⟩
      | response n pack =>
        obtain ⟨j, hj, htopic⟩ := run_echoed hs hecho.prefix n pack (List.mem_of_getElem? posted)
        obtain ⟨hlt, -⟩ := List.getElem?_eq_some_iff.mp htopic
        exact ⟨j, hlt, (first_iff hm htopic).mpr (hresponse n pack j posted hj)⟩
    obtain ⟨j, hlt, hj⟩ := hfinds
    have := cause j ((found_iff hm hcrashed _ j).mpr hj)
    omega
  | other _ _ ha quiet => exact quiet.crashed.trans hcrashed
  | _ => exact hcrashed

theorem handed_eq_nil {s : State} {n : Nat}
    (h : n ∉ s.log.completions.map Completion.number) : s.handed n = [] := by
  have hfilter : s.log.completions.filter (fun c => c.number = n) = [] := by
    rw [List.filter_eq_nil_iff]
    intro c hc he
    exact h (List.mem_map.mpr ⟨c, hc, by simpa using he⟩)
  rw [handed, hfilter]
  rfl

theorem handed_eq_singleton {s : State} {c : Completion} (hc : c ∈ s.log.completions)
    (hnodup : (s.log.completions.map Completion.number).Nodup) :
    s.handed c.number = [c.callee] := by
  obtain ⟨before, after, hsplit⟩ := List.append_of_mem hc
  rw [hsplit, List.map_append, List.map_cons] at hnodup
  have hdisjoint := List.nodup_middle.mp hnodup
  rw [List.nodup_cons, List.mem_append, not_or] at hdisjoint
  have hbefore : before.filter (fun c' => c'.number = c.number) = [] := by
    rw [List.filter_eq_nil_iff]
    intro c' hc' he
    exact hdisjoint.1.1 (List.mem_map.mpr ⟨c', hc', by simpa using he⟩)
  have hafter : after.filter (fun c' => c'.number = c.number) = [] := by
    rw [List.filter_eq_nil_iff]
    intro c' hc' he
    exact hdisjoint.1.2 (List.mem_map.mpr ⟨c', hc', by simpa using he⟩)
  rw [handed, hsplit, List.filter_append, List.filter_cons, hbefore, hafter]
  simp

theorem run_correlated {as : List Action} {s : State} (hrun : run step init as = some s)
    (hecho : Guarded step Echoes init as) (hown : Guarded step FindsOwn init as) :
    Correlated s := by
  have hcrashed := run_running hrun hecho hown
  have hcallee := run_callees hrun hecho (hown.mono fun _ _ h => findsNoOther_of_findsOwn h)
  have hn := run_numbered hrun
  obtain ⟨hwaiting, hcompleted, hdisjoint⟩ := List.nodup_append.mp hn.nodup
  refine ⟨hcrashed, fun n j hj => ?_⟩
  obtain ⟨hlt, -⟩ := List.getElem?_eq_some_iff.mp hj
  rcases List.mem_append.mp (hn.all hcrashed n hlt) with hmem | hmem
  · exact Or.inl ⟨hmem, handed_eq_nil fun hc => hdisjoint n hmem n hc rfl⟩
  · obtain ⟨c, hc, rfl⟩ := List.mem_map.mp hmem
    refine Or.inr ⟨fun hw => hdisjoint _ hw _ hmem rfl, ?_⟩
    rw [handed_eq_singleton hc hcompleted]
    have he := hcallee c hc
    rw [hj] at he
    cases he
    rfl

/-- If what a handler leaves is still correlated, it has found the job that it had to. -/
theorem findsOwn_of_correlated {as : List Action} {s t : State} {a : Action}
    (hrun : run step init as = some s) (hecho : Guarded step Echoes init as)
    (hstep : s.step a = some t) (ht : Correlated t) : FindsOwn s a := by
  rintro i rfl
  have hm := run_matching hrun
  have hn := run_numbered (run_concat hrun hstep)
  obtain ⟨hcrashed, hcases⟩ := correlationStep hstep
  cases hcases with
  | crash i handler m posted cause => cases ht.running
  | runAck i header j jobs waited posted found topics =>
    have hfirst := (found_iff hm hcrashed _ j).mp found
    refine ⟨fun header' hposted => ?_, fun n pack j' hposted _ => ?_⟩
    · rw [posted] at hposted
      cases hposted
      exact ⟨j, List.mem_of_find?_eq_some hfirst, topics_first hfirst⟩
    · rw [posted] at hposted
      cases hposted
  | runResponse i number pack k jobs posted found topics =>
    have hfirst := (found_iff hm hcrashed _ k).mp found
    refine ⟨fun header hposted => ?_, fun n pack' j hposted hj => ?_⟩
    · rw [posted] at hposted
      cases hposted
    · rw [posted] at hposted
      cases hposted
      obtain ⟨j', hj', htopic⟩ := run_echoed hrun hecho number pack (List.mem_of_getElem? posted)
      rw [hj] at hj'
      cases hj'
      obtain ⟨-, hcompleted, hdisjoint⟩ := List.nodup_append.mp hn.nodup
      have hnew : (⟨number, k, pack⟩ : Completion) ∈ s.log.completions ++ [⟨number, k, pack⟩] :=
        List.mem_append_right _ (List.mem_singleton_self _)
      have hnumber := List.mem_map_of_mem (f := Completion.number) hnew
      have hhanded := handed_eq_singleton hnew hcompleted
      rcases ht.handed number j hj with ⟨hw, -⟩ | ⟨-, he⟩
      · exact absurd rfl (hdisjoint number hw number hnumber)
      · rw [hhanded] at he
        cases he
        exact (first_iff hm htopic).mp hfirst
  | other _ _ ha quiet => exact absurd rfl (ha i)

/-- In a run with workers that echo, every response goes to its own job, in all states,
exactly if every handler runs when it finds that job. -/
theorem correlated_iff {as : List Action} {s : State} (hrun : run step init as = some s)
    (hecho : Guarded step Echoes init as) :
    (∀ pre t, pre <+: as → run step init pre = some t → Correlated t) ↔
      Guarded step FindsOwn init as := by
  constructor
  · intro hall pre a post t has ht
    subst has
    obtain ⟨t', ht', hrest⟩ := run_append_some hrun
    rw [ht] at ht'
    cases ht'
    rw [run_cons] at hrest
    obtain ⟨u, hu, -⟩ := Option.bind_eq_some_iff.mp hrest
    exact findsOwn_of_correlated ht hecho.prefix hu
      (hall _ u ⟨post, by simp⟩ (run_concat ht hu))
  · rintro hown pre t ⟨post, rfl⟩ ht
    exact run_correlated ht hecho.prefix hown.prefix

/-! ## Two jobs with one salt -/

/-- Two jobs that draw the same salt are posted to one worker. -/
def sameSaltPosts : List Action :=
  [.addWorker,
    .startTriggerPost (List.Vector.replicate 4 1) (List.Vector.replicate 4 2) [65],
    .startTriggerPost (List.Vector.replicate 4 1) (List.Vector.replicate 4 3) [66],
    .call 1 .emplace, .call 2 .emplace,
    .call 1 .tryPop, .call 1 (.look 0), .call 1 .startPost, .call 1 .asyncWait,
    .call 1 .expiresFromNow,
    .call 2 .tryPop, .call 2 (.look 0), .call 2 .startPost, .call 2 .asyncWait,
    .call 2 .expiresFromNow]

/-- What the worker answers to the second. -/
def secondResponse : Packet :=
  { header := { (Job.new (List.Vector.replicate 4 1) (List.Vector.replicate 4 3) [66]).pack.header with
      type := .workerResponse, datasize := 1 }
    data := ⟨[90]⟩ }

def sameSaltRun : List Action := sameSaltPosts ++ [.respond 0 (some 1) secondResponse] ++ [.strand 0]

theorem sameSaltPosts_end : ((run step init sameSaltPosts).map fun s =>
    s.workers.map Worker.posted) =
      some [[(0, (Job.new (List.Vector.replicate 4 1) (List.Vector.replicate 4 2) [65]).pack.sized),
        (1, (Job.new (List.Vector.replicate 4 1) (List.Vector.replicate 4 3) [66]).pack.sized)]] := by
  decide +kernel

theorem sameSaltRun_end : ((run step init sameSaltRun).map fun s =>
    (s.log.received, s.handed 0)) = some ([some 1], [0]) := by
  decide +kernel

theorem sameSaltRun_echoes : Guarded step Echoes init sameSaltRun := by
  obtain ⟨s, hs, hposted⟩ := Option.map_eq_some_iff.mp sameSaltPosts_end
  have hposts : Guarded step Echoes init sameSaltPosts := by
    intro pre a post t has _ w origin pack ha
    subst ha
    have hmem : Action.respond w origin pack ∈ sameSaltPosts := by rw [has]; simp
    simp [sameSaltPosts] at hmem
  have hrespond : Echoes s (.respond 0 (some 1) secondResponse) := by
    intro w origin pack ha
    cases ha
    obtain ⟨worker, rest, hworkers, hfirst, -⟩ := List.map_eq_cons_iff.mp hposted
    refine ⟨1, (Job.new (List.Vector.replicate 4 1) (List.Vector.replicate 4 3) [66]).pack.sized,
      worker, rfl, by rw [hworkers]; rfl, by rw [hfirst]; simp, rfl⟩
  obtain ⟨u, hu, -⟩ := Option.map_eq_some_iff.mp sameSaltRun_end
  obtain ⟨t, ht, -⟩ := run_concat_some hu
  refine (hposts.concat hs hrespond).concat ht ?_
  intro w origin pack ha
  cases ha

theorem same_salt_crossed : ¬ ∀ as s, run step init as = some s →
    Guarded step Echoes init as → Correlated s := by
  intro hall
  obtain ⟨s, hs, hend⟩ := Option.map_eq_some_iff.mp sameSaltRun_end
  obtain ⟨hreceived, hhanded⟩ := Prod.mk.inj hend
  have hcorrelated := (hall sameSaltRun s hs sameSaltRun_echoes).handed 0 1 (by rw [hreceived]; rfl)
  rw [hhanded] at hcorrelated
  simp at hcorrelated

theorem correlated_iff_sameSaltRun :
    ∃ s, run step init sameSaltRun = some s ∧ Guarded step Echoes init sameSaltRun ∧
      ((∀ pre t, pre <+: sameSaltRun → run step init pre = some t → Correlated t) ↔
        Guarded step FindsOwn init sameSaltRun) := by
  obtain ⟨s, hs, -⟩ := Option.map_eq_some_iff.mp sameSaltRun_end
  exact ⟨s, hs, sameSaltRun_echoes, correlated_iff hs sameSaltRun_echoes⟩

end CppSerializer.Launcher
