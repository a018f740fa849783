import CppSerializer.Launcher.Dispatch
import CppSerializer.Pack.Key

/-!
# The table of started jobs

`started_jobs_` is written by the `emplace` of `start_trigger_post` and read by the handlers of
acks and responses, with an `operator[]` that inserts a null pointer for a header it does not
find. A handler leaves the table as it is, and follows no null pointer, exactly when the header
is there (`table_safe_iff`). A job is in the queue before it is in the table, so another loop
may post its packet first; `known_iff` says when the table knows every job that was posted.
-/

namespace CppSerializer.Launcher

open Pack Transition State

namespace JobMap

/-! ## The map with its hash -/

/-- Jobs are looked up as `topics` are: the hash does not show. -/
theorem entry_eq (m : JobMap) (h : PacketHeader) :
    m.entry h = (UnorderedMap.find? PacketHeader.keyTraits m h).bind fun i => m[i]? := by
  rw [UnorderedMap.find?_eq PacketHeader.keyTraits_lawful, entry,
    List.find?_eq_bind_findIdx?_getElem?]
  rfl

theorem emplace_eq (m : JobMap) (h : PacketHeader) (j : JobId) :
    m.emplace h j = UnorderedMap.emplace PacketHeader.keyTraits m h (some j) := by
  have hcontains : UnorderedMap.contains PacketHeader.keyTraits m h = (m.entry h).isSome := by
    rw [UnorderedMap.contains, UnorderedMap.find?_eq PacketHeader.keyTraits_lawful, entry,
      List.findIdx?_isSome, List.isSome_find?]
    rfl
  rw [UnorderedMap.emplace, hcontains, emplace]
  cases m.entry h <;> rfl

/-! ## What the operations of the map leave -/

theorem entry_index (m : JobMap) (h h' : PacketHeader) : (m.index h).1.entry h' =
    (m.entry h').or (if h.topic = h'.topic then some (h, none) else none) := by
  unfold index
  cases hentry : m.entry h with
  | none =>
    simp only [entry, List.find?_append, PacketHeader.keyCompare]
    by_cases he : h.topic = h'.topic
    · simp [he]
    · simp [he]
  | some e =>
    by_cases he : h.topic = h'.topic
    · have hsame : m.entry h' = m.entry h := by
        unfold entry PacketHeader.keyCompare
        rw [he]
      simp [hsame, hentry]
    · simp [he]

/-- After a lookup that has found no job, no job can be entered for the header. -/
theorem emplace_index {m : JobMap} {h h' : PacketHeader} (j : JobId)
    (htopic : h.topic = h'.topic) : (m.index h).1.emplace h' j = (m.index h).1 := by
  have hentry := entry_index m h h'
  rw [if_pos htopic] at hentry
  unfold emplace
  cases he : m.entry h' with
  | none =>
    rw [he] at hentry
    rw [hentry]
    rfl
  | some e =>
    rw [he] at hentry
    rw [hentry]
    rfl

theorem entry_emplace_of_some {m : JobMap} {h h' : PacketHeader} {j : JobId}
    {e : PacketHeader × Option JobId} (he : m.entry h' = some e) :
    (m.emplace h j).entry h' = some e := by
  rw [entry_emplace, he]
  rfl

theorem entry_index_of_some {m : JobMap} {h h' : PacketHeader}
    {e : PacketHeader × Option JobId} (he : m.entry h' = some e) :
    (m.index h).1.entry h' = some e := by
  rw [entry_index, he]
  rfl

end JobMap

theorem complete_startedJobs (s : State) (j : JobId) (ec : ErrorCode) :
    (s.complete j ec).startedJobs = s.startedJobs := by
  unfold complete
  split <;> rfl

theorem withStarted_startedJobs {s : State} {header : PacketHeader}
    {f : State → JobId → Job → State}
    (hf : ∀ s j job, (f s j job).startedJobs = s.startedJobs) :
    (s.withStarted header f).startedJobs = (s.startedJobs.index header).1 := by
  unfold withStarted
  split
  · rename_i m hindex
    rw [hindex]
  · rename_i m j hindex
    rw [hindex]
    split
    · exact hf _ _ _
    · rfl

/-- A handler does to the table what its lookup does. -/
theorem strand_startedJobs {s t : State} {i : Nat} {handler : StrandHandler}
    (hposted : s.strand[i]? = some handler) (h : s.runStrand i = some t) :
    t.startedJobs = (s.startedJobs.index handler.header).1 := by
  rw [runStrand, hposted, Option.map_some] at h
  cases h
  cases handler with
  | ack header =>
    apply withStarted_startedJobs
    intro s j job
    rw [complete_startedJobs]
  | response number pack =>
    apply withStarted_startedJobs
    intro s j job
    rfl

theorem step_strand {s t : State} {i : Nat} (h : s.step (.strand i) = some t) :
    s.crashed = false ∧ s.runStrand i = some t := by
  unfold step at h
  split at h
  · cases h
  · rename_i hcrashed
    exact ⟨by simpa using hcrashed, h⟩

theorem entry_of_step {s t : State} {a : Action} {h : PacketHeader}
    {e : PacketHeader × Option JobId} (hstep : s.step a = some t)
    (he : s.startedJobs.entry h = some e) : t.startedJobs.entry h = some e := by
  obtain ⟨-, hcases⟩ := correlationStep hstep
  cases hcases with
  | enter i j header calls topic => exact JobMap.entry_emplace_of_some he
  | crash i handler m posted cause =>
    rw [strand_startedJobs posted (step_strand hstep).2]
    exact JobMap.entry_index_of_some he
  | other _ _ ha quiet =>
    rw [quiet.startedJobs]
    exact he
  | _ => exact he

/-! ## Handlers -/

/-- The handler has followed no null pointer and has left the table as it was. -/
def Unharmed (s t : State) : Prop := t.crashed = false ∧ t.startedJobs = s.startedJobs

/-- The condition on the state before a handler runs: the table has an entry for the header. -/
def HeaderFound (s : State) (a : Action) : Prop :=
  ∀ i handler, a = .strand i → s.strand[i]? = some handler →
    (s.startedJobs.entry handler.header).isSome

theorem unharmed_iff {as : List Action} {s t : State} {i : Nat}
    (hrun : run step init as = some s) (hstep : s.step (.strand i) = some t) :
    Unharmed s t ↔ HeaderFound s (.strand i) := by
  have hm := run_matching hrun
  obtain ⟨hcrashed, hcases⟩ := correlationStep hstep
  have hfound : ∀ header j, (s.startedJobs.index header).2 = some j →
      (s.startedJobs.entry header).isSome := by
    intro header j hj
    rw [JobMap.index_snd] at hj
    obtain ⟨e, he, -⟩ := Option.bind_eq_some_iff.mp hj
    rw [he]
    rfl
  cases hcases with
  | crash _ handler m posted cause =>
    refine ⟨fun ht => (by cases ht.1), fun hheader => ?_⟩
    -- what the table holds is a job, so that there is nothing to crash on
    obtain ⟨e, he⟩ := Option.isSome_iff_exists.mp (hheader i handler rfl posted)
    have hstarted := hm.started hcrashed handler.header
    rw [he] at hstarted
    cases hfirst : s.first handler.header.topic with
    | none =>
      rw [hfirst] at hstarted
      cases hstarted
    | some j =>
      have hlt := hm.entered j (List.mem_of_find?_eq_some hfirst)
      exact absurd hlt (Nat.not_lt_of_ge (cause j ((found_iff hm hcrashed _ j).mpr hfirst)))
  | runAck _ header j jobs waited posted found topics =>
    refine ⟨fun _ => ?_, fun _ => ⟨hcrashed, rfl⟩⟩
    intro i' handler hi hposted
    cases hi
    rw [posted] at hposted
    cases hposted
    exact hfound header j found
  | runResponse _ number pack j jobs posted found topics =>
    refine ⟨fun _ => ?_, fun _ => ⟨hcrashed, rfl⟩⟩
    intro i' handler hi hposted
    cases hi
    rw [posted] at hposted
    cases hposted
    exact hfound pack.header j found
  | other _ _ ha quiet => exact absurd rfl (ha i)

/-- In a run every handler leaves the table as it is, and follows no null pointer, exactly if
every handler runs when the table has its header. -/
theorem table_safe_iff {as : List Action} {s : State} (hrun : run step init as = some s) :
    (∀ pre i post t u, as = pre ++ .strand i :: post → run step init pre = some t →
      t.step (.strand i) = some u → Unharmed t u) ↔ Guarded step HeaderFound init as := by
  constructor
  · intro hall pre a post t has ht i handler ha hposted
    subst ha
    rw [has, run_append, ht, Option.bind_some, run_cons] at hrun
    obtain ⟨u, hu, -⟩ := Option.bind_eq_some_iff.mp hrun
    exact (unharmed_iff ht hu).mp (hall pre i post t u has ht hu) i handler rfl hposted
  · intro hguard pre i post t u has ht hu
    exact (unharmed_iff ht hu).mpr (hguard pre (.strand i) post t has ht)

/-- A worker registers and sends an ack for a job that nobody has made. -/
def strayRun : List Action :=
  [.addWorker, .ack 0 (Job.new (List.Vector.replicate 4 1) (List.Vector.replicate 4 2) []).pack.header,
    .strand 0]

theorem strayRun_end : ((run step init strayRun).map State.crashed) = some true := by
  decide +kernel

theorem stray_ack_crashes : ¬ ∀ as s t i, run step init as = some s →
    s.step (.strand i) = some t → Unharmed s t := by
  intro hall
  obtain ⟨t, ht, hend⟩ := Option.map_eq_some_iff.mp strayRun_end
  have hsplit : strayRun = strayRun.take 2 ++ [.strand 0] := rfl
  rw [hsplit] at ht
  obtain ⟨s, hs, hstep⟩ := run_concat_some ht
  obtain ⟨hcrashed, -⟩ := hall _ s t 0 hs hstep
  rw [hend] at hcrashed
  cases hcrashed

theorem table_safe_iff_strayRun : ∃ s, run step init strayRun = some s ∧
    ((∀ pre i post t u, strayRun = pre ++ .strand i :: post → run step init pre = some t →
      t.step (.strand i) = some u → Unharmed t u) ↔ Guarded step HeaderFound init strayRun) := by
  obtain ⟨s, hs, -⟩ := Option.map_eq_some_iff.mp strayRun_end
  exact ⟨s, hs, table_safe_iff hs⟩

/-! ## Jobs that are posted -/

/-- The table maps the header of every packet that was posted to the packet's job. -/
def Known (s : State) : Prop :=
  ∀ p, s.Given p → (s.startedJobs.entry p.2.header).bind Prod.snd = some p.1

/-- The condition on the state before a `start_post`: the job has been entered, and none with
its salt before it. -/
def PostsEntered (s : State) (a : Action) : Prop :=
  ∀ i j w, a = .call i .startPost → s.calls[i]? = some (.startPost j w) → s.FirstWithSalt j

/-- The table maps a job's header to the job when the job was the first with its salt. -/
theorem entry_iff {s : State} (hm : Matching s) (hcrashed : s.crashed = false) {j : JobId}
    {header : PacketHeader} (hj : s.topics[j]? = some header.topic) :
    (s.startedJobs.entry header).bind Prod.snd = some j ↔ s.FirstWithSalt j := by
  rw [← JobMap.index_snd, found_iff hm hcrashed]
  exact first_iff hm hj

theorem known_of_step {s t : State} {a : Action} (hk : Known s) (hm : Matching s)
    (hstep : s.step a = some t) (hguard : PostsEntered s a) : Known t := by
  obtain ⟨hcrashed, -⟩ := correlationStep hstep
  have hold : ∀ p, s.Given p → (t.startedJobs.entry p.2.header).bind Prod.snd = some p.1 := by
    intro p hp
    obtain ⟨e, he, hsnd⟩ := Option.bind_eq_some_iff.mp (hk p hp)
    rw [entry_of_step hstep he]
    exact hsnd
  cases postStep hstep with
  | post i j w job hcall hjob hposted =>
    intro p hp
    rw [← mem_allPosted] at hp
    rcases List.mem_cons.mp (hposted.mem_iff.mp hp) with rfl | hmem
    · have htopic : s.topics[j]? = some job.pack.sized.header.topic := by
        rw [topics, List.getElem?_map, hjob]
        rfl
      have hentry := (entry_iff hm hcrashed htopic).mpr (hguard i j w rfl hcall)
      obtain ⟨e, he, hsnd⟩ := Option.bind_eq_some_iff.mp hentry
      rw [entry_of_step hstep he]
      exact hsnd
    · exact hold p (mem_allPosted.mp hmem)
  | keep _ ha hposted =>
    intro p hp
    rw [← mem_allPosted, hposted] at hp
    exact hold p (mem_allPosted.mp hp)

/-- A `start_post` leaves the table as it is, so that what it posts is known only if it was
entered before. -/
theorem postsEntered_of_known {s t : State} {a : Action} (hm : Matching s)
    (hstep : s.step a = some t) (hk : Known t) : PostsEntered s a := by
  rintro i j w rfl hcall
  obtain ⟨hcrashed, hcases⟩ := correlationStep hstep
  have htable : t.startedJobs = s.startedJobs := by
    cases hcases with
    | other _ _ ha quiet => exact quiet.startedJobs
  cases postStep hstep with
  | keep _ ha _ => exact absurd rfl (ha i)
  | post _ j' w' job hcall' hjob hposted =>
    rw [hcall] at hcall'
    cases hcall'
    have hgiven : t.Given (j, job.pack.sized) :=
      mem_allPosted.mp (hposted.mem_iff.mpr List.mem_cons_self)
    have hentry := hk _ hgiven
    rw [htable] at hentry
    refine (entry_iff hm hcrashed ?_).mp hentry
    rw [topics, List.getElem?_map, hjob]
    rfl

/-- In a run the table knows every job that was posted, in all states, exactly if every job is
posted when it has been entered, and before any other with its salt. -/
theorem known_iff {as : List Action} {s : State} (hrun : run step init as = some s) :
    (∀ pre t, pre <+: as → run step init pre = some t → Known t) ↔
      Guarded step PostsEntered init as := by
  constructor
  · intro hall pre a post t has ht
    rw [has, run_append, ht, Option.bind_some, run_cons] at hrun
    obtain ⟨u, hu, -⟩ := Option.bind_eq_some_iff.mp hrun
    refine postsEntered_of_known (run_matching ht) hu ?_
    exact hall _ u ⟨post, by rw [has]; simp⟩ (run_concat ht hu)
  · rintro hguard pre t ⟨post, rfl⟩ ht
    have hpre : Guarded step PostsEntered init pre := hguard.prefix
    revert hpre
    refine run_induction (P := fun as s => Guarded step PostsEntered init as → Known s) ?_ ?_
      pre t ht
    · rintro - p ⟨worker, hworker, -⟩
      cases hworker
    · intro as s a u hs ih hu hpre
      exact known_of_step (ih hpre.prefix) (run_matching hs) hu (hpre.last hs)

/-- A job is pushed; before its `emplace` the loop of a new worker pops it and posts it. -/
def overtakenRun : List Action :=
  [.addWorker, .startTriggerPost (List.Vector.replicate 4 1) (List.Vector.replicate 4 2) [65],
    .call 0 .tryPop, .call 0 (.look 0), .call 0 .startPost]

theorem overtakenRun_end : ((run step init overtakenRun).map fun s =>
    (s.topics.length, s.allPosted.map Prod.fst, s.startedJobs)) = some (1, [0], []) := by
  decide +kernel

theorem overtaken_job : ¬ ∀ as s, run step init as = some s → s.topics.Nodup → Known s := by
  intro hall
  obtain ⟨s, hs, hend⟩ := Option.map_eq_some_iff.mp overtakenRun_end
  simp only [Prod.mk.injEq] at hend
  obtain ⟨hlength, hposted, htable⟩ := hend
  obtain ⟨topic, htopics⟩ := List.length_eq_one_iff.mp hlength
  obtain ⟨p, rest, hall', -⟩ := List.map_eq_cons_iff.mp hposted
  have hgiven : s.Given p := mem_allPosted.mp (by rw [hall']; exact List.mem_cons_self)
  have hentry := hall _ s hs (by rw [htopics]; exact List.nodup_singleton topic) p hgiven
  rw [htable] at hentry
  cases hentry

theorem known_iff_overtakenRun : ∃ s, run step init overtakenRun = some s ∧
    ((∀ pre t, pre <+: overtakenRun → run step init pre = some t → Known t) ↔
      Guarded step PostsEntered init overtakenRun) := by
  obtain ⟨s, hs, -⟩ := Option.map_eq_some_iff.mp overtakenRun_end
  exact ⟨s, hs, known_iff hs⟩

end CppSerializer.Launcher
