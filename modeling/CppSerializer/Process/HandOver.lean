import CppSerializer.Process.Replies

/-!
# A socket that is handed over

`add_worker` takes the socket out of the connection, but the tasks of its puts, its listeners in
the buckets and the callbacks of its jobs keep the connection, and write to it later: what they
write is lost. Nothing is lost when whatever the connection has begun is done by then
(`handedOver_of_releasesAll`).
-/

namespace CppSerializer.Process

open Pack Bucket ReadLoop TcpConnection Transition
open Launcher (JobId)

/-! ## The property and the condition -/

/-- When the socket of a connection is with a worker, every control reply that its requests are
due was started before, and the connection starts no write any more. -/
def HandedOver (as : List Action) : Prop :=
  ∀ (pre : List Action) (q : Process) (c : Connection) (t : Session), pre <+: as →
    run step init pre = some q → q.sessions[c]? = some t → t.moved = true →
    (∀ (n : Nat) (r : Request) (resp : Packet), t.requests[n]? = some r → r.reply? = some resp →
      (n, resp) ∈ t.controls) ∧
    ∀ (p : Process) (s : Session), run step init as = some p → p.sessions[c]? = some s →
      s.writes = t.writes

/-- The operation behind `add_worker`. -/
def startsJobs : Op → Bool
  | .effect _ .startJobs => true
  | _ => false

theorem startsJobs_eq {op : Op} (h : startsJobs op = true) :
    ∃ request, op = .effect request .startJobs := by
  cases op with
  | effect request e =>
    cases e with
    | startJobs => exact ⟨request, rfl⟩
    | _ => cases h
  | _ => cases h

/-- Nothing that the connection has begun is left: no read is outstanding, its handlers have only
`start_jobs` to perform, and the topics have no task and no listener of it. -/
structure Released (p : Process) (c : Connection) (s : Session) : Prop where
  reads : s.loop.reads = []
  handlers : ∀ code ∈ s.loop.handlers, ∀ op ∈ code, startsJobs op = true
  topics : p.topics.Clear c

instance (p : Process) (c : Connection) (s : Session) : Decidable (p.Released c s) :=
  decidable_of_iff (s.loop.reads = [] ∧
      (∀ code ∈ s.loop.handlers, ∀ op ∈ code, startsJobs op = true) ∧ p.topics.Clear c)
    ⟨fun h => ⟨h.1, h.2.1, h.2.2⟩, fun h => ⟨h.reads, h.handlers, h.topics⟩⟩

/-- The job whose callback the step calls. -/
def completes (l : Launcher.State) : Launcher.Action → Option JobId
  | .strand i =>
    match l.strand[i]? with
    | some (.response _ pack) => (l.startedJobs.index pack.header).2
    | _ => none
  | _ => none

/-- `add_worker` takes the socket of a connection with nothing else to do, and the callback of a
job is not called when the socket of its connection is gone. -/
def ReleasesAll (p : Process) : Action → Prop
  | .next c k _ _ => ∀ s ∈ p.sessions[c]?, ∀ code ∈ s.loop.handlers[k]?,
    code.head?.any moves = true → p.Released c { s with
      loop := { s.loop with handlers := s.loop.handlers.set k code.tail } }
  | .launcher a => ∀ j ∈ completes p.launcher a, ∀ c ∈ p.owners[j]?, ∀ s ∈ p.sessions[c]?,
    s.moved = false
  | .accept | .arrive _ _ | .complete _ _ | .fail _ _ | .topics _ => True

instance (p : Process) : (a : Action) → Decidable (p.ReleasesAll a)
  | .next c k _ _ => inferInstanceAs (Decidable (∀ s ∈ p.sessions[c]?,
    ∀ code ∈ s.loop.handlers[k]?, code.head?.any moves = true → p.Released c { s with
      loop := { s.loop with handlers := s.loop.handlers.set k code.tail } }))
  | .launcher a => inferInstanceAs (Decidable (∀ j ∈ completes p.launcher a, ∀ c ∈ p.owners[j]?,
    ∀ s ∈ p.sessions[c]?, s.moved = false))
  | .accept | .arrive _ _ | .complete _ _ | .fail _ _ | .topics _ => .isTrue trivial

/-! ## Replies that are due -/

/-- Nothing of the account of a connection is left but the replies that were started. -/
theorem replied_of_released {p : Process} {c : Connection} {s : Session} (h : p.Released c s)
    {item : Item} (hitem : item ∈ p.items c s) :
    ∃ n resp, item = .replied n resp ∧ (n, resp) ∈ s.controls := by
  rw [items, items_controls, h.reads] at hitem
  simp only [List.mem_append, List.flatMap_nil, List.not_mem_nil, false_or] at hitem
  rcases hitem with (hitem | hitem) | hitem
  · obtain ⟨code, hcode, hitem⟩ := List.mem_flatMap.mp hitem
    obtain ⟨op, hop, hitem⟩ := List.mem_flatMap.mp hitem
    obtain ⟨request, rfl⟩ := startsJobs_eq (h.handlers code hcode op hop)
    cases hitem
  · obtain ⟨task, htask, hitem⟩ := List.mem_flatMap.mp hitem
    by_cases hself : task.self = c
    · rw [itemOfTask_done (by simp [Topics.Task.visible, h.topics.tasks task htask hself])] at hitem
      cases hitem
    · rw [itemOfTask_other hself] at hitem
      cases hitem
  · obtain ⟨r, hr, rfl⟩ := List.mem_map.mp hitem
    exact ⟨r.1, r.2, rfl, hr⟩

theorem controls_of_released {p : Process} (hi : Accounted p) {c : Connection} {s : Session}
    (hs : p.sessions[c]? = some s) (h : p.Released c s) {n : Nat} {r : Request} {resp : Packet}
    (hr : s.requests[n]? = some r) (hreply : r.reply? = some resp) : (n, resp) ∈ s.controls := by
  have hsound := hi.sound c s hs
  obtain ⟨item, hitem, hn⟩ := List.mem_map.mp (hsound.due n r resp hr hreply)
  obtain ⟨n', resp', rfl, hcontrol⟩ := replied_of_released h hitem
  change n' = n at hn
  subst hn
  -- the reply that was started is the one that is due
  obtain ⟨r', hr', hreply', -⟩ := hsound.fits _ hitem
  change s.requests[n']? = some r' at hr'
  rw [hr] at hr'
  cases hr'
  rw [hreply] at hreply'
  cases hreply'
  exact hcontrol

/-! ## Steps -/

/-- The output of a topic for another connection is no write of this one. -/
theorem writeOf_other {c : Connection} {o : Topics.Output} (h : o.connection? ≠ some c)
    {w : Connection × Write} (hw : writeOf o = some w) : w.1 ≠ c := by
  cases o with
  | reply self request resp =>
    cases hw
    exact fun hc => h (congrArg some hc)
  | call listener pack =>
    cases hw
    exact fun hc => h (congrArg some hc)
  | post body => cases hw

theorem wrote_other (s : Session) {c : Connection} {ws : List (Connection × Write)}
    (h : ∀ w ∈ ws, w.1 ≠ c) : s.wrote ws c = s := by
  have hnone : ws.filter (fun w => w.1 = c) = [] :=
    List.filter_eq_nil_iff.mpr fun w hw => by simpa using h w hw
  rw [Session.wrote, hnone, List.map_nil, List.append_nil]

/-- A step of another connection does not concern the topics of this one. -/
theorem clear_posted {t : Topics} {c c' : Connection} (h : t.Clear c) (hc : c' ≠ c) (op : Op) :
    (posted c' t op).Clear c := by
  rcases posted_step c' t op with hsame | ⟨a, hstep, hput, hget⟩
  · rw [hsame]
    exact h
  · refine (h.step ?_ ?_ hstep).1
    · intro self request header payload ha
      rw [hput self request header payload ha]
      exact hc
    · intro self request header ha
      rw [hget self request header ha]
      exact hc

/-- The job whose callback a step calls. -/
theorem completes_of_callback {s t : Launcher.State} {a : Launcher.Action}
    (h : s.step a = some t) {done : Launcher.Completion}
    (hdone : t.log.completions = s.log.completions ++ [done]) :
    completes s a = some done.callee := by
  rcases completions_of_step h with hsame | ⟨i, number, pack, j, rfl, hposted, hfound, hnew⟩
  · rw [hsame] at hdone
    exact absurd (congrArg List.length hdone) (by simp)
  · rw [hnew] at hdone
    obtain rfl := List.singleton_inj.mp (List.append_cancel_left hdone)
    rw [completes, hposted]
    exact hfound

/-- The connection of a socket that is gone is done. -/
def AllReleased (p : Process) : Prop :=
  ∀ (c : Connection) (s : Session), p.sessions[c]? = some s → s.moved = true → p.Released c s

/-- A connection whose socket is gone is done after a step, and has written nothing in it. -/
def Stays (p q : Process) : Prop :=
  ∀ (c : Connection) (t : Session), q.sessions[c]? = some t → t.moved = true →
    q.Released c t ∧ ∀ s, p.sessions[c]? = some s → s.moved = true → t.writes = s.writes

/-- A connection whose session the step leaves as it is. -/
theorem AllReleased.kept {p q : Process} (hi : p.AllReleased) {c : Connection} {s : Session}
    (hs : p.sessions[c]? = some s) (hmoved : s.moved = true)
    (hclear : p.topics.Clear c → q.topics.Clear c) :
    q.Released c s ∧
      ∀ s', p.sessions[c]? = some s' → s'.moved = true → s.writes = s'.writes := by
  have hold := hi c s hs hmoved
  refine ⟨⟨hold.reads, hold.handlers, hclear hold.topics⟩, fun s' hs' _ => ?_⟩
  rw [hs] at hs'
  cases hs'
  rfl

/-- A step of the reads or the handlers of one connection, which leaves the topics. -/
theorem Stays.setSession {p : Process} (hi : p.AllReleased) {c₀ : Connection} {s t : Session}
    (hs : p.sessions[c₀]? = some s) (hmoved : t.moved = s.moved) (hwrites : t.writes = s.writes)
    (ht : p.Released c₀ s → p.Released c₀ t) : Stays p (p.setSession c₀ t) := by
  intro c t' ht' hmoved'
  rw [getElem?_setSession p hs] at ht'
  by_cases hc : c₀ = c
  · subst hc
    rw [if_pos rfl] at ht'
    cases ht'
    have hold := ht (hi c₀ s hs (hmoved ▸ hmoved'))
    refine ⟨⟨hold.reads, hold.handlers, hold.topics⟩, fun s' hs' _ => ?_⟩
    rw [hs] at hs'
    cases hs'
    exact hwrites
  · rw [if_neg hc] at ht'
    exact hi.kept ht' hmoved' id

theorem stays_next {p q : Process} (hi : p.AllReleased) {c₀ : Connection} {k : Nat}
    {randomSalt sequence : List.Vector UnitT 4} {s : Session} (hs : p.sessions[c₀]? = some s)
    {op : Op} {ops : List Op} (hcode : s.loop.handlers[k]? = some (op :: ops))
    (hperformed : Performed (p.setSession c₀ { s with loop := { s.loop with
      reads := s.loop.reads ++ op.start.toList, handlers := s.loop.handlers.set k ops } }) q c₀
        randomSalt sequence op)
    (hguard : p.ReleasesAll (.next c₀ k randomSalt sequence)) : Stays p q := by
  intro c t ht hmoved
  have htopics : q.topics = posted c₀ p.topics op := hperformed.topics
  rw [hperformed.sessions, getElem?_setSession p hs] at ht
  obtain ⟨s₁, hs₁, rfl⟩ := Option.map_eq_some_iff.mp ht
  by_cases hc : c₀ = c
  · subst hc
    rw [if_pos rfl] at hs₁ hmoved ⊢
    cases hs₁
    change (s.moved || moves op) = true at hmoved
    by_cases hbefore : s.moved = true
    · -- `start_jobs` is all that is left
      have hold := hi c₀ s hs hbefore
      obtain ⟨request, rfl⟩ := startsJobs_eq
        (hold.handlers _ (List.mem_of_getElem? hcode) op List.mem_cons_self)
      refine ⟨⟨?_, ?_, ?_⟩, fun s' hs' _ => ?_⟩
      · exact (List.append_nil _).trans hold.reads
      · intro code hmem op' hop'
        rcases List.mem_or_eq_of_mem_set hmem with hmem | rfl
        · exact hold.handlers code hmem op' hop'
        · exact hold.handlers _ (List.mem_of_getElem? hcode) op' (List.mem_cons_of_mem _ hop')
      · rw [htopics]
        exact hold.topics
      · rw [hs] at hs'
        cases hs'
        exact List.append_nil _
    · have hop : moves op = true := by simpa [hbefore] using hmoved
      have hnew := hguard s hs _ hcode hop
      obtain ⟨request, pack, rfl⟩ : ∃ request pack, op = .effect request (.addWorker pack) := by
        cases op with
        | effect request e =>
          cases e with
          | addWorker pack => exact ⟨request, pack, rfl⟩
          | _ => cases hop
        | _ => cases hop
      refine ⟨⟨?_, hnew.handlers, ?_⟩, fun s' hs' hs'moved => ?_⟩
      · exact (List.append_nil _).trans hnew.reads
      · rw [htopics]
        exact hnew.topics
      · rw [hs] at hs'
        cases hs'
        exact absurd hs'moved hbefore
  · rw [if_neg hc] at hs₁ hmoved ⊢
    refine hi.kept hs₁ hmoved fun hclear => ?_
    rw [htopics]
    exact clear_posted hclear hc op

theorem stays_topics {p q : Process} (hi : p.AllReleased) {a : Topics.Action} {t : Topics}
    {out : List Topics.Output} (hown : topicsPost a = false)
    (hstep : p.topics.step a = some (t, out))
    (hwrote : Wrote { p with topics := t } q (out.filterMap writeOf)) : Stays p q := by
  intro c u hu hmoved
  rw [hwrote.sessions] at hu
  obtain ⟨s, hs, rfl⟩ := Option.map_eq_some_iff.mp hu
  change p.sessions[c]? = some s at hs
  obtain ⟨hclear, hother⟩ := (hi c s hs hmoved).topics.step
    (fun _ _ _ _ ha => by rw [ha] at hown; cases hown)
    (fun _ _ _ ha => by rw [ha] at hown; cases hown) hstep
  have hsame : s.wrote (out.filterMap writeOf) c = s := by
    refine wrote_other s fun w hw => ?_
    obtain ⟨o, ho, how⟩ := List.mem_filterMap.mp hw
    exact writeOf_other (hother o ho) how
  rw [hsame]
  refine hi.kept hs hmoved fun _ => ?_
  rw [hwrote.topics]
  exact hclear

theorem stays_launcher {p q : Process} (hi : p.AllReleased) {a : Launcher.Action}
    (hguard : p.ReleasesAll (.launcher a)) (hstep : LauncherStep p a q) : Stays p q := by
  intro c t ht hmoved
  cases hstep with
  | silent l step completions => exact hi.kept ht hmoved id
  | callback l step done strand completions =>
    obtain ⟨htopics, -, -⟩ := callback_topics { p with launcher := l } done
    rw [getElem?_callback] at ht
    obtain ⟨s, hs, rfl⟩ := Option.map_eq_some_iff.mp ht
    change p.sessions[c]? = some s at hs
    by_cases howner : p.owners[done.callee]? = some c
    · -- the socket of this connection is there
      have hthere := hguard _ (completes_of_callback step completions) c howner s hs
      rw [if_pos howner] at hmoved
      exact absurd hmoved (by simpa [Session.post] using hthere)
    · rw [if_neg howner] at hmoved ⊢
      refine hi.kept hs hmoved fun hclear => ?_
      rw [htopics]
      exact hclear

theorem AllReleased.step {p q : Process} {a : Action} (hi : p.AllReleased)
    (hguard : p.ReleasesAll a) (h : p.step a = some q) : Stays p q := by
  cases step_cases h with
  | accept =>
    intro c t ht hmoved
    by_cases hlt : c < p.sessions.length
    · change (p.sessions ++ [Session.accepted])[c]? = some t at ht
      rw [List.getElem?_append_left hlt] at ht
      exact hi.kept ht hmoved id
    · change (p.sessions ++ [Session.accepted])[c]? = some t at ht
      rw [List.getElem?_append_right (Nat.le_of_not_lt hlt)] at ht
      rw [List.mem_singleton.mp (List.mem_of_getElem? ht)] at hmoved
      cases hmoved
  | arrive c chunk s found =>
    exact .setSession hi found rfl rfl fun hold => ⟨hold.reads, hold.handlers, hold.topics⟩
  | complete c i s found r outstanding size =>
    refine .setSession hi found rfl rfl fun hold => ?_
    rw [hold.reads] at outstanding
    cases outstanding
  | fail c i s found r outstanding =>
    refine .setSession hi found rfl rfl fun hold => ?_
    rw [hold.reads] at outstanding
    cases outstanding
  | next c k randomSalt sequence s found op ops code q performed =>
    exact stays_next hi found code performed hguard
  | topics a own t out step q wrote => exact stays_topics hi own step wrote
  | launcher a own q step => exact stays_launcher hi hguard step

/-! ## Runs -/

theorem run_released {as : List Action} {p : Process} (hrun : run step init as = some p)
    (hguard : Guarded step ReleasesAll init as) : p.AllReleased := by
  refine run_guarded ?_ ?_ hrun hguard
  · intro c s hs
    cases hs
  · intro p a q hi hg hq c t ht hmoved
    exact (hi.step hg hq c t ht hmoved).1

/-- From where its socket is gone, a connection writes nothing. -/
theorem writes_of_run {bs : List Action} {q p : Process} (hrun : run step q bs = some p)
    (hguard : Guarded step ReleasesAll q bs) (hi : q.AllReleased) {c : Connection} {t : Session}
    (ht : q.sessions[c]? = some t) (hmoved : t.moved = true) :
    ∃ s, p.sessions[c]? = some s ∧ s.writes = t.writes := by
  have hall : p.AllReleased ∧ ∃ s, p.sessions[c]? = some s ∧ s.moved = true ∧
      s.writes = t.writes := by
    refine run_guarded (I := fun p => p.AllReleased ∧ ∃ s, p.sessions[c]? = some s ∧
      s.moved = true ∧ s.writes = t.writes) ⟨hi, t, ht, hmoved, rfl⟩ ?_ hrun hguard
    rintro p a p' ⟨hreleased, s, hs, hsmoved, hwrites⟩ hg hp'
    have hstays := hreleased.step hg hp'
    obtain ⟨s', hs', hkept⟩ := session_of_step hp' hs
    refine ⟨fun c t ht hmoved => (hstays c t ht hmoved).1, s', hs', hkept hsmoved, ?_⟩
    exact ((hstays c s' hs' (hkept hsmoved)).2 s hs hsmoved).trans hwrites
  obtain ⟨-, s, hs, -, hwrites⟩ := hall
  exact ⟨s, hs, hwrites⟩

/-- A connection whose socket is handed over is never used again, and owes nothing, in every run
in which `add_worker` takes the sockets only of connections that have nothing left to do, and the
callbacks of jobs come before that. -/
theorem handedOver_of_releasesAll {as : List Action} (hguard : Guarded step ReleasesAll init as) :
    HandedOver as := by
  rintro pre q c t ⟨bs, rfl⟩ hq ht hmoved
  have hreleased := run_released hq hguard.prefix
  refine ⟨fun n r resp hr hreply => ?_, fun p s hp hs => ?_⟩
  · exact controls_of_released (run_accounted hq) ht (hreleased c t ht hmoved) hr hreply
  · obtain ⟨q', hq', hrest⟩ := run_append_some hp
    rw [hq] at hq'
    cases hq'
    obtain ⟨s', hs', hwrites⟩ := writes_of_run hrest (hguard.rest hq) hreleased ht hmoved
    rw [hs] at hs'
    cases hs'
    exact hwrites

/-! ## A put before a worker_reg -/

/-- A put with a body and a worker_reg come in at once. The handlers run until both packets are
read, and the header of the second waits for its switch. -/
def putThenReg : List Action :=
  let draw := List.Vector.replicate 4 1
  [.accept,
    .arrive 0 ((pipelinedHeader .put 1 1).bytes ++ [65] ++ (pipelinedHeader .workerReg 2 0).bytes),
    .complete 0 0, .next 0 0 draw draw, .complete 0 0, .next 0 1 draw draw, .next 0 1 draw draw,
    .complete 0 0]

/-- `add_worker` and `start_jobs` of the second packet. -/
def addWorker : List Action :=
  let draw := List.Vector.replicate 4 1
  [.next 0 2 draw draw, .next 0 2 draw draw]

/-- The task of the put, from its beginning to its ack. -/
def putTask : List Action :=
  [.topics (.task 0 .contains), .topics (.task 0 .emplace), .topics (.task 0 .at),
    .topics (.task 0 .pushMessage), .topics (.task 0 .startHandleEvents),
    .topics (.task 0 .startWrite)]

theorem ackFirst_end : ((run step init (putThenReg ++ putTask ++ addWorker)).bind fun p =>
    p.sessions[0]?.map fun s => (s.moved, s.controls.map fun r => (r.1, r.2.header.type))) =
      some (true, [(0, .ack)]) := by
  decide +kernel

/-- The ack is written before the socket goes. -/
theorem handedOver_ackFirst : ∃ p s,
    run step init (putThenReg ++ putTask ++ addWorker) = some p ∧ p.sessions[0]? = some s ∧
    s.moved = true ∧ HandedOver (putThenReg ++ putTask ++ addWorker) := by
  obtain ⟨p, hp, hend⟩ := Option.bind_eq_some_iff.mp ackFirst_end
  obtain ⟨s, hs, hs'⟩ := Option.map_eq_some_iff.mp hend
  refine ⟨p, s, hp, hs, (Prod.mk.inj hs').1, handedOver_of_releasesAll (guarded_of_check ?_)⟩
  decide +kernel

theorem moved_end : ((run step init (putThenReg ++ addWorker)).bind fun p =>
    p.sessions[0]?.map fun s => (s.moved, s.writes)) = some (true, []) := by
  decide +kernel

theorem lateAck_end : ((run step init (putThenReg ++ addWorker ++ putTask)).bind fun p =>
    p.sessions[0]?.map fun s => s.writes.map Write.origin) = some [.control 0] := by
  decide +kernel

/-- The ack is written to a socket that the worker has. -/
theorem lateAck_not_handedOver : ¬ HandedOver (putThenReg ++ addWorker ++ putTask) := by
  intro hall
  obtain ⟨q, hq, hqend⟩ := Option.bind_eq_some_iff.mp moved_end
  obtain ⟨t, ht, htend⟩ := Option.map_eq_some_iff.mp hqend
  obtain ⟨hmoved, hwrites⟩ := Prod.mk.inj htend
  obtain ⟨p, hp, hpend⟩ := Option.bind_eq_some_iff.mp lateAck_end
  obtain ⟨s, hs, horigins⟩ := Option.map_eq_some_iff.mp hpend
  have hsame := (hall _ q 0 t ⟨putTask, rfl⟩ hq ht hmoved).2 p s hp hs
  rw [hsame, hwrites] at horigins
  cases horigins

end CppSerializer.Process
