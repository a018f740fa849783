import CppSerializer.Launcher.Correlation
import CppSerializer.Library.Transition
import CppSerializer.Process.Model

/-!
# What a step of the process does to the connections

Whoever takes a step, what it does to a connection is one of few things: its reads and handlers
go on, `start_write` is called, a callback is posted, or the socket is moved away.
-/

namespace CppSerializer.Process

open Pack Bucket ReadLoop TcpConnection Transition

/-! ## Writes -/

/-- The connection after those of the writes that are its own. -/
def Session.wrote (s : Session) (ws : List (Connection × Write)) (c : Connection) : Session :=
  { s with writes := s.writes ++ (ws.filter fun w => w.1 = c).map Prod.snd }

theorem Session.wrote_nil (s : Session) (c : Connection) : s.wrote [] c = s := by
  rw [wrote, List.filter_nil, List.map_nil, List.append_nil]

theorem Session.wrote_append (s : Session) (ws ws' : List (Connection × Write)) (c : Connection) :
    s.wrote (ws ++ ws') c = (s.wrote ws c).wrote ws' c := by
  simp only [wrote, List.filter_append, List.map_append, List.append_assoc]

/-- `q` is `p` after the writes, and nothing else. -/
structure Wrote (p q : Process) (ws : List (Connection × Write)) : Prop where
  topics : q.topics = p.topics
  launcher : q.launcher = p.launcher
  owners : q.owners = p.owners
  sessions : ∀ c : Connection, q.sessions[c]? = p.sessions[c]?.map fun s => s.wrote ws c

theorem Wrote.refl (p : Process) : Wrote p p [] := by
  refine ⟨rfl, rfl, rfl, ?_⟩
  intro c
  cases p.sessions[c]? with
  | none => rfl
  | some s => rw [Option.map_some, s.wrote_nil]

theorem Wrote.trans {p q r : Process} {ws ws' : List (Connection × Write)} (h : Wrote p q ws)
    (h' : Wrote q r ws') : Wrote p r (ws ++ ws') := by
  refine ⟨h'.topics.trans h.topics, h'.launcher.trans h.launcher, h'.owners.trans h.owners, ?_⟩
  intro c
  rw [h'.sessions, h.sessions, Option.map_map]
  congr 1
  ext s : 1
  exact (s.wrote_append ws ws' c).symm

theorem getElem?_setSession (p : Process) {c : Connection} {s : Session}
    (hs : p.sessions[c]? = some s) (s' : Session) (c' : Connection) :
    (p.setSession c s').sessions[c']? = if c = c' then some s' else p.sessions[c']? := by
  obtain ⟨hlt, -⟩ := List.getElem?_eq_some_iff.mp hs
  rw [setSession, List.getElem?_set, if_pos hlt]

theorem write_some {p q : Process} {c : Connection} {origin : Origin} {pack : Packet}
    (h : p.write c origin pack = some q) : Wrote p q [(c, ⟨origin, pack.sized⟩)] := by
  simp only [write, Option.bind_eq_bind, Option.bind_eq_some_iff] at h
  obtain ⟨s, hs, s', hwrite, h⟩ := h
  cases h
  simp only [Session.write, Option.bind_eq_bind, Option.bind_eq_some_iff] at hwrite
  obtain ⟨⟨pack', buf⟩, hserialize, hwrite⟩ := hwrite
  cases hwrite
  obtain ⟨-, rfl, -⟩ := Packet.serialize_some hserialize
  refine ⟨rfl, rfl, rfl, ?_⟩
  intro c'
  rw [getElem?_setSession p hs]
  by_cases hc : c = c'
  · subst hc
    rw [if_pos rfl, hs]
    simp [Session.wrote]
  · rw [if_neg hc]
    cases p.sessions[c']? with
    | none => rfl
    | some s => simp [Session.wrote, hc]

/-- The write that an output of the topics is. -/
def writeOf : Topics.Output → Option (Connection × Write)
  | .reply self request resp => some (self, ⟨.control request, resp.sized⟩)
  | .call listener pack => some (listener.connection, ⟨.listener, pack.sized⟩)
  | .post _ => none

theorem output_some {p q : Process} {o : Topics.Output} (h : p.output o = some q) :
    Wrote p q (writeOf o).toList := by
  cases o with
  | reply self request resp => exact write_some h
  | call listener pack => exact write_some h
  | post body =>
    cases h
    exact Wrote.refl _

theorem outputs_some {p q : Process} {out : List Topics.Output}
    (h : out.foldlM output p = some q) : Wrote p q (out.filterMap writeOf) := by
  induction out generalizing p with
  | nil =>
    cases h
    exact Wrote.refl _
  | cons o out ih =>
    rw [List.foldlM_cons, Option.bind_eq_bind, Option.bind_eq_some_iff] at h
    obtain ⟨p', ho, h⟩ := h
    have hall := (output_some ho).trans (ih h)
    rw [List.filterMap_cons]
    cases hw : writeOf o with
    | none => rwa [hw] at hall
    | some w => rwa [hw] at hall

theorem stepTopics_some {p q : Process} {a : Topics.Action} (h : p.stepTopics a = some q) :
    ∃ t out, p.topics.step a = some (t, out) ∧
      Wrote { p with topics := t } q (out.filterMap writeOf) := by
  simp only [stepTopics, Option.bind_eq_bind, Option.bind_eq_some_iff] at h
  obtain ⟨⟨t, out⟩, ht, h⟩ := h
  exact ⟨t, out, ht, outputs_some h⟩

/-! ## The launcher -/

/-- A step completes a job only when the handler of a response finds it. -/
theorem completions_of_step {s t : Launcher.State} {a : Launcher.Action} (h : s.step a = some t) :
    t.log.completions = s.log.completions ∨
      ∃ i number pack j, a = .strand i ∧ s.strand[i]? = some (.response number pack) ∧
        (s.startedJobs.index pack.header).2 = some j ∧
        t.log.completions = s.log.completions ++ [⟨number, j, pack⟩] := by
  obtain ⟨-, hstep⟩ := Launcher.correlationStep h
  cases hstep with
  | runResponse i number pack j jobs posted found topics =>
    exact Or.inr ⟨i, number, pack, j, rfl, posted, found, rfl⟩
  | other _ _ ha quiet => exact Or.inl (by rw [quiet.log])
  | _ => exact Or.inl rfl

/-- What the launcher does to the process: it takes a step, and the callback of the job that the
step completes, if any, is posted. -/
inductive LauncherStep (p : Process) (a : Launcher.Action) : Process → Prop
  | silent (l : Launcher.State) (step : p.launcher.step a = some l)
      (completions : l.log.completions = p.launcher.log.completions) :
      LauncherStep p a { p with launcher := l }
  | callback (l : Launcher.State) (step : p.launcher.step a = some l)
      (done : Launcher.Completion) (strand : launcherCall a = false)
      (completions : l.log.completions = p.launcher.log.completions ++ [done]) :
      LauncherStep p a ({ p with launcher := l }.callback done)

theorem stepLauncher_some {p q : Process} {a : Launcher.Action} (h : p.stepLauncher a = some q) :
    LauncherStep p a q := by
  simp only [stepLauncher, Option.bind_eq_bind, Option.bind_eq_some_iff] at h
  obtain ⟨l, hl, h⟩ := h
  cases h
  rcases completions_of_step hl with hsame | ⟨i, number, pack, j, rfl, -, -, hnew⟩
  · rw [hsame, List.drop_length]
    exact .silent l hl hsame
  · rw [hnew, List.drop_left]
    exact .callback l hl _ rfl hnew

/-- The calls that connections make complete no job. -/
theorem stepLauncher_call {p q : Process} {a : Launcher.Action} (h : p.stepLauncher a = some q)
    (ha : launcherCall a = true) : ∃ l, p.launcher.step a = some l ∧
      l.log.completions = p.launcher.log.completions ∧ q = { p with launcher := l } := by
  cases stepLauncher_some h with
  | silent l step completions => exact ⟨l, step, completions, rfl⟩
  | callback l step done strand completions =>
    rw [ha] at strand
    cases strand

theorem getElem?_callback (p : Process) (done : Launcher.Completion) (c : Connection) :
    (p.callback done).sessions[c]? = p.sessions[c]?.map fun s =>
      if p.owners[done.callee]? = some c then s.post (callbackCode done.pack) else s := by
  rw [callback]
  cases howner : p.owners[done.callee]? with
  | none => simp
  | some c' =>
    simp only [List.getElem?_modify, Option.some.injEq]
    rfl

theorem callback_topics (p : Process) (done : Launcher.Completion) :
    (p.callback done).topics = p.topics ∧ (p.callback done).launcher = p.launcher ∧
      (p.callback done).owners = p.owners := by
  rw [callback]
  split <;> exact ⟨rfl, rfl, rfl⟩

/-! ## Operations of handlers -/

/-- The operation is `add_worker`. -/
def moves : Op → Bool
  | .effect _ (.addWorker _) => true
  | _ => false

/-- The operation is `start_trigger_post`. -/
def submits : Op → Bool
  | .effect _ (.startTriggerPost _) => true
  | _ => false

/-- What the operation writes. -/
def written : Op → List Write
  | .effect request (.startWrite resp) => [⟨.control request, resp.sized⟩]
  | .callback resp => [⟨.job, resp.sized⟩]
  | _ => []

/-- The topics after the operation of connection `c`. -/
def posted (c : Connection) (t : Topics) : Op → Topics
  | .effect request (.startStore pack) => t.startStore c request pack
  | .effect request (.startLoad pack) => t.startLoad c request ⟨pack.header, ⟨[]⟩⟩
  | _ => t

/-- The call of the launcher that the operation is. -/
def launcherOf (randomSalt sequence : List.Vector UnitT 4) : Op → Option Launcher.Action
  | .effect _ (.startTriggerPost body) => some (.startTriggerPost randomSalt sequence body)
  | .effect _ (.addWorker _) => some .addWorker
  | .effect _ .startJobs => some .startJobs
  | _ => none

/-- The connection after its operation. -/
def Session.performed (s : Session) (op : Op) : Session :=
  { s with moved := s.moved || moves op, writes := s.writes ++ written op }

/-- Everything that an operation of a handler of connection `c` does. -/
structure Performed (p q : Process) (c : Connection) (randomSalt sequence : List.Vector UnitT 4)
    (op : Op) : Prop where
  topics : q.topics = posted c p.topics op
  owners : q.owners = p.owners ++ if submits op then [c] else []
  launcher : q.launcher = p.launcher ∧ launcherOf randomSalt sequence op = none ∨
    ∃ a, launcherOf randomSalt sequence op = some a ∧ p.launcher.step a = some q.launcher
  completions : q.launcher.log.completions = p.launcher.log.completions
  sessions : ∀ c' : Connection, q.sessions[c']? = p.sessions[c']?.map fun s =>
    if c = c' then s.performed op else s

/-- What an operation posts is a step of the topics, if it posts anything. -/
theorem posted_step (c : Connection) (t : Topics) (op : Op) :
    posted c t op = t ∨ ∃ a, t.step a = some (posted c t op, []) ∧
      (∀ c' request header payload, a = .put c' request header payload → c' = c) ∧
      ∀ c' request header, a = .get c' request header → c' = c := by
  cases op with
  | effect request e =>
    cases e with
    | startStore pack =>
      exact Or.inr ⟨.put c request pack.header pack.data.buf, rfl, by simp +contextual, by simp⟩
    | startLoad pack =>
      exact Or.inr ⟨.get c request pack.header, rfl, by simp, by simp +contextual⟩
    | _ => exact Or.inl rfl
  | _ => exact Or.inl rfl

theorem performed_silent {p q : Process} {c : Connection} {op : Op}
    (hsessions : q.sessions = p.sessions) (hmoves : moves op = false)
    (hwritten : written op = []) (c' : Connection) :
    q.sessions[c']? = p.sessions[c']?.map fun s => if c = c' then s.performed op else s := by
  have hid : ∀ s : Session, (if c = c' then s.performed op else s) = s := by
    intro s
    rw [Session.performed, hmoves, hwritten, Bool.or_false, List.append_nil, ite_self]
  rw [hsessions]
  cases p.sessions[c']? with
  | none => rfl
  | some s => rw [Option.map_some, hid]

theorem performed_wrote {p q : Process} {c : Connection} {op : Op} {w : Write}
    (hw : Wrote p q [(c, w)]) (hmoves : moves op = false) (hwritten : written op = [w])
    (c' : Connection) :
    q.sessions[c']? = p.sessions[c']?.map fun s => if c = c' then s.performed op else s := by
  rw [hw.sessions]
  cases p.sessions[c']? with
  | none => rfl
  | some s =>
    simp only [Option.map_some, Session.wrote, Session.performed, hmoves, hwritten, Bool.or_false]
    by_cases hc : c = c'
    · simp [hc]
    · simp [hc]

theorem performed_of_perform {p q : Process} {c : Connection}
    {randomSalt sequence : List.Vector UnitT 4} {op : Op}
    (h : p.perform c randomSalt sequence op = some q) :
    Performed p q c randomSalt sequence op := by
  cases op with
  | startReadHeader | startReadBody | startTrigger =>
    cases h
    exact ⟨rfl, (List.append_nil _).symm, Or.inl ⟨rfl, rfl⟩, rfl, performed_silent rfl rfl rfl⟩
  | callback resp =>
    have hw := write_some h
    exact ⟨hw.topics, hw.owners.trans (List.append_nil _).symm, Or.inl ⟨hw.launcher, rfl⟩,
      by rw [hw.launcher], performed_wrote hw rfl rfl⟩
  | effect request e =>
    cases e with
    | parsed header =>
      cases h
      exact ⟨rfl, (List.append_nil _).symm, Or.inl ⟨rfl, rfl⟩, rfl, performed_silent rfl rfl rfl⟩
    | startStore pack =>
      cases h
      exact ⟨rfl, (List.append_nil _).symm, Or.inl ⟨rfl, rfl⟩, rfl, performed_silent rfl rfl rfl⟩
    | startLoad pack =>
      cases h
      exact ⟨rfl, (List.append_nil _).symm, Or.inl ⟨rfl, rfl⟩, rfl, performed_silent rfl rfl rfl⟩
    | startWrite resp =>
      have hw := write_some h
      exact ⟨hw.topics, hw.owners.trans (List.append_nil _).symm, Or.inl ⟨hw.launcher, rfl⟩,
        by rw [hw.launcher], performed_wrote hw rfl rfl⟩
    | startTriggerPost body =>
      obtain ⟨q', hlauncher, rfl⟩ := Option.map_eq_some_iff.mp h
      obtain ⟨l, hl, hcompletions, rfl⟩ := stepLauncher_call hlauncher rfl
      exact ⟨rfl, rfl, Or.inr ⟨_, rfl, hl⟩, hcompletions, performed_silent rfl rfl rfl⟩
    | addWorker pack =>
      obtain ⟨q', hlauncher, rfl⟩ := Option.map_eq_some_iff.mp h
      obtain ⟨l, hl, hcompletions, rfl⟩ := stepLauncher_call hlauncher rfl
      refine ⟨rfl, (List.append_nil _).symm, Or.inr ⟨_, rfl, hl⟩, hcompletions, ?_⟩
      intro c'
      simp only [moveSocket, List.getElem?_modify, Session.performed, moves, written,
        Bool.or_true, List.append_nil]
      rfl
    | startJobs =>
      obtain ⟨l, hl, hcompletions, rfl⟩ := stepLauncher_call h rfl
      exact ⟨rfl, (List.append_nil _).symm, Or.inr ⟨_, rfl, hl⟩, hcompletions,
        performed_silent rfl rfl rfl⟩

/-! ## Steps -/

/-- Everything that a step of the process can be. -/
inductive Step (p : Process) : Action → Process → Prop
  | accept : Step p .accept { p with sessions := p.sessions ++ [Session.accepted] }
  | arrive (c : Connection) (chunk : Bytes) (s : Session) (found : p.sessions[c]? = some s) :
      Step p (.arrive c chunk) (p.setSession c { s with loop := s.loop.arrive chunk })
  | complete (c : Connection) (i : Nat) (s : Session) (found : p.sessions[c]? = some s) (r : Read)
      (outstanding : s.loop.reads[i]? = some r) (size : r.size ≤ s.loop.buffer.length) :
      Step p (.complete c i) (p.setSession c { s with
        loop := {
          buffer := s.loop.buffer.drop r.size
          reads := s.loop.reads.eraseIdx i
          handlers := s.loop.handlers ++
            [r.got s.requests.length (s.loop.buffer.take r.size)] }
        requests := record s.requests r (s.loop.buffer.take r.size) })
  | fail (c : Connection) (i : Nat) (s : Session) (found : p.sessions[c]? = some s) (r : Read)
      (outstanding : s.loop.reads[i]? = some r) :
      Step p (.fail c i) (p.setSession c { s with
        loop := { s.loop with
          reads := s.loop.reads.eraseIdx i, handlers := s.loop.handlers ++ [[]] } })
  | next (c : Connection) (k : Nat) (randomSalt sequence : List.Vector UnitT 4) (s : Session)
      (found : p.sessions[c]? = some s) (op : Op) (ops : List Op)
      (code : s.loop.handlers[k]? = some (op :: ops)) (q : Process)
      (performed : Performed (p.setSession c { s with loop := { s.loop with
        reads := s.loop.reads ++ op.start.toList, handlers := s.loop.handlers.set k ops } }) q c
          randomSalt sequence op) :
      Step p (.next c k randomSalt sequence) q
  | topics (a : Topics.Action) (own : topicsPost a = false) (t : Topics)
      (out : List Topics.Output) (step : p.topics.step a = some (t, out)) (q : Process)
      (wrote : Wrote { p with topics := t } q (out.filterMap writeOf)) : Step p (.topics a) q
  | launcher (a : Launcher.Action) (own : launcherCall a = false) (q : Process)
      (step : LauncherStep p a q) : Step p (.launcher a) q

theorem step_cases {p q : Process} {a : Action} (h : p.step a = some q) : Step p a q := by
  unfold step at h
  split at h
  · cases h
  cases a with
  | accept =>
    cases h
    exact .accept
  | arrive c chunk =>
    obtain ⟨s, hs, rfl⟩ := Option.map_eq_some_iff.mp h
    exact .arrive c chunk s hs
  | complete c i =>
    simp only [Option.bind_eq_bind, Option.bind_eq_some_iff] at h
    obtain ⟨s, hs, s', hcomplete, h⟩ := h
    cases h
    simp only [Session.complete, Option.bind_eq_bind, Option.bind_eq_some_iff] at hcomplete
    obtain ⟨r, hr, loop, hloop, hcomplete⟩ := hcomplete
    cases hcomplete
    obtain ⟨r', hr', hsize, rfl⟩ := Loop.complete_some hloop
    rw [hr] at hr'
    cases hr'
    exact .complete c i s hs r hr hsize
  | fail c i =>
    simp only [Option.bind_eq_bind, Option.bind_eq_some_iff] at h
    obtain ⟨s, hs, loop, hloop, h⟩ := h
    cases h
    obtain ⟨r, hr, rfl⟩ := Loop.fail_some hloop
    exact .fail c i s hs r hr
  | next c k randomSalt sequence =>
    simp only [next, Option.bind_eq_bind, Option.bind_eq_some_iff] at h
    obtain ⟨s, hs, ⟨op, loop⟩, hnext, hperform⟩ := h
    obtain ⟨ops, hops, rfl⟩ := Loop.next_some hnext
    exact .next c k randomSalt sequence s hs op ops hops q (performed_of_perform hperform)
  | topics a =>
    simp only at h
    split at h
    · cases h
    · rename_i ha
      obtain ⟨t, out, ht, hwrote⟩ := stepTopics_some h
      exact .topics a (by simpa using ha) t out ht q hwrote
  | launcher a =>
    simp only at h
    split at h
    · cases h
    · rename_i ha
      exact .launcher a (by simpa using ha) q (stepLauncher_some h)

/-! ## One connection -/

/-- The connection whose step it is. -/
def Action.connection? : Action → Option Connection
  | .arrive c _ | .complete c _ | .fail c _ | .next c .. => some c
  | .accept | .topics _ | .launcher _ => none

/-- The jobs that are made and the callbacks that are called are of other connections. -/
structure OthersOnly (p q : Process) (c : Connection) : Prop where
  owners : ∃ made, q.owners = p.owners ++ made ∧ c ∉ made
  completions : ∃ done, q.launcher.log.completions = p.launcher.log.completions ++ done ∧
    ∀ d ∈ done, p.owners[d.callee]? ≠ some c

theorem OthersOnly.of_same {p q : Process} (howners : q.owners = p.owners)
    (hcompletions : q.launcher.log.completions = p.launcher.log.completions) (c : Connection) :
    OthersOnly p q c :=
  ⟨⟨[], howners.trans (List.append_nil _).symm, List.not_mem_nil⟩,
    [], hcompletions.trans (List.append_nil _).symm, List.forall_mem_nil _⟩

theorem OthersOnly.of_callback {p q : Process} {done : Launcher.Completion} {c : Connection}
    (howners : q.owners = p.owners)
    (hcompletions : q.launcher.log.completions = p.launcher.log.completions ++ [done])
    (howner : p.owners[done.callee]? ≠ some c) : OthersOnly p q c := by
  refine ⟨⟨[], howners.trans (List.append_nil _).symm, List.not_mem_nil⟩, [done], hcompletions, ?_⟩
  intro d hd
  rw [List.mem_singleton.mp hd]
  exact howner

/-- What a step of the process is to a connection that was there: a step of another, a step of its
own, the calls of its callback by the topics, or the callback of one of its jobs. -/
inductive SessionStep (p q : Process) (c : Connection) (s : Session) : Action → Session → Prop
  | stays (a : Action) (other : a.connection? ≠ some c) (jobs : OthersOnly p q c) :
      SessionStep p q c s a s
  | arrive (chunk : Bytes) (jobs : OthersOnly p q c) :
      SessionStep p q c s (.arrive c chunk) { s with loop := s.loop.arrive chunk }
  | complete (i : Nat) (r : Read) (outstanding : s.loop.reads[i]? = some r)
      (size : r.size ≤ s.loop.buffer.length) (jobs : OthersOnly p q c) :
      SessionStep p q c s (.complete c i) { s with
        loop := {
          buffer := s.loop.buffer.drop r.size
          reads := s.loop.reads.eraseIdx i
          handlers := s.loop.handlers ++
            [r.got s.requests.length (s.loop.buffer.take r.size)] }
        requests := record s.requests r (s.loop.buffer.take r.size) }
  | fail (i : Nat) (r : Read) (outstanding : s.loop.reads[i]? = some r)
      (jobs : OthersOnly p q c) :
      SessionStep p q c s (.fail c i) { s with
        loop := { s.loop with
          reads := s.loop.reads.eraseIdx i, handlers := s.loop.handlers ++ [[]] } }
  | next (k : Nat) (randomSalt sequence : List.Vector UnitT 4) (op : Op) (ops : List Op)
      (code : s.loop.handlers[k]? = some (op :: ops))
      (performed : Performed (p.setSession c { s with loop := { s.loop with
        reads := s.loop.reads ++ op.start.toList, handlers := s.loop.handlers.set k ops } }) q c
          randomSalt sequence op) :
      SessionStep p q c s (.next c k randomSalt sequence) (Session.performed { s with
        loop := { s.loop with
          reads := s.loop.reads ++ op.start.toList, handlers := s.loop.handlers.set k ops } } op)
  | topics (a : Topics.Action) (out : List Topics.Output)
      (step : p.topics.step a = some (q.topics, out)) (jobs : OthersOnly p q c) :
      SessionStep p q c s (.topics a) (s.wrote (out.filterMap writeOf) c)
  | callback (a : Launcher.Action) (done : Launcher.Completion)
      (owner : p.owners[done.callee]? = some c) (owners : q.owners = p.owners)
      (completions : q.launcher.log.completions = p.launcher.log.completions ++ [done]) :
      SessionStep p q c s (.launcher a) (s.post (callbackCode done.pack))

theorem setSession_cases {p : Process} {c c₀ : Connection} {s s₀ : Session}
    (hs : p.sessions[c]? = some s) (hs₀ : p.sessions[c₀]? = some s₀) (t₀ : Session) :
    (c₀ = c ∧ s₀ = s ∧ (p.setSession c₀ t₀).sessions[c]? = some t₀) ∨
      (some c₀ ≠ some c ∧ (p.setSession c₀ t₀).sessions[c]? = some s) := by
  rw [getElem?_setSession p hs₀]
  by_cases hc : c₀ = c
  · subst hc
    rw [hs] at hs₀
    cases hs₀
    exact Or.inl ⟨rfl, rfl, if_pos rfl⟩
  · exact Or.inr ⟨fun h => hc (Option.some.inj h), (if_neg hc).trans hs⟩

theorem sessionStep {p q : Process} {a : Action} (h : p.step a = some q) {c : Connection}
    {s : Session} (hs : p.sessions[c]? = some s) :
    ∃ t, q.sessions[c]? = some t ∧ SessionStep p q c s a t := by
  have hsame : q.owners = p.owners →
      q.launcher.log.completions = p.launcher.log.completions → OthersOnly p q c :=
    fun howners hcompletions => .of_same howners hcompletions c
  cases step_cases h with
  | accept =>
    obtain ⟨hlt, -⟩ := List.getElem?_eq_some_iff.mp hs
    have hother : Action.connection? .accept ≠ some c := (Option.some_ne_none c).symm
    exact ⟨s, (List.getElem?_append_left hlt).trans hs, .stays _ hother (hsame rfl rfl)⟩
  | arrive c₀ chunk s₀ found =>
    rcases setSession_cases hs found _ with ⟨rfl, rfl, ht⟩ | ⟨hother, ht⟩
    · exact ⟨_, ht, .arrive chunk (hsame rfl rfl)⟩
    · exact ⟨s, ht, .stays _ hother (hsame rfl rfl)⟩
  | complete c₀ i s₀ found r outstanding size =>
    rcases setSession_cases hs found _ with ⟨rfl, rfl, ht⟩ | ⟨hother, ht⟩
    · exact ⟨_, ht, .complete i r outstanding size (hsame rfl rfl)⟩
    · exact ⟨s, ht, .stays _ hother (hsame rfl rfl)⟩
  | fail c₀ i s₀ found r outstanding =>
    rcases setSession_cases hs found _ with ⟨rfl, rfl, ht⟩ | ⟨hother, ht⟩
    · exact ⟨_, ht, .fail i r outstanding (hsame rfl rfl)⟩
    · exact ⟨s, ht, .stays _ hother (hsame rfl rfl)⟩
  | next c₀ k randomSalt sequence s₀ found op ops code q performed =>
    have hperformed := performed.sessions c
    rcases setSession_cases hs found _ with ⟨rfl, rfl, ht⟩ | ⟨hother, ht⟩
    · rw [ht, Option.map_some, if_pos rfl] at hperformed
      exact ⟨_, hperformed, .next k randomSalt sequence op ops code performed⟩
    · have hc : c₀ ≠ c := fun hc => hother (congrArg some hc)
      rw [ht, Option.map_some, if_neg hc] at hperformed
      refine ⟨s, hperformed, .stays _ hother ⟨⟨_, performed.owners, ?_⟩, [], ?_, ?_⟩⟩
      · split
        · exact fun hmem => hc (List.mem_singleton.mp hmem).symm
        · exact List.not_mem_nil
      · exact performed.completions.trans (List.append_nil _).symm
      · exact List.forall_mem_nil _
  | topics a own t out step q wrote =>
    have hwrote := wrote.sessions c
    change q.sessions[c]? = p.sessions[c]?.map _ at hwrote
    rw [hs, Option.map_some] at hwrote
    have hstep : p.topics.step a = some (q.topics, out) := by
      rw [wrote.topics]
      exact step
    exact ⟨_, hwrote, .topics a out hstep (hsame wrote.owners (by rw [wrote.launcher]))⟩
  | launcher a own q step =>
    have hother : (Action.launcher a).connection? ≠ some c := (Option.some_ne_none c).symm
    cases step with
    | silent l step completions => exact ⟨s, hs, .stays _ hother (hsame rfl completions)⟩
    | callback l step done strand completions =>
      obtain ⟨-, hlauncher, howners⟩ := callback_topics { p with launcher := l } done
      have hcompletions : (callback { p with launcher := l } done).launcher.log.completions =
          p.launcher.log.completions ++ [done] := by
        rw [hlauncher]
        exact completions
      have hcallback := getElem?_callback { p with launcher := l } done c
      change _ = p.sessions[c]?.map _ at hcallback
      rw [hs, Option.map_some] at hcallback
      refine ⟨_, hcallback, ?_⟩
      split
      · rename_i howner
        exact .callback a done howner howners hcompletions
      · rename_i howner
        exact .stays _ hother (.of_callback howners hcompletions howner)

/-- A connection stays, and so does it that its socket was given to a worker. -/
theorem session_of_step {p q : Process} {a : Action} (h : p.step a = some q) {c : Connection}
    {s : Session} (hs : p.sessions[c]? = some s) :
    ∃ t, q.sessions[c]? = some t ∧ (s.moved = true → t.moved = true) := by
  obtain ⟨t, ht, hstep⟩ := sessionStep h hs
  refine ⟨t, ht, ?_⟩
  intro hmoved
  cases hstep with
  | next k randomSalt sequence op ops code performed =>
    change (s.moved || moves op) = true
    rw [hmoved, Bool.true_or]
  | _ => exact hmoved

/-- A connection that was not there was just accepted. -/
theorem accepted_of_step {p q : Process} {a : Action} (h : p.step a = some q) {c : Connection}
    (hnone : p.sessions[c]? = none) {s : Session} (hs : q.sessions[c]? = some s) :
    a = .accept ∧ s = Session.accepted := by
  have hset : ∀ {c₀ : Connection} {s₀ t₀ : Session}, p.sessions[c₀]? = some s₀ →
      (p.setSession c₀ t₀).sessions[c]? = none := by
    intro c₀ s₀ t₀ hs₀
    rw [getElem?_setSession p hs₀]
    split
    · rename_i hc
      rw [← hc, hs₀] at hnone
      cases hnone
    · exact hnone
  cases step_cases h with
  | accept =>
    refine ⟨rfl, ?_⟩
    rw [List.getElem?_append_right (List.getElem?_eq_none_iff.mp hnone)] at hs
    exact List.mem_singleton.mp (List.mem_of_getElem? hs)
  | arrive c₀ chunk s₀ found =>
    rw [hset found] at hs
    cases hs
  | complete c₀ i s₀ found =>
    rw [hset found] at hs
    cases hs
  | fail c₀ i s₀ found =>
    rw [hset found] at hs
    cases hs
  | next c₀ k randomSalt sequence s₀ found op ops code q performed =>
    rw [performed.sessions, hset found] at hs
    cases hs
  | topics a own t out step q wrote =>
    rw [wrote.sessions, hnone] at hs
    cases hs
  | launcher a own q step =>
    cases step with
    | silent l step completions =>
      rw [hnone] at hs
      cases hs
    | callback l step done strand completions =>
      rw [getElem?_callback] at hs
      change p.sessions[c]?.map _ = _ at hs
      rw [hnone] at hs
      cases hs

end CppSerializer.Process
