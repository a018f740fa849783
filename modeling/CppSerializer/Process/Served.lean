import CppSerializer.Bucket.Awake
import CppSerializer.Launcher.Rest
import CppSerializer.Process.Reads
import CppSerializer.Process.Replies
import CppSerializer.Process.Rest
import CppSerializer.Process.Triggers
import CppSerializer.Topics.Rest
import CppSerializer.Topics.Sources

/-!
# Everything is served

What is left in the server when it has come to rest. Every handler and every task is done, so
every request that is due a reply has got it; no message waits beside a listener; and every
trigger is with a worker, or queued for one. A step that could be missing is one that would
serialize a packet that is too large, or any after a null pointer was followed.
-/

namespace CppSerializer.Process

open Pack Bucket ReadLoop TcpConnection Transition
open Launcher (JobId)

/-! ## Writes -/

theorem write_isSome {p : Process} {c : Connection} {s : Session} (hs : p.sessions[c]? = some s)
    (origin : Origin) {pack : Packet} (hfits : pack.Fits) : (p.write c origin pack).isSome := by
  obtain ⟨⟨sized, buf⟩, hserialize⟩ :=
    Option.isSome_iff_exists.mp ((Packet.serialize_isSome_iff pack).mpr hfits)
  simp [write, hs, Session.write, hserialize]

/-- The connection that is written to is there, and the packet fits. -/
def Writable (p : Process) (w : Connection × Write) : Prop :=
  (∃ s, p.sessions[w.1]? = some s) ∧ w.2.pack.Fits

theorem Wrote.writable {p q : Process} {ws : List (Connection × Write)} (h : Wrote p q ws)
    {w : Connection × Write} (hw : p.Writable w) : q.Writable w := by
  obtain ⟨⟨s, hs⟩, hfits⟩ := hw
  refine ⟨⟨s.wrote ws w.1, ?_⟩, hfits⟩
  rw [h.sessions, hs]
  rfl

theorem output_isSome {p : Process} {o : Topics.Output}
    (h : ∀ w, writeOf o = some w → p.Writable w) : (p.output o).isSome := by
  cases o with
  | reply self request resp =>
    obtain ⟨⟨s, hs⟩, hfits⟩ := h _ rfl
    exact write_isSome hs (.control request) hfits
  | call listener pack =>
    obtain ⟨⟨s, hs⟩, hfits⟩ := h _ rfl
    exact write_isSome hs .listener hfits
  | post body => rfl

theorem outputs_isSome {out : List Topics.Output} {p : Process}
    (h : ∀ o ∈ out, ∀ w, writeOf o = some w → p.Writable w) : (out.foldlM output p).isSome := by
  induction out generalizing p with
  | nil => rfl
  | cons o out ih =>
    obtain ⟨q, hq⟩ := Option.isSome_iff_exists.mp (output_isSome (h o List.mem_cons_self))
    rw [List.foldlM_cons, hq]
    apply ih
    intro o' ho w hw
    exact (output_some hq).writable (h o' (List.mem_cons_of_mem _ ho) w hw)

/-! ## Connections that are there -/

/-- The slots that are connected belong to connections of the process. -/
def Connected (p : Process) : Prop :=
  ∀ x ∈ p.topics.log.connects, ∃ s, p.sessions[x.listener.connection]? = some s

theorem Connected.step {p q : Process} {a : Action} (hi : Connected p) (hacc : Accounted p)
    (h : p.step a = some q) : Connected q := by
  have hthere : ∀ c : Connection, (∃ s, p.sessions[c]? = some s) →
      ∃ s, q.sessions[c]? = some s := by
    rintro c ⟨s, hs⟩
    obtain ⟨t, ht, -⟩ := session_of_step h hs
    exact ⟨t, ht⟩
  have hkeep : q.topics = p.topics → Connected q := by
    intro htopics x hx
    rw [htopics] at hx
    exact hthere _ (hi x hx)
  have hstep : ∀ {b out}, p.topics.step b = some (q.topics, out) → Connected q := by
    intro b out hb x hx
    rcases (Topics.logs_of_step hb).connects x hx with hold | ⟨task, htask, -, hself, -⟩
    · exact hthere _ (hi x hold)
    · rw [hself]
      exact hthere _ (hacc.selves task htask)
  cases step_cases h with
  | accept | arrive | complete | fail => exact hkeep rfl
  | next c k randomSalt sequence s found op ops code q performed =>
    have htopics : q.topics = posted c p.topics op := performed.topics
    rcases posted_step c p.topics op with hsame | ⟨b, hb, -, -⟩
    · exact hkeep (htopics.trans hsame)
    · rw [← htopics] at hb
      exact hstep hb
  | topics a own t out step q wrote =>
    have htopics : q.topics = t := wrote.topics
    rw [← htopics] at step
    exact hstep step
  | launcher a own q step =>
    cases step with
    | silent l step completions => exact hkeep rfl
    | callback l step done strand completions => exact hkeep (callback_topics _ done).1

theorem run_connected {as : List Action} {p : Process} (hrun : run step init as = some p) :
    Connected p := by
  refine run_induction (P := fun _ p => Connected p) ?_ ?_ as p hrun
  · intro x hx
    cases hx
  · intro as p a q hp ih hq
    exact ih.step (run_accounted hp) hq

/-! ## Steps that are left -/

/-- No packet that is about to be serialized is too large. -/
structure Fits (p : Process) : Prop where
  writes : ∀ (c : Connection) (s : Session), p.sessions[c]? = some s →
    ∀ code ∈ s.loop.handlers, ∀ op ∈ code, ∀ w ∈ written op, w.pack.Fits
  slots : ∀ e ∈ p.topics.entries, ∀ h, e.2.running = some h → h.resp.Fits
  jobs : ∀ job ∈ p.launcher.jobs, job.pack.Fits

/-- The process has no step of its own to take. -/
def AtRest (p : Process) : Prop := ∀ a, p.OwnStep a → p.step a = none

/-- Nothing is left to do: no handler, task or call, and no read that could be complete. -/
structure Idle (p : Process) : Prop where
  handlers : ∀ s ∈ p.sessions, ∀ code ∈ s.loop.handlers, code = []
  reads : ∀ s ∈ p.sessions, ∀ r ∈ s.loop.reads, s.loop.buffer.length < r.size
  tasks : ∀ task ∈ p.topics.tasks, task.code = []
  entries : ∀ e ∈ p.topics.entries, e.2.running = none ∧ e.2.posted = []
  calls : ∀ c ∈ p.launcher.calls, c = .returned
  strand : p.launcher.strand = []
  waited : p.launcher.waited = []

instance (p : Process) : Decidable p.Idle :=
  decidable_of_iff
    ((∀ s ∈ p.sessions, ∀ code ∈ s.loop.handlers, code = []) ∧
      (∀ s ∈ p.sessions, ∀ r ∈ s.loop.reads, s.loop.buffer.length < r.size) ∧
      (∀ task ∈ p.topics.tasks, task.code = []) ∧
      (∀ e ∈ p.topics.entries, e.2.running = none ∧ e.2.posted = []) ∧
      (∀ c ∈ p.launcher.calls, c = .returned) ∧ p.launcher.strand = [] ∧ p.launcher.waited = [])
    ⟨fun ⟨handlers, reads, tasks, entries, calls, strand, waited⟩ =>
      ⟨handlers, reads, tasks, entries, calls, strand, waited⟩,
      fun h => ⟨h.handlers, h.reads, h.tasks, h.entries, h.calls, h.strand, h.waited⟩⟩

/-- Where nothing is left to do, no packet is too large but that of a job. -/
theorem Idle.fits {p : Process} (h : p.Idle) (hjobs : ∀ job ∈ p.launcher.jobs, job.pack.Fits) :
    p.Fits := by
  refine ⟨?_, ?_, hjobs⟩
  · intro c s hs code hcode op hop
    rw [h.handlers s (List.mem_of_getElem? hs) code hcode] at hop
    cases hop
  · intro e he handler hrunning
    rw [(h.entries e he).1] at hrunning
    cases hrunning

theorem Idle.atRest {p : Process} (h : p.Idle) : p.AtRest := by
  intro a ha
  cases hstep : p.step a with
  | none => rfl
  | some q =>
    exfalso
    cases step_cases hstep with
    | accept | arrive | fail => cases ha
    | complete c i s found r outstanding size =>
      have hshort := h.reads s (List.mem_of_getElem? found) r (List.mem_of_getElem? outstanding)
      exact absurd size (Nat.not_le_of_lt hshort)
    | next c k randomSalt sequence s found op ops code =>
      have hdone := h.handlers s (List.mem_of_getElem? found) _ (List.mem_of_getElem? code)
      cases hdone
    | topics a own t out step =>
      cases Topics.step_cases step with
      | put | get => cases own
      | contains i task before | emplace i task before | found i task before
      | startWrite i task before =>
        have hdone := h.tasks _ (List.mem_of_getElem? before)
        cases hdone
      | use i op hop task before =>
        have hdone := h.tasks _ (List.mem_of_getElem? before)
        cases hdone
      | begin r i e entry key idle posted =>
        rw [(h.entries e (List.mem_of_getElem? entry)).2] at posted
        cases posted
      | handler r op e entry handler running =>
        rw [(h.entries e (List.mem_of_getElem? entry)).1] at running
        cases running
    | launcher a own q step =>
      have hlauncher : ∃ l, p.launcher.step a = some l := by
        cases step with
        | silent l step | callback l step => exact ⟨l, step⟩
      obtain ⟨l, hl⟩ := hlauncher
      unfold Launcher.State.step at hl
      split at hl
      · cases hl
      cases a with
      | waited i =>
        change p.launcher.runWaited i = some l at hl
        rw [Launcher.State.runWaited, h.waited] at hl
        cases hl
      | strand i =>
        change p.launcher.runStrand i = some l at hl
        rw [Launcher.State.runStrand, h.strand] at hl
        cases hl
      | call i op =>
        have hreturned : ∀ c, p.launcher.calls[i]? = some c → c = .returned :=
          fun c hc => h.calls c (List.mem_of_getElem? hc)
        cases Launcher.State.stepCall_cases hl with
        | emplace j job call | tryPop held call | look j rest w worker call | repush j call
        | startPost j w job worker call | asyncWait j job call | expiresFromNow j job call =>
          cases hreturned _ call
      | startTriggerPost | addWorker | startJobs | dereg | fail | ack | respond | expire =>
        cases ha.1

theorem step_eq {p : Process} (hcrashed : p.launcher.crashed = false) {a : Launcher.Action}
    (ha : launcherCall a = false) : p.step (.launcher a) = p.stepLauncher a := by
  simp only [step, hcrashed, ha]
  rfl

theorem stepLauncher_isSome {p : Process} {a : Launcher.Action} (h : (p.launcher.step a).isSome) :
    (p.stepLauncher a).isSome := by
  obtain ⟨l, hl⟩ := Option.isSome_iff_exists.mp h
  simp [stepLauncher, hl]

/-- An operation of a handler can be performed. -/
theorem perform_isSome {p : Process} (hcrashed : p.launcher.crashed = false) {c : Connection}
    {s : Session} (hs : p.sessions[c]? = some s) {op : Op}
    (hfits : ∀ w ∈ written op, w.pack.Fits) {randomSalt sequence : List.Vector UnitT 4}
    (hsalt : PacketHeader.Drawable randomSalt) (hsequence : PacketHeader.Drawable sequence) :
    (p.perform c randomSalt sequence op).isSome := by
  cases op with
  | startReadHeader | startReadBody | startTrigger => rfl
  | callback resp => exact write_isSome hs .job (hfits _ (List.mem_singleton_self _))
  | effect request e =>
    cases e with
    | parsed header => rfl
    | startStore pack => rfl
    | startLoad pack => rfl
    | startWrite resp =>
      exact write_isSome hs (.control request) (hfits _ (List.mem_singleton_self _))
    | startTriggerPost body =>
      have hstep := stepLauncher_isSome (p := p)
        (a := .startTriggerPost randomSalt sequence body)
        (by simp [Launcher.State.step, hcrashed, hsalt, hsequence])
      simpa [perform, effect] using hstep
    | addWorker pack =>
      have hstep := stepLauncher_isSome (p := p) (a := .addWorker)
        (by simp [Launcher.State.step, hcrashed])
      simpa [perform, effect] using hstep
    | startJobs =>
      exact stepLauncher_isSome (by simp [Launcher.State.step, hcrashed])

theorem handlers_of_rest {p : Process} (hrest : p.AtRest)
    (hcrashed : p.launcher.crashed = false) (hfits : p.Fits) {c : Connection} {s : Session}
    (hs : p.sessions[c]? = some s) : ∀ code ∈ s.loop.handlers, code = [] := by
  intro code hcode
  by_contra hne
  obtain ⟨op, ops, rfl⟩ := List.exists_cons_of_ne_nil hne
  obtain ⟨k, hk⟩ := List.getElem?_of_mem hcode
  have hdrawable : PacketHeader.Drawable (List.Vector.replicate 4 1) := by
    intro b hb
    rw [List.eq_of_mem_replicate hb]
    decide
  have hnone := hrest (.next c k (List.Vector.replicate 4 1) (List.Vector.replicate 4 1)) trivial
  have hsome : (p.next c k (List.Vector.replicate 4 1) (List.Vector.replicate 4 1)).isSome := by
    have hnext : s.loop.next (program s.requests.length) k = some (op, { s.loop with
        reads := s.loop.reads ++ op.start.toList, handlers := s.loop.handlers.set k ops }) := by
      simp only [Loop.next, hk]
      rfl
    have hfound := getElem?_setSession p hs { s with loop := { s.loop with
      reads := s.loop.reads ++ op.start.toList, handlers := s.loop.handlers.set k ops } } c
    rw [if_pos rfl] at hfound
    have hwritten := hfits.writes c s hs _ hcode op List.mem_cons_self
    simp only [next, hs, hnext, Option.bind_eq_bind, Option.bind_some]
    exact perform_isSome (p := p.setSession c _) hcrashed hfound hwritten hdrawable hdrawable
  simp only [step, hcrashed] at hnone
  change p.next c k _ _ = none at hnone
  rw [hnone] at hsome
  cases hsome

theorem reads_of_rest {p : Process} (hrest : p.AtRest)
    (hcrashed : p.launcher.crashed = false) {c : Connection} {s : Session}
    (hs : p.sessions[c]? = some s) : ∀ r ∈ s.loop.reads, s.loop.buffer.length < r.size := by
  intro r hr
  by_contra hsize
  obtain ⟨i, hi⟩ := List.getElem?_of_mem hr
  have hnone := hrest (.complete c i) trivial
  have hread : (program s.requests.length).size r ≤ s.loop.buffer.length :=
    Nat.le_of_not_lt hsize
  have hcomplete : (s.loop.complete (program s.requests.length) i).isSome := by
    simp only [Loop.complete, hi]
    rw [if_pos hread]
    rfl
  obtain ⟨loop, hloop⟩ := Option.isSome_iff_exists.mp hcomplete
  simp [step, hcrashed, hs, Session.complete, hi, hloop] at hnone

/-- A step of the topics can be taken if all that it writes can be written. -/
theorem topics_of_rest {p : Process} (hrest : p.AtRest)
    (hcrashed : p.launcher.crashed = false) {a : Topics.Action} (hown : topicsPost a = false)
    {t : Topics} {out : List Topics.Output} (hstep : p.topics.step a = some (t, out))
    (hwritable : ∀ o ∈ out, ∀ w, writeOf o = some w → p.Writable w) : False := by
  have hnone := hrest (.topics a) trivial
  have hsome : (p.stepTopics a).isSome := by
    simp only [stepTopics, hstep, Option.bind_eq_bind, Option.bind_some]
    exact outputs_isSome hwritable
  simp only [step, hcrashed, hown] at hnone
  change p.stepTopics a = none at hnone
  rw [hnone] at hsome
  cases hsome

theorem fits_response (pack : Packet) (type : MsgT) : (response pack type).Fits := by
  change 45 + 0 < 2 ^ 32
  decide

theorem tasks_of_rest {p : Process} (hrest : p.AtRest) (hcrashed : p.launcher.crashed = false)
    (hacc : Accounted p) : ∀ task ∈ p.topics.tasks, task.code = [] := by
  intro task htask
  by_contra hne
  obtain ⟨i, hi⟩ := List.getElem?_of_mem htask
  obtain ⟨op, t, out, hstep, hout⟩ := Topics.step_task hacc.isolated hi hne
  refine topics_of_rest hrest hcrashed rfl hstep ?_
  intro o ho w hw
  rcases hout with rfl | rfl
  · cases ho
  · rw [List.mem_singleton.mp ho] at hw
    cases hw
    exact ⟨hacc.selves task htask, fits_response task.pack .ack⟩

theorem entries_of_rest {p : Process} (hrest : p.AtRest) (hcrashed : p.launcher.crashed = false)
    (hacc : Accounted p) (hconnected : Connected p) (hfits : p.Fits) :
    ∀ e ∈ p.topics.entries, e.2.running = none ∧ e.2.posted = [] := by
  intro e he
  obtain ⟨r, hr⟩ := List.getElem?_of_mem he
  have hidle : e.2.running = none := by
    cases hrun : e.2.running with
    | none => rfl
    | some h =>
      exfalso
      obtain ⟨t, out, hstep, hcalled⟩ := Topics.step_handler hr hrun
      refine topics_of_rest hrest hcrashed rfl hstep ?_
      intro o ho w hw
      rcases hcalled o ho with ⟨body, rfl⟩ | ⟨l, pack, rfl, hl, hdata⟩
      · cases hw
      · cases hw
        obtain ⟨header, hconnect⟩ := (hacc.isolated.entries r e hr).listeners l hl
        refine ⟨hconnected _ hconnect, ?_⟩
        have hresp := hfits.slots e he h hrun
        rw [Packet.Fits, ← hdata] at hresp
        exact hresp
  refine ⟨hidle, ?_⟩
  by_contra hposted
  obtain ⟨t, hstep⟩ := Topics.step_begin hr hidle hposted
  exact topics_of_rest hrest hcrashed rfl hstep (by simp)

/-! ## The server at rest -/

/-- Everything that has come in is served, as far as clients and workers have sent it and workers
are there: no handler of a connection, no task and no handler of a bucket is left; the bytes that
came are too few for what is read; every request that is due a reply has got it; no message waits in
a bucket that has a listener or a URL; the bodies of the triggers are with workers, or queued; and
the calls and the handlers of the launcher are done. -/
structure Served (p : Process) (as : List Action) : Prop where
  handlers : ∀ (c : Connection) (s : Session), p.sessions[c]? = some s →
    ∀ code ∈ s.loop.handlers, code = []
  tasks : ∀ task ∈ p.topics.tasks, task.code = []
  buckets : ∀ e ∈ p.topics.entries, e.2.running = none ∧ e.2.posted = []
  reads : ∀ (c : Connection) (s : Session), p.sessions[c]? = some s →
    ∀ r ∈ s.loop.reads, s.loop.buffer.length < r.size
  replies : ∀ (c : Connection) (s : Session), p.sessions[c]? = some s →
    ∀ (n : Nat) (q : Request) (resp : Packet), s.requests[n]? = some q →
      q.reply? = some resp → (n, resp) ∈ s.controls
  messages : ∀ topic, (p.topics.view topic).messageQueue = [] ∨
    ¬ IsTriggerTopic topic ∧ (p.topics.view topic).listeners = []
  triggers : ∀ (c : Connection) (s : Session), p.sessions[c]? = some s →
    (p.launcher.registeredJobs.flatMap (p.jobBody c) ++ p.given c).Perm (triggers c as)
  launcher : (∀ call ∈ p.launcher.calls, call = .returned) ∧ p.launcher.strand = [] ∧
    p.launcher.waited = []

/-- When nothing of the connection is pending, every request that is due a reply has got it. -/
theorem controls_of_settled {as : List Action} {p : Process} (hrun : run step init as = some p)
    {c : Connection} {s : Session} (hs : p.sessions[c]? = some s) (hsettled : p.Settled c s)
    {n : Nat} {q : Request} {resp : Packet} (hq : s.requests[n]? = some q)
    (hreply : q.reply? = some resp) : (n, resp) ∈ s.controls := by
  have hsound := (run_accounted hrun).sound c s hs
  obtain ⟨item, hitem, hn⟩ := List.mem_map.mp (hsound.due n q resp hq hreply)
  have hfits := hsound.fits item hitem
  rcases items_of_settled hsettled hitem with ⟨n', h, rfl⟩ | ⟨n', resp', rfl, hcontrol⟩
  · -- a put whose body was not read is due nothing
    change n' = n at hn
    subst hn
    obtain ⟨hrequest, htype⟩ := hfits
    change s.requests[n']? = _ at hrequest
    rw [hq] at hrequest
    cases hrequest
    rw [Request.reply?, htype] at hreply
    cases hreply
  · change n' = n at hn
    subst hn
    obtain ⟨q', hq', hreply', -⟩ := hfits
    change s.requests[n']? = _ at hq'
    rw [hq] at hq'
    cases hq'
    rw [hreply] at hreply'
    cases hreply'
    exact hcontrol

/-- A bucket without handlers and tasks has no message for anybody who is there. -/
theorem messages_of_rest {as : List Action} {p : Process} (hrun : run step init as = some p)
    (htasks : ∀ task ∈ p.topics.tasks, task.code = [])
    (hentries : ∀ e ∈ p.topics.entries, e.2.running = none ∧ e.2.posted = []) (topic : Topic) :
    (p.topics.view topic).messageQueue = [] ∨
      ¬ IsTriggerTopic topic ∧ (p.topics.view topic).listeners = [] := by
  obtain ⟨bs, s, hbs, hview⟩ := run_bucket hrun topic
  have hawake := run_awake hbs
  rw [hview] at hawake
  have hidle : (p.topics.bucketOf topic).running = none ∧
      (p.topics.bucketOf topic).posted = [] := by
    rw [Topics.bucketOf]
    split
    · rename_i e hfind
      exact hentries e (List.mem_of_find?_eq_some hfind)
    · exact ⟨rfl, rfl⟩
  have hwaiting : ¬ Waiting topic (p.topics.view topic) := by
    intro hw
    rcases hawake.attended hw with hposted | hrunning | ⟨task, htask, hbetween⟩
    · exact hposted hidle.2
    · exact hrunning hidle.1
    · obtain ⟨full, hfull, rfl⟩ := List.mem_map.mp htask
      have hdone := htasks full (List.mem_filter.mp hfull).1
      rw [between_iff, hdone] at hbetween
      simp at hbetween
  by_cases hqueue : (p.topics.view topic).messageQueue = []
  · exact Or.inl hqueue
  · refine Or.inr ⟨fun htrigger => hwaiting ⟨hqueue, Or.inl htrigger⟩, ?_⟩
    by_contra hlisteners
    exact hwaiting ⟨hqueue, Or.inr hlisteners⟩

theorem served_of_rest {as : List Action} {p : Process} (hrun : run step init as = some p)
    (hrest : p.AtRest) (hcrashed : p.launcher.crashed = false) (hfits : p.Fits) :
    p.Served as := by
  have hacc := run_accounted hrun
  have htasks := tasks_of_rest hrest hcrashed hacc
  have hentries := entries_of_rest hrest hcrashed hacc (run_connected hrun) hfits
  have hhandlers : ∀ (c : Connection) (s : Session), p.sessions[c]? = some s →
      ∀ code ∈ s.loop.handlers, code = [] := fun c s hs =>
    handlers_of_rest hrest hcrashed hfits hs
  obtain ⟨ls, hls, -⟩ := run_launcher (G := fun _ _ => True) (fun _ _ _ => trivial) hrun
    fun _ _ _ _ _ _ _ _ => trivial
  have hlauncher := Launcher.returned_of_rest hls hcrashed hfits.jobs (by
    intro a ha hlooks
    have hnone := hrest (.launcher a) ⟨ha, hlooks⟩
    have hown : launcherCall a = false := by
      cases a with
      | call => rfl
      | strand => rfl
      | waited => rfl
      | _ => cases ha
    rw [step_eq hcrashed hown] at hnone
    by_contra hsome
    have hstep := stepLauncher_isSome (Option.isSome_iff_ne_none.mpr hsome)
    rw [hnone] at hstep
    cases hstep)
  refine ⟨hhandlers, htasks, hentries, fun c s hs => reads_of_rest hrest hcrashed hs, ?_,
    messages_of_rest hrun htasks hentries, ?_, hlauncher⟩
  · intro c s hs n q resp hq hreply
    exact controls_of_settled hrun hs ⟨hhandlers c s hs, fun task htask _ => htasks task htask⟩
      hq hreply
  · intro c s hs
    have hbodies := bodies_perm hrun hls hs
    have hleft : s.left bodyOf = [] := by
      rw [Session.left, List.flatMap_eq_nil_iff]
      intro code hcode
      rw [hhandlers c s hs code hcode]
      rfl
    have hpopped : p.launcher.calls.flatMap Launcher.Call.popped = [] := by
      rw [List.flatMap_eq_nil_iff]
      intro call hcall
      rw [hlauncher.1 call hcall]
      rfl
    rw [hleft, hpopped, List.nil_append, List.flatMap_nil, List.append_nil] at hbodies
    exact hbodies

/-- From every state of a run the server comes, by a bounded number of steps of its own, to a
state where it has none left to take; and however its steps interleave, everything is served then,
unless a null pointer was followed or a packet is too large to be serialized. Steps in which a
search for a worker looks at one that was added after it began are not among them. -/
theorem comes_to_be_served {as : List Action} {p : Process} (hrun : run step init as = some p) :
    (∃ bs q, run step p bs = some q ∧ Guarded step OwnStep p bs ∧ bs.length ≤ p.work ∧ q.AtRest) ∧
    ∀ bs q, run step p bs = some q → Guarded step OwnStep p bs → q.AtRest →
      q.launcher.crashed = false → q.Fits → q.Served (as ++ bs) := by
  have huses := ownSteps_use p.capacity
  constructor
  · obtain ⟨bs, q, hq, hown, hrest⟩ := huses.exists_rest (Nat.le_refl _)
    have hle := (huses.length_le_work (Nat.le_refl _) hq hown).2
    refine ⟨bs, q, hq, hown, ?_, hrest⟩
    rw [work]
    omega
  · intro bs q hq _ hrest hcrashed hfits
    refine served_of_rest ?_ hrest hcrashed hfits
    rw [run_append, hrun]
    exact hq

/-- The put of `pipelinedRun` is left with its handler, which finds no listener. -/
def servedRun : List Action := [.topics (.begin 0 0), .topics (.handler 0 .listenerEmpty)]

theorem servedRun_end : ((run step init (pipelinedRun ++ servedRun)).map fun p =>
    (decide p.Idle, p.launcher.crashed, p.launcher.jobs)) = some (true, false, []) := by
  decide +kernel

theorem comes_to_be_served_servedRun : ∃ p q, run step init pipelinedRun = some p ∧
    run step p servedRun = some q ∧ q.AtRest ∧ q.Served (pipelinedRun ++ servedRun) := by
  obtain ⟨q, hq, hend⟩ := Option.map_eq_some_iff.mp servedRun_end
  simp only [Prod.mk.injEq, decide_eq_true_eq] at hend
  obtain ⟨hidle, hcrashed, hjobs⟩ := hend
  obtain ⟨p, hp, hrest⟩ := run_append_some hq
  have hown : Guarded step OwnStep p servedRun := by
    apply guarded_of_forall
    intro a ha _
    simp only [servedRun, List.mem_cons, List.not_mem_nil, or_false] at ha
    rcases ha with rfl | rfl <;> exact trivial
  have hfits := hidle.fits (by rw [hjobs]; exact List.forall_mem_nil _)
  obtain ⟨-, hserved⟩ := comes_to_be_served hp
  exact ⟨p, q, hp, hrest, hidle.atRest, hserved _ q hrest hown hidle.atRest hcrashed hfits⟩

end CppSerializer.Process
