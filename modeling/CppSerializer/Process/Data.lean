import CppSerializer.Process.Replies
import CppSerializer.Topics.Sources

/-!
# Data that clients are sent

Where the data that a bucket hands to a client comes from. The client has sent a get for the topic
of the data, and some client has sent a put for this topic with just this body (`data_delivered`).
What is in the handlers, the tasks and the buckets is traced back to requests that connections have
parsed; requests stay, so nothing of it loses its source.
-/

namespace CppSerializer.Process

open Pack Bucket ReadLoop TcpConnection Transition

/-! ## Requests -/

/-- The client has sent a get with the header. -/
def Asked (p : Process) (c : Connection) (h : PacketHeader) : Prop :=
  h.type = .get ∧ ∃ s, p.sessions[c]? = some s ∧ ∃ q ∈ s.requests, q.header = h

/-- Some client has sent the put. -/
def Sent (p : Process) (pack : Packet) : Prop :=
  pack.header.type = .put ∧
    ∃ (c : Connection) (s : Session), p.sessions[c]? = some s ∧
      ⟨pack.header, some pack.data.buf⟩ ∈ s.requests

/-- Requests stay, with the bodies that they have. -/
structure Keeps (before after : List Request) : Prop where
  headers : ∀ q ∈ before, ∃ q' ∈ after, q'.header = q.header
  bodies : ∀ q ∈ before, q.body.isSome → q ∈ after

theorem keeps_refl (requests : List Request) : Keeps requests requests :=
  ⟨fun q hq => ⟨q, hq, rfl⟩, fun _ hq _ => hq⟩

/-- A body is noted for a request that has none. -/
theorem keeps_record (requests : List Request) (r : Read) (buf : Bytes)
    (hbody : ∀ n pack, r = .body n pack → requests[n]? = some ⟨pack.header, none⟩) :
    Keeps requests (record requests r buf) := by
  cases r with
  | header =>
    rw [record]
    split
    · exact ⟨fun q hq => ⟨q, List.mem_append_left _ hq, rfl⟩,
        fun _ hq _ => List.mem_append_left _ hq⟩
    · exact keeps_refl requests
  | body n pack =>
    have hnone := hbody n pack rfl
    have hat : ∀ {m : Nat} {q : Request}, requests[m]? = some q → m ≠ n →
        (record requests (.body n pack) buf)[m]? = some q := by
      intro m q hq hm
      simp [record, hq, Ne.symm hm]
    constructor
    · intro q hq
      obtain ⟨m, hm⟩ := List.getElem?_of_mem hq
      by_cases hmn : m = n
      · subst hmn
        rw [hnone] at hm
        cases hm
        refine ⟨⟨pack.header, some buf⟩, List.mem_of_getElem? (i := m) ?_, rfl⟩
        simp [record, hnone]
      · exact ⟨q, List.mem_of_getElem? (hat hm hmn), rfl⟩
    · intro q hq hsome
      obtain ⟨m, hm⟩ := List.getElem?_of_mem hq
      by_cases hmn : m = n
      · subst hmn
        rw [hnone] at hm
        cases hm
        cases hsome
      · exact List.mem_of_getElem? (hat hm hmn)
  | trigger n pack => exact keeps_refl requests

theorem awaits_of_read {p : Process} (hacc : Accounted p) {c : Connection} {s : Session}
    (hs : p.sessions[c]? = some s) {r : Read} (hr : r ∈ s.loop.reads) (n : Nat) (pack : Packet)
    (he : r = .body n pack) : s.requests[n]? = some ⟨pack.header, none⟩ := by
  subst he
  have hitem : Item.awaits n pack.header ∈ p.items c s := by
    rw [items, List.mem_append, List.mem_append, List.mem_append]
    exact Or.inl (Or.inl (Or.inl (List.mem_flatMap.mpr ⟨_, hr, List.mem_singleton_self _⟩)))
  exact ((hacc.sound c s hs).fits _ hitem).1

theorem requests_of_step {p q : Process} {a : Action} (h : p.step a = some q)
    (hacc : Accounted p) {c : Connection} {s : Session} (hs : p.sessions[c]? = some s) :
    ∃ t, q.sessions[c]? = some t ∧ Keeps s.requests t.requests := by
  obtain ⟨t, ht, hstep⟩ := sessionStep h hs
  refine ⟨t, ht, ?_⟩
  cases hstep with
  | complete i r outstanding size jobs =>
    exact keeps_record _ _ _ (awaits_of_read hacc hs (List.mem_of_getElem? outstanding))
  | _ => exact keeps_refl _

section Steps

variable {p q : Process} {a : Action}

theorem Asked.step {c : Connection} {h : PacketHeader} (hasked : p.Asked c h)
    (hstep : p.step a = some q) (hacc : Accounted p) : q.Asked c h := by
  obtain ⟨htype, s, hs, r, hr, rfl⟩ := hasked
  obtain ⟨t, ht, hkeeps⟩ := requests_of_step hstep hacc hs
  obtain ⟨r', hr', hheader⟩ := hkeeps.headers r hr
  exact ⟨htype, t, ht, r', hr', hheader⟩

theorem Sent.step {pack : Packet} (hsent : p.Sent pack) (hstep : p.step a = some q)
    (hacc : Accounted p) : q.Sent pack := by
  obtain ⟨htype, c, s, hs, hr⟩ := hsent
  obtain ⟨t, ht, hkeeps⟩ := requests_of_step hstep hacc hs
  exact ⟨htype, c, t, ht, hkeeps.bodies _ hr rfl⟩

end Steps

/-! ## Where things come from -/

/-- A handler loads for the get that it has parsed. -/
theorem load_got {requests : List Request} {r : Read} {buf : Bytes} {n : Nat} {pack : Packet}
    (h : .effect n (.startLoad pack) ∈ r.got requests.length buf) :
    pack.header.type = .get ∧ ∃ q ∈ record requests r buf, q.header = pack.header := by
  cases r with
  | header =>
    rw [Read.got] at h
    rw [record]
    cases hparse : PacketHeader.parse buf 0 with
    | none =>
      rw [hparse] at h
      cases h
    | some header =>
      rw [hparse] at h
      obtain ⟨type, key, datasize, sequence, randomSalt⟩ := header
      cases type <;> simp [headerCode] at h
      obtain ⟨-, rfl⟩ := h
      exact ⟨rfl, _, List.mem_append_right _ (List.mem_singleton_self _), rfl⟩
  | body m pack' =>
    rw [Read.got] at h
    split at h <;> simp at h
  | trigger m pack' => simp [Read.got] at h

/-- What is on its way to a client, and what has come, can be traced to requests. -/
structure Sourced (p : Process) : Prop where
  loads : ∀ (c : Connection) (s : Session), p.sessions[c]? = some s →
    ∀ code ∈ s.loop.handlers, ∀ n pack, .effect n (.startLoad pack) ∈ code → p.Asked c pack.header
  puts : ∀ pack ∈ p.topics.log.puts, p.Sent pack
  tasks : ∀ task ∈ p.topics.tasks, .getConnect ∈ task.code → p.Asked task.self task.pack.header
  connects : ∀ x ∈ p.topics.log.connects, p.Asked x.listener.connection x.header
  writes : ∀ (c : Connection) (s : Session), p.sessions[c]? = some s →
    ∀ w ∈ s.writes, w.origin = .listener →
      ∃ x ∈ p.topics.log.handed, x.listener.connection = c ∧ w.pack = x.sent

/-- What a step does to the topics is one of their steps, and a put or a get is one that a handler
has started. -/
theorem topics_source {p q : Process} {a : Action} (h : p.step a = some q) :
    q.topics = p.topics ∨ ∃ b out, p.topics.step b = some (q.topics, out) ∧
      (∀ self request header payload, b = .put self request header payload →
        ∃ s code, p.sessions[self]? = some s ∧ code ∈ s.loop.handlers ∧
          .effect request (.startStore ⟨header, ⟨payload⟩⟩) ∈ code) ∧
      ∀ self request header, b = .get self request header →
        ∃ s code pack, p.sessions[self]? = some s ∧ code ∈ s.loop.handlers ∧
          .effect request (.startLoad pack) ∈ code ∧ pack.header = header := by
  cases step_cases h with
  | accept | arrive | complete | fail => exact Or.inl rfl
  | next c k randomSalt sequence s found op ops code q performed =>
    have htopics : q.topics = posted c p.topics op := performed.topics
    have hmem := List.mem_of_getElem? code
    cases op with
    | effect request e =>
      cases e with
      | startStore pack =>
        refine Or.inr ⟨.put c request pack.header pack.data.buf, [], by rw [htopics]; rfl, ?_, ?_⟩
        · rintro self request' header payload ⟨⟩
          exact ⟨s, _, found, hmem, List.mem_cons_self⟩
        · rintro self request' header ⟨⟩
      | startLoad pack =>
        refine Or.inr ⟨.get c request pack.header, [], by rw [htopics]; rfl, ?_, ?_⟩
        · rintro self request' header payload ⟨⟩
        · rintro self request' header ⟨⟩
          exact ⟨s, _, pack, found, hmem, List.mem_cons_self, rfl⟩
      | _ => exact Or.inl htopics
    | _ => exact Or.inl htopics
  | topics a own t out step q wrote =>
    have htopics : q.topics = t := wrote.topics
    refine Or.inr ⟨a, out, by rw [htopics]; exact step, ?_, ?_⟩
    · rintro self request header payload rfl
      cases own
    · rintro self request header rfl
      cases own
  | launcher a own q step =>
    cases step with
    | silent l step completions => exact Or.inl rfl
    | callback l step done strand completions => exact Or.inl (callback_topics _ done).1

/-- The gets and the data of a connection after a step are old, or the step shows their source. -/
structure Added (p q : Process) (c : Connection) (t : Session) : Prop where
  loads : ∀ code ∈ t.loop.handlers, ∀ n pack, .effect n (.startLoad pack) ∈ code →
    (∃ s code', p.sessions[c]? = some s ∧ code' ∈ s.loop.handlers ∧
      .effect n (.startLoad pack) ∈ code') ∨
    pack.header.type = .get ∧ ∃ r ∈ t.requests, r.header = pack.header
  writes : ∀ w ∈ t.writes, w.origin = .listener →
    (∃ s, p.sessions[c]? = some s ∧ w ∈ s.writes) ∨
    ∃ x ∈ q.topics.log.handed, x.listener.connection = c ∧ w.pack = x.sent

section Added

variable {p q : Process} {c : Connection} {s t : Session}

theorem added_of_session (hs : p.sessions[c]? = some s)
    (hloads : ∀ code ∈ t.loop.handlers, ∀ n pack, .effect n (.startLoad pack) ∈ code →
      ∃ code' ∈ s.loop.handlers, .effect n (.startLoad pack) ∈ code')
    (hwrites : ∀ w ∈ t.writes, w.origin = .listener → w ∈ s.writes) : Added p q c t := by
  refine ⟨?_, fun w hw horigin => Or.inl ⟨s, hs, hwrites w hw horigin⟩⟩
  intro code hcode n pack hop
  obtain ⟨code', hcode', hop'⟩ := hloads code hcode n pack hop
  exact Or.inl ⟨s, code', hs, hcode', hop'⟩

/-- A handler is posted that loads nothing. -/
theorem added_posted (hs : p.sessions[c]? = some s) {code : List Op}
    (hhandlers : t.loop.handlers = s.loop.handlers ++ [code])
    (hcode : ∀ n pack, .effect n (.startLoad pack) ∉ code) (hwrites : t.writes = s.writes) :
    Added p q c t := by
  refine added_of_session hs ?_ fun w hw _ => hwrites ▸ hw
  intro code' hcode' n pack hop
  rw [hhandlers] at hcode'
  rcases List.mem_append.mp hcode' with hmem | hnew
  · exact ⟨code', hmem, hop⟩
  · rw [List.mem_singleton.mp hnew] at hop
    exact absurd hop (hcode n pack)

/-- Who loads, after a read is complete, has parsed a get. -/
theorem added_complete (hs : p.sessions[c]? = some s) (i : Nat) (r : Read) :
    Added p q c { s with
      loop := {
        buffer := s.loop.buffer.drop r.size
        reads := s.loop.reads.eraseIdx i
        handlers := s.loop.handlers ++ [r.got s.requests.length (s.loop.buffer.take r.size)] }
      requests := record s.requests r (s.loop.buffer.take r.size) } := by
  refine ⟨?_, fun w hw _ => Or.inl ⟨s, hs, hw⟩⟩
  intro code hcode n pack hop
  rcases List.mem_append.mp hcode with hmem | hnew
  · exact Or.inl ⟨s, code, hs, hmem, hop⟩
  · rw [List.mem_singleton.mp hnew] at hop
    exact Or.inr (load_got hop)

/-- What an operation of a handler writes is no data of a bucket. -/
theorem origin_written {op : Op} {w : Write} (h : w ∈ written op) : w.origin ≠ .listener := by
  cases op with
  | effect request e =>
    cases e with
    | startWrite resp =>
      rw [List.mem_singleton.mp h]
      exact Origin.noConfusion
    | _ => cases h
  | callback resp =>
    rw [List.mem_singleton.mp h]
    exact Origin.noConfusion
  | _ => cases h

/-- Data is written for a listener that the topics have called. -/
theorem added_wrote (hs : p.sessions[c]? = some s) {a : Topics.Action}
    {out : List Topics.Output} (hstep : p.topics.step a = some (q.topics, out)) :
    Added p q c (s.wrote (out.filterMap writeOf) c) := by
  refine ⟨fun code hcode n pack hop => Or.inl ⟨s, code, hs, hcode, hop⟩, ?_⟩
  intro w hw horigin
  rcases List.mem_append.mp hw with hmem | hnew
  · exact Or.inl ⟨s, hs, hmem⟩
  · right
    obtain ⟨⟨c', w'⟩, hout, rfl⟩ := List.mem_map.mp hnew
    obtain ⟨hout, hc⟩ := List.mem_filter.mp hout
    obtain ⟨o, ho, hmade⟩ := List.mem_filterMap.mp hout
    cases o with
    | reply self request resp =>
      cases hmade
      cases horigin
    | call listener pack =>
      cases hmade
      obtain ⟨x, hx, rfl, rfl⟩ := (Topics.logs_of_step hstep).called _ _ ho
      exact ⟨x, hx, of_decide_eq_true hc, rfl⟩
    | post body => cases hmade

theorem SessionStep.added {a : Action} (h : SessionStep p q c s a t)
    (hs : p.sessions[c]? = some s) : Added p q c t := by
  cases h with
  | stays | arrive =>
    exact added_of_session hs (fun code hcode _ _ hop => ⟨code, hcode, hop⟩) fun _ hw _ => hw
  | complete i r outstanding size jobs => exact added_complete hs i r
  | fail i r outstanding jobs =>
    exact added_posted hs rfl (fun _ _ => List.not_mem_nil) rfl
  | next k randomSalt sequence op ops code performed =>
    refine added_of_session hs ?_ ?_
    · intro code' hcode' n pack hop
      rcases List.mem_or_eq_of_mem_set hcode' with hmem | rfl
      · exact ⟨code', hmem, hop⟩
      · exact ⟨_, List.mem_of_getElem? code, List.mem_cons_of_mem _ hop⟩
    · intro w hw horigin
      rcases List.mem_append.mp hw with hmem | hnew
      · exact hmem
      · exact absurd horigin (origin_written hnew)
  | topics a out step jobs => exact added_wrote hs step
  | callback a done owner owners completions =>
    exact added_posted hs rfl (fun _ _ => by simp [callbackCode]) rfl

theorem added_of_step {a : Action} (h : p.step a = some q) (ht : q.sessions[c]? = some t) :
    Added p q c t := by
  cases hs : p.sessions[c]? with
  | none =>
    obtain ⟨-, rfl⟩ := accepted_of_step h hs ht
    refine ⟨?_, ?_⟩
    · intro code hcode
      cases hcode
    · intro w hw
      cases hw
  | some s =>
    obtain ⟨t', ht', hstep⟩ := sessionStep h hs
    rw [ht] at ht'
    cases ht'
    exact hstep.added hs

end Added

theorem stores_of_handler {p : Process} (hacc : Accounted p) {c : Connection} {s : Session}
    (hs : p.sessions[c]? = some s) {code : List Op} (hcode : code ∈ s.loop.handlers) {n : Nat}
    {pack : Packet} (hop : .effect n (.startStore pack) ∈ code) : p.Sent pack := by
  have hitem : Item.stores n pack ∈ p.items c s := by
    rw [items, List.mem_append, List.mem_append, List.mem_append]
    refine Or.inl (Or.inl (Or.inr (List.mem_flatMap.mpr ⟨code, hcode, ?_⟩)))
    exact List.mem_flatMap.mpr ⟨_, hop, List.mem_singleton_self _⟩
  obtain ⟨hrequest, htype⟩ := (hacc.sound c s hs).fits _ hitem
  exact ⟨htype, c, s, hs, List.mem_of_getElem? hrequest⟩

theorem Sourced.step {p q : Process} {a : Action} (hi : Sourced p) (h : p.step a = some q)
    (hacc : Accounted p) : Sourced q := by
  have hadded : ∀ (c : Connection) (t : Session), q.sessions[c]? = some t → Added p q c t :=
    fun c t ht => added_of_step h ht
  have hasked : ∀ {c : Connection} {header : PacketHeader}, p.Asked c header → q.Asked c header :=
    fun hold => hold.step h hacc
  have hsent : ∀ {pack : Packet}, p.Sent pack → q.Sent pack := fun hold => hold.step h hacc
  have hloads : ∀ (c : Connection) (t : Session), q.sessions[c]? = some t →
      ∀ code ∈ t.loop.handlers, ∀ n pack, .effect n (.startLoad pack) ∈ code →
        q.Asked c pack.header := by
    intro c t ht code hcode n pack hop
    rcases (hadded c t ht).loads code hcode n pack hop with
      ⟨s, code', hs, hcode', hop'⟩ | ⟨htype, r, hr, hheader⟩
    · exact hasked (hi.loads c s hs code' hcode' n pack hop')
    · exact ⟨htype, t, ht, r, hr, hheader⟩
  have hwrites : (∀ x ∈ p.topics.log.handed, x ∈ q.topics.log.handed) →
      ∀ (c : Connection) (t : Session), q.sessions[c]? = some t →
        ∀ w ∈ t.writes, w.origin = .listener →
          ∃ x ∈ q.topics.log.handed, x.listener.connection = c ∧ w.pack = x.sent := by
    intro hhanded c t ht w hw horigin
    rcases (hadded c t ht).writes w hw horigin with ⟨s, hs, hold⟩ | hnew
    · obtain ⟨x, hx, hrest⟩ := hi.writes c s hs w hold horigin
      exact ⟨x, hhanded x hx, hrest⟩
    · exact hnew
  rcases topics_source h with htopics | ⟨b, out, hb, hput, hget⟩
  · refine ⟨hloads, ?_, ?_, ?_, hwrites fun x hx => htopics ▸ hx⟩
    · intro pack hpack
      exact hsent (hi.puts pack (htopics ▸ hpack))
    · intro task htask hconnect
      exact hasked (hi.tasks task (htopics ▸ htask) hconnect)
    · intro x hx
      exact hasked (hi.connects x (htopics ▸ hx))
  · have hlogs := Topics.logs_of_step hb
    refine ⟨hloads, ?_, ?_, ?_, hwrites hlogs.handed⟩
    · intro pack hpack
      rcases hlogs.puts pack hpack with hold | ⟨self, request, rfl⟩
      · exact hsent (hi.puts pack hold)
      · obtain ⟨s, code, hs, hcode, hop⟩ := hput _ _ _ _ rfl
        exact hsent (stores_of_handler hacc hs hcode hop)
    · intro task htask hconnect
      rcases Topics.listens_of_step hb task htask hconnect with
        ⟨task', htask', hconnect', hself, hpack⟩ | ⟨request, rfl⟩
      · have hold := hi.tasks task' htask' hconnect'
        rw [hself, hpack] at hold
        exact hasked hold
      · obtain ⟨s, code, pack, hs, hcode, hop, hheader⟩ := hget _ _ _ rfl
        have hold := hi.loads _ s hs code hcode request pack hop
        rw [hheader] at hold
        exact hasked hold
    · intro x hx
      rcases hlogs.connects x hx with hold | ⟨task, htask, hconnect, hself, hheader⟩
      · exact hasked (hi.connects x hold)
      · rw [hself, hheader]
        exact hasked (hi.tasks task htask hconnect)

theorem run_sourced {as : List Action} {p : Process} (hrun : run step init as = some p) :
    Sourced p := by
  refine run_induction (P := fun _ p => Sourced p) ?_ ?_ as p hrun
  · constructor <;> simp [init, Topics.init]
  · intro as p a q hp ih hq
    exact ih.step hq (run_accounted hp)

/-- What a slot has written to a connection, a bucket has handed to a listener of it. -/
theorem handed_of_write {as : List Action} {p : Process} (hrun : run step init as = some p)
    {c : Connection} {s : Session} (hs : p.sessions[c]? = some s) {w : Write} (hw : w ∈ s.writes)
    (horigin : w.origin = .listener) : ∃ x ∈ p.topics.log.handed, w.pack = x.sent ∧
      ∃ q ∈ s.requests, q.header.type = .get ∧ q.header.topic = x.pack.header.topic := by
  have hsourced := run_sourced hrun
  have hisolated := (run_accounted hrun).isolated
  obtain ⟨x, hx, hc, hpack⟩ := hsourced.writes c s hs w hw horigin
  obtain ⟨⟨header, hconnect⟩, ⟨e, he, hentry⟩, -⟩ := hisolated.handed x hx
  obtain ⟨e', he', hentry'⟩ := hisolated.connects _ hconnect
  rw [he] at he'
  cases he'
  obtain ⟨htype, s', hs', q, hq, rfl⟩ := hsourced.connects _ hconnect
  rw [hc, hs] at hs'
  cases hs'
  exact ⟨x, hx, hpack, q, hq, htype, hentry'.symm.trans hentry⟩

/-- The data that the slot of a get has written to a connection, with a key and a salt, is the body
of a put with this key and salt that some client has sent, and the client of the connection has
sent a get with them. -/
theorem data_delivered {as : List Action} {p : Process} (hrun : run step init as = some p) :
    ∀ (c : Connection) (s : Session), p.sessions[c]? = some s →
      ∀ w ∈ s.writes, w.origin = .listener →
        (∃ q ∈ s.requests, q.header.type = .get ∧ q.header.topic = w.pack.header.topic) ∧
        ∃ (c' : Connection) (s' : Session), p.sessions[c']? = some s' ∧
          ∃ q ∈ s'.requests, q.header.type = .put ∧ q.header.topic = w.pack.header.topic ∧
            q.body = some w.pack.data.buf := by
  intro c s hs w hw horigin
  obtain ⟨x, hx, hpack, hget⟩ := handed_of_write hrun hs hw horigin
  obtain ⟨-, -, pack, hput, htopic, hdata⟩ := (run_accounted hrun).isolated.handed x hx
  have hwire : w.pack.header.topic = x.pack.header.topic := by
    rw [hpack]
    rfl
  rw [hwire]
  refine ⟨hget, ?_⟩
  obtain ⟨htype, c', s', hs', hq⟩ := (run_sourced hrun).puts pack hput
  refine ⟨c', s', hs', _, hq, htype, htopic, ?_⟩
  rw [hpack, Topics.Handed.sent, Packet.sized_data, hdata]

/-- A client puts a byte, and another one gets it. -/
def deliveredRun : List Action :=
  let draw := List.Vector.replicate 4 1
  [.accept, .accept,
    .arrive 0 ((pipelinedHeader .put 1 1).bytes ++ [65]), .complete 0 0, .next 0 0 draw draw,
    .complete 0 0, .next 0 1 draw draw,
    .arrive 1 (pipelinedHeader .get 2 0).bytes, .complete 1 0, .next 1 0 draw draw] ++
  [.task 0 .contains, .task 0 .emplace, .task 0 .at, .task 1 .contains, .task 1 .at,
    .task 1 .getConnect, .task 0 .pushMessage, .task 0 .startHandleEvents, .begin 0 0,
    .handler 0 .listenerEmpty, .handler 0 .queueEmpty, .handler 0 .tryPop,
    .handler 0 .emit].map Action.topics

theorem deliveredRun_end : ((run step init deliveredRun).bind fun p =>
    p.sessions[1]?.map fun s => s.writes.map fun w => (w.origin, w.pack.data.buf)) =
      some [(.listener, [65])] := by
  decide +kernel

theorem data_delivered_deliveredRun : ∃ p s, run step init deliveredRun = some p ∧
    p.sessions[1]? = some s ∧
    s.writes.map (fun w => (w.origin, w.pack.data.buf)) = [(.listener, [65])] ∧
    ∀ w ∈ s.writes, w.origin = .listener →
      (∃ q ∈ s.requests, q.header.type = .get ∧ q.header.topic = w.pack.header.topic) ∧
      ∃ (c' : Connection) (s' : Session), p.sessions[c']? = some s' ∧
        ∃ q ∈ s'.requests, q.header.type = .put ∧ q.header.topic = w.pack.header.topic ∧
          q.body = some w.pack.data.buf := by
  obtain ⟨p, hp, hend⟩ := Option.bind_eq_some_iff.mp deliveredRun_end
  obtain ⟨s, hs, hwrites⟩ := Option.map_eq_some_iff.mp hend
  exact ⟨p, s, hp, hs, hwrites, data_delivered hp 1 s hs⟩

end CppSerializer.Process
