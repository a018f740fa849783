import CppSerializer.Process.Data
import CppSerializer.Process.Served
import CppSerializer.Process.Stream

/-!
# What clients get for their packets

The packets that a client sends, and the replies to them, whatever else the server does meanwhile.
A client that sends puts, gets, triggers and other packets finds each of them noted as a request in
order, and gets one control reply for each that is due one (`packets_answered`). A client that
sends only triggers, as the file system's does, gets nothing but their results, in the order of the
triggers (`trigger_calls`).
-/

namespace CppSerializer.Process

open Pack Bucket ReadLoop TcpConnection Transition

/-! ## Packets as requests -/

/-- The request that a packet becomes. -/
def requestOf (pack : Packet) : Request :=
  ⟨pack.sized.header, if pack.header.type = .put then some pack.data.buf else none⟩

/-- The body of the packet, if it is a trigger. -/
def triggerOf (pack : Packet) : Option Bytes :=
  if pack.header.type = .trigger then some pack.data.buf else none

theorem modify_concat {α : Type*} (f : α → α) (l : List α) (a : α) :
    (l ++ [a]).modify l.length f = l ++ [f a] := by
  rw [List.modify_eq_take_cons_drop (by simp)]
  simp

theorem noted_commandsOf (requests : List Request) (pack : Packet) :
    (commandsOf pack.sized).foldl noted requests = requests ++ [requestOf pack] := by
  obtain ⟨⟨type, key, datasize, sequence, randomSalt⟩, data⟩ := pack
  cases type with
  | put =>
    simp only [commandsOf, Packet.sized, List.foldl_cons, List.foldl_nil, noted, List.length_append,
      List.length_singleton, Nat.add_sub_cancel, modify_concat]
    rfl
  | _ => rfl

theorem posted_commandsOf (pack : Packet) :
    (commandsOf pack.sized).filterMap posted? = (triggerOf pack).toList := by
  obtain ⟨⟨type, key, datasize, sequence, randomSalt⟩, data⟩ := pack
  cases type <;> rfl

theorem requestsOf_packets (packets : List Packet) :
    requestsOf (packets.flatMap fun pack => commandsOf pack.sized) = packets.map requestOf := by
  induction packets using List.reverseRecOn with
  | nil => rfl
  | append_singleton packets pack ih =>
    rw [List.flatMap_append, List.flatMap_singleton, requestsOf_append, ih, noted_commandsOf,
      List.map_append, List.map_singleton]

theorem posted_packets (packets : List Packet) :
    (packets.flatMap fun pack => commandsOf pack.sized).filterMap posted? =
      packets.filterMap triggerOf := by
  induction packets with
  | nil => rfl
  | cons pack packets ih =>
    rw [List.flatMap_cons, List.filterMap_append, ih, posted_commandsOf, List.filterMap_cons]
    cases triggerOf pack <;> rfl

/-- The requests of some commands are for the headers that were parsed. -/
theorem headers_requestsOf (commands : List Effect) :
    (requestsOf commands).map Request.header = commands.filterMap Effect.parsed? := by
  induction commands using List.reverseRecOn with
  | nil => rfl
  | append_singleton commands e ih =>
    rw [requestsOf_append, List.filterMap_append, ← ih]
    cases e with
    | parsed h => exact List.map_append
    | startStore pack =>
      refine Eq.trans ?_ (List.append_nil _).symm
      apply List.ext_getElem?
      intro n
      simp only [List.foldl_cons, List.foldl_nil, noted, List.getElem?_map, List.getElem?_modify]
      cases (requestsOf commands)[n]? with
      | none => rfl
      | some q =>
        by_cases hn : (requestsOf commands).length - 1 = n <;> simp [hn]
    | _ => exact (List.append_nil _).symm

theorem headers_packets (packets : List Packet) :
    (packets.flatMap fun pack => commandsOf pack.sized).filterMap Effect.parsed? =
      packets.map fun pack => pack.sized.header := by
  rw [← headers_requestsOf, requestsOf_packets, List.map_map]
  rfl

/-! ## Clients -/

/-- The commands that a connection has done are the first of those that the packets ask for. -/
theorem commands_of_packets {packets : List Packet} {c : Connection} {as : List Action}
    (hpackets : ∀ pack ∈ packets, pack.header.type.IsEnumerator ∧
      PacketHeader.bytesize + pack.data.buf.length < 2 ^ 32)
    (hconsumed : Consumed branch packets) (hcome : received c as <+: stream packets)
    {done : List Effect} (hdone : done <+: commands .header (received c as)) :
    done <+: (upTo branch packets).flatMap fun pack => commandsOf pack.sized := by
  rw [← commands_stream hpackets hconsumed]
  exact hdone.trans (commands_mono .header hcome)

theorem nodup_controls {as : List Action} {p : Process} (hrun : run step init as = some p)
    {c : Connection} {s : Session} (hs : p.sessions[c]? = some s) :
    (s.controls.map Prod.fst).Nodup := by
  have hnodup := ((run_accounted hrun).sound c s hs).nodup
  change ((p.items c s).map Item.request).Nodup at hnodup
  rw [items, List.map_append, items_controls, List.map_map] at hnodup
  exact (List.nodup_append.mp hnodup).2.1

/-- A client that sends packets which leave no body unread, and does not register as a worker:
when they have all come, the connection waits for more and nothing of it is pending, its requests
are the packets, in order, its triggers those of the packets, and it was sent one control reply
for each packet that is due one, and no other. This holds in runs in which the headers of jobs
differ in key or salt and workers answer what they were given. -/
theorem packets_answered {as : List Action} {p : Process} (hrun : run step init as = some p)
    (hanswers : Guarded step (OnLauncher Launcher.Answers) init as)
    (hnodup : p.launcher.topics.Nodup) {c : Connection} {s : Session}
    (hs : p.sessions[c]? = some s) {packets : List Packet}
    (hpackets : ∀ pack ∈ packets, pack.header.type.IsEnumerator ∧
      PacketHeader.bytesize + pack.data.buf.length < 2 ^ 32)
    (hconsumed : Consumed branch packets) (hkept : Kept branch packets)
    (hcome : received c as = stream packets) (hend : s.AtEnd) (hsettled : p.Settled c s) :
    s.requests = packets.map requestOf ∧ triggers c as = packets.filterMap triggerOf ∧
    (s.controls.map Prod.fst).Nodup ∧
    ∀ n resp, (n, resp) ∈ s.controls ↔
      ∃ pack, packets[n]? = some pack ∧ (requestOf pack).reply? = some resp := by
  obtain ⟨done, -, hrequests, htriggers, hall⟩ :=
    run_commands hrun hanswers (findsNoOther_of_run hrun hnodup) hs
  have hdone := hall hend
  rw [hcome, commands_stream hpackets hconsumed, upTo_kept hkept] at hdone
  rw [hdone, requestsOf_packets] at hrequests
  rw [hdone, posted_packets] at htriggers
  have hmatch : ∀ n resp, (n, resp) ∈ s.controls ↔
      ∃ q, s.requests[n]? = some q ∧ q.reply? = some resp := by
    intro n resp
    constructor
    · intro hcontrol
      obtain ⟨q, hq, hreply, -⟩ :=
        ((run_accounted hrun).sound c s hs).fits _ (mem_items_of_controls hcontrol)
      exact ⟨q, hq, hreply⟩
    · rintro ⟨q, hq, hreply⟩
      exact controls_of_settled hrun hs hsettled hq hreply
  refine ⟨hrequests, htriggers, nodup_controls hrun hs, ?_⟩
  intro n resp
  rw [hmatch, hrequests, List.getElem?_map]
  constructor
  · rintro ⟨q, hq, hreply⟩
    obtain ⟨pack, hpack, rfl⟩ := Option.map_eq_some_iff.mp hq
    exact ⟨pack, hpack, hreply⟩
  · rintro ⟨pack, hpack, hreply⟩
    exact ⟨requestOf pack, by rw [hpack]; rfl, hreply⟩

/-- The packets that come in in `pipelinedRun`. -/
def pipelinedPackets : List Packet :=
  [⟨pipelinedHeader .put 1 1, ⟨[65]⟩⟩, ⟨pipelinedHeader .ack 2 0, ⟨[]⟩⟩,
    ⟨pipelinedHeader .err 3 0, ⟨[]⟩⟩]

theorem pipelinedRun_settled : ((run step init pipelinedRun).bind fun p =>
    p.sessions[0]?.map fun s => (s.loop.reads, s.loop.buffer, s.loop.handlers.all List.isEmpty,
      p.topics.tasks.all fun task => task.code.isEmpty, decide p.launcher.topics.Nodup)) =
      some ([.header], [], true, true, true) := by
  decide +kernel

theorem packets_answered_pipelinedRun : ∃ p s, run step init pipelinedRun = some p ∧
    p.sessions[0]? = some s ∧ s.requests = pipelinedPackets.map requestOf ∧
    triggers 0 pipelinedRun = pipelinedPackets.filterMap triggerOf ∧
    (s.controls.map Prod.fst).Nodup ∧
    ∀ n resp, (n, resp) ∈ s.controls ↔
      ∃ pack, pipelinedPackets[n]? = some pack ∧ (requestOf pack).reply? = some resp := by
  obtain ⟨p, hp, hend⟩ := Option.bind_eq_some_iff.mp pipelinedRun_settled
  obtain ⟨s, hs, hend⟩ := Option.map_eq_some_iff.mp hend
  simp only [Prod.mk.injEq, List.all_eq_true, List.isEmpty_iff, decide_eq_true_eq] at hend
  obtain ⟨hreads, hbuffer, hhandlers, htasks, hnodup⟩ := hend
  have hanswers : Guarded step (OnLauncher Launcher.Answers) init pipelinedRun := by
    apply guarded_of_forall
    intro a ha p l hl
    subst hl
    simp [pipelinedRun] at ha
  have hatEnd : s.AtEnd := by
    refine Or.inr ⟨.header, ?_, ?_⟩
    · rw [hreads]
      exact List.mem_singleton_self _
    · rw [hbuffer]
      decide
  have hpackets : ∀ pack ∈ pipelinedPackets, (pack.header.type.IsEnumerator ∧
      PacketHeader.bytesize + pack.data.buf.length < 2 ^ 32) ∧
      (branch pack.header.type = .skip → pack.data.buf = []) ∧
      branch pack.header.type ≠ .handOver := by
    intro pack hpack
    simp only [pipelinedPackets, List.mem_cons, List.not_mem_nil, or_false] at hpack
    rcases hpack with rfl | rfl | rfl <;> exact ⟨⟨trivial, by decide⟩, by decide, by decide⟩
  exact ⟨p, s, hp, hs, packets_answered hp hanswers hnodup hs (fun pack h => (hpackets pack h).1)
    (fun pack h => (hpackets pack h).2.1) (fun pack h => (hpackets pack h).2.2)
    (by decide +kernel) hatEnd ⟨hhandlers, fun task htask _ => htasks task htask⟩⟩

/-! ## Clients of triggers -/

/-- The packets of a client that sends triggers only. -/
structure Triggers (packets : List Packet) : Prop where
  type : ∀ pack ∈ packets, pack.header.type = .trigger
  size : ∀ pack ∈ packets, PacketHeader.bytesize + pack.data.buf.length < 2 ^ 32

theorem Triggers.enumerators {packets : List Packet} (h : Triggers packets) :
    ∀ pack ∈ packets, pack.header.type.IsEnumerator ∧
      PacketHeader.bytesize + pack.data.buf.length < 2 ^ 32 := by
  intro pack hpack
  rw [h.type pack hpack]
  exact ⟨trivial, h.size pack hpack⟩

theorem Triggers.consumed {packets : List Packet} (h : Triggers packets) :
    Consumed branch packets := by
  intro pack hpack hskip
  rw [h.type pack hpack] at hskip
  cases hskip

theorem Triggers.kept {packets : List Packet} (h : Triggers packets) : Kept branch packets := by
  intro pack hpack
  rw [h.type pack hpack]
  decide

theorem Triggers.bodies {packets : List Packet} (h : Triggers packets) :
    packets.filterMap triggerOf = packets.map fun pack => pack.data.buf := by
  rw [← List.filterMap_eq_map]
  apply List.filterMap_congr
  intro pack hpack
  exact if_pos (h.type pack hpack)

/-- Whoever has sent triggers only is written to by jobs only. -/
theorem writes_of_triggers {as : List Action} {p : Process} (hrun : run step init as = some p)
    {c : Connection} {s : Session} (hs : p.sessions[c]? = some s)
    (hrequests : ∀ q ∈ s.requests, q.header.type = .trigger) :
    s.writes.map Write.pack = s.jobReplies := by
  have hjob : ∀ w ∈ s.writes, w.jobReply = [w.pack] := by
    intro w hw
    cases horigin : w.origin with
    | job => rw [Write.jobReply, horigin]
    | listener =>
      obtain ⟨x, -, -, q, hq, htype, -⟩ := handed_of_write hrun hs hw horigin
      rw [hrequests q hq] at htype
      cases htype
    | control n =>
      have hcontrol : (n, w.pack) ∈ s.controls := by
        refine List.mem_filterMap.mpr ⟨w, hw, ?_⟩
        rw [horigin]
      obtain ⟨q, hq, hreply, -⟩ :=
        ((run_accounted hrun).sound c s hs).fits _ (mem_items_of_controls hcontrol)
      rw [Request.reply?, hrequests q (List.mem_of_getElem? hq)] at hreply
      cases hreply
  rw [Session.jobReplies, List.flatMap_congr hjob, List.map_eq_flatMap]

/-- A connection that waits for more has handed its token to the read, or to a worker. -/
theorem quiet_of_atEnd {p : Process} {c : Connection} {s : Session} (hone : p.tokens c s ≤ 1)
    (hend : s.AtEnd) : s.passing.length + (p.pending c).length = 0 := by
  rw [tokens] at hone
  rcases hend with hmoved | ⟨r, hr, -⟩
  · rw [hmoved, Bool.toNat_true] at hone
    omega
  · have hpos := List.length_pos_of_mem hr
    omega

/-- The requests of a client that sends triggers only are triggers, and the bodies that were read
are those of the first packets, or of all that have come when the connection waits for more. -/
theorem triggers_of_packets {as : List Action} {p : Process} (hrun : run step init as = some p)
    (hanswers : Guarded step (OnLauncher Launcher.Answers) init as)
    (hother : Guarded step (OnLauncher Launcher.FindsNoOther) init as) {c : Connection}
    {s : Session} (hs : p.sessions[c]? = some s) {packets : List Packet}
    (hpackets : Triggers packets) (hcome : received c as <+: stream packets) :
    (∀ q ∈ s.requests, q.header.type = .trigger) ∧
      triggers c as <+: packets.map (fun pack => pack.data.buf) ∧
      (received c as = stream packets → s.AtEnd →
        triggers c as = packets.map fun pack => pack.data.buf) := by
  obtain ⟨done, hdone, hrequests, htriggers, hall⟩ := run_commands hrun hanswers hother hs
  have hfirst := commands_of_packets hpackets.enumerators hpackets.consumed hcome hdone
  rw [upTo_kept hpackets.kept] at hfirst
  refine ⟨?_, ?_, ?_⟩
  · intro q hq
    have hheaders := hfirst.filterMap Effect.parsed?
    rw [headers_packets, ← headers_requestsOf, ← hrequests] at hheaders
    obtain ⟨pack, hpack, hheader⟩ :=
      List.mem_map.mp (hheaders.subset (List.mem_map_of_mem hq))
    rw [← hheader]
    exact hpackets.type pack hpack
  · have hbodies := hfirst.filterMap posted?
    rw [posted_packets, hpackets.bodies, ← htriggers] at hbodies
    exact hbodies
  · intro hcomplete hend
    have hlast := hall hend
    rw [hcomplete, commands_stream hpackets.enumerators hpackets.consumed,
      upTo_kept hpackets.kept] at hlast
    rw [htriggers, hlast, posted_packets, hpackets.bodies]

/-- The triggers that were read from a client that sends triggers only are those that have a reply,
and nothing else is written to it, and those that are due one. -/
theorem answered_of_triggers {R : Bytes → Bytes → Prop} {as : List Action} {p : Process}
    (hrun : run step init as = some p)
    (hcomputes : Guarded step (OnLauncher (Launcher.Computes R)) init as)
    (hother : Guarded step (OnLauncher Launcher.FindsNoOther) init as) {c : Connection}
    {s : Session} (hs : p.sessions[c]? = some s) {packets : List Packet}
    (hpackets : Triggers packets) (hcome : received c as <+: stream packets) :
    ∃ answered waiting, triggers c as = answered ++ waiting ∧
      answered ++ waiting <+: packets.map (fun pack => pack.data.buf) ∧
      List.Forall₂ (IsReply R) answered (s.writes.map Write.pack) ∧ waiting.length ≤ 1 ∧
      (received c as = stream packets → s.AtEnd →
        answered = packets.map fun pack => pack.data.buf) := by
  have hanswers : Guarded step (OnLauncher Launcher.Answers) init as :=
    hcomputes.mono fun p a h l hl => (h l hl).1
  have hone := run_oneReader hrun hanswers hother
  obtain ⟨htype, hbodies, hall⟩ := triggers_of_packets hrun hanswers hother hs hpackets hcome
  obtain ⟨answered, waiting, hsplit, hanswered, hwaiting⟩ := run_answered hrun hcomputes hother hs
  rw [hsplit] at hbodies
  refine ⟨answered, waiting, hsplit, hbodies, ?_,
    hwaiting.trans_le (length_due_le_one hone (run_carried hrun) c), ?_⟩
  · rw [writes_of_triggers hrun hs htype]
    exact hanswered
  · intro hcomplete hend
    have hnone : waiting = [] := by
      have hdue := length_due_le (run_carried hrun) hs
      rw [quiet_of_atEnd (hone.one c s hs) hend] at hdue
      exact List.length_eq_zero_iff.mp (by omega)
    have hlast := hall hcomplete hend
    rw [hsplit, hnone, List.append_nil] at hlast
    exact hlast

/-- What is written to a client that sends triggers only are results of its triggers, in order,
each of its own, and nothing else; one trigger at most that was read has no answer yet; and all
have got one when all have come and the connection waits for more. This holds in runs in which the
headers of jobs differ in key or salt and workers answer what they were given. -/
theorem trigger_calls {R : Bytes → Bytes → Prop} {as : List Action} {p : Process}
    (hrun : run step init as = some p)
    (hcomputes : Guarded step (OnLauncher (Launcher.Computes R)) init as)
    (hnodup : p.launcher.topics.Nodup) {c : Connection} {s : Session}
    (hs : p.sessions[c]? = some s) {packets : List Packet} (hpackets : Triggers packets)
    (hcome : received c as <+: stream packets) : ∃ answered waiting,
      triggers c as = answered ++ waiting ∧
      answered ++ waiting <+: packets.map (fun pack => pack.data.buf) ∧
      List.Forall₂ (IsReply R) answered (s.writes.map Write.pack) ∧ waiting.length ≤ 1 ∧
      (received c as = stream packets → s.AtEnd →
        answered = packets.map fun pack => pack.data.buf) :=
  answered_of_triggers hrun hcomputes (findsNoOther_of_run hrun hnodup) hs hpackets hcome

theorem answeredRun_reads :
    ((run step init (triggersRun 4 (callbackRun 0 2 ++ callbackRun 1 2))).bind fun p =>
      p.sessions[0]?.map fun s =>
        (s.loop.reads, s.loop.buffer, decide p.launcher.topics.Nodup)) =
      some ([.header], [], true) := by
  decide +kernel

theorem trigger_calls_differentSalts : ∃ p s answered waiting,
    run step init (triggersRun 4 (callbackRun 0 2 ++ callbackRun 1 2)) = some p ∧
    p.sessions[0]? = some s ∧
    triggers 0 (triggersRun 4 (callbackRun 0 2 ++ callbackRun 1 2)) = answered ++ waiting ∧
    List.Forall₂ (IsReply fun _ result => result = [90]) answered (s.writes.map Write.pack) ∧
    waiting.length ≤ 1 ∧ answered = [[65]] := by
  obtain ⟨p, hp, hend⟩ := Option.bind_eq_some_iff.mp answeredRun_reads
  obtain ⟨s, hs, hend⟩ := Option.map_eq_some_iff.mp hend
  simp only [Prod.mk.injEq, decide_eq_true_eq] at hend
  obtain ⟨hreads, hbuffer, hnodup⟩ := hend
  have hatEnd : s.AtEnd := by
    refine Or.inr ⟨.header, ?_, ?_⟩
    · rw [hreads]
      exact List.mem_singleton_self _
    · rw [hbuffer]
      decide
  have hpackets : Triggers [⟨requestHeader .trigger 1, ⟨[65]⟩⟩] := by
    constructor <;> decide
  have hcome : received 0 (triggersRun 4 (callbackRun 0 2 ++ callbackRun 1 2)) =
      stream [⟨requestHeader .trigger 1, ⟨[65]⟩⟩] := by decide +kernel
  obtain ⟨answered, waiting, hsplit, -, hanswered, hwaiting, hall⟩ := trigger_calls hp
    answeredRun_computes hnodup hs hpackets (hcome ▸ List.prefix_rfl)
  exact ⟨p, s, answered, waiting, hp, hs, hsplit, hanswered, hwaiting, hall hcome hatEnd⟩

end CppSerializer.Process
