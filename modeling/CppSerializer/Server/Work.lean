import CppSerializer.Library.Work
import CppSerializer.Server.Progress

/-!
# The clients finish in bounded time

Every step concerns one client (`Inv.step_concerns`): it is its own, or one of its connection or
of the buckets of its rounds. Such a step uses up work of the client, and none of the others, for
what it leads to is paid by the step before: the write of a put pays for each of its bytes to
arrive, to be read, to be stored and to be sent back. So in every run the steps that concern a
client are bounded by the lengths of its payloads, and when none of them is left it has finished
(`rounds_finish`).
-/

namespace CppSerializer

open Pack AsyncWrite Bucket Transition Work

/-! ## The work of a bucket -/

namespace Bucket

/-- What a packet has to send. -/
def sendWork (pack : Packet) : Nat := PacketHeader.bytesize + pack.data.buf.length

def outputWork : Output → Nat
  | .write _ pack | .call _ pack => sendWork pack
  | .post _ => 0

/-- A message that is popped is sent. -/
def messageWork (m : PacketData) : Nat := PacketHeader.bytesize + m.buf.length + 2

def handlerWork (h : Handler) : Nat :=
  match h.next with
  | .listenerEmpty => 4
  | .queueEmpty => 3
  | .tryPop | .startTriggerPost => 2
  | .disconnectAllSlots | .triggerPop => 1
  | .emit => sendWork h.resp + 3

/-- What a step of a task costs, with the `emplace`, the message, the handler or the write that it
makes. -/
def opWork (pack : Packet) : TaskOp → Nat
  | .contains => 2
  | .emplace | .at | .getConnect => 1
  | .pushMessage => messageWork pack.data + 1
  | .startHandleEvents => 6
  | .startWrite => PacketHeader.bytesize + 1

def taskWork (task : Task) : Nat := weight (opWork task.pack) task.code

def work (b : Bucket) : Nat :=
  weight taskWork b.tasks + weight messageWork b.messageQueue + 5 * b.posted.length +
    weight handlerWork b.running.toList

/-- A handler that emits calls one slot at most. -/
def EmitsOnce (b : Bucket) : Prop :=
  ∀ h, b.running = some h → h.next = .emit → b.listeners.length ≤ 1

variable {topic : Topic} {b b' : Bucket} {out : List Output}

theorem work_post (b : Bucket) (task : Task) : (b.post task).work = b.work + taskWork task := by
  simp only [work, post, weight_append, weight_cons, weight_nil]
  omega

/-- A step of a task pays for what it makes. -/
theorem work_task {i : Nat} {op : TaskOp} (h : b.stepTask i op = some (b', out)) :
    b'.work + weight outputWork out < b.work := by
  obtain ⟨self, pack, code, htask, hperform⟩ := stepTask_some h
  have hset := fun code' => weight_set (f := taskWork) htask ⟨self, pack, code'⟩
  simp only [taskWork, weight_cons] at hset
  cases op with
  | contains =>
    cases hperform
    have hcode := hset (if b.contained then code else .emplace :: code)
    have hnext : weight (opWork pack) (if b.contained then code else .emplace :: code) ≤
        weight (opWork pack) code + 1 := by
      split
      · exact Nat.le_succ _
      · exact Nat.le_of_eq (Nat.add_comm _ _)
    simp only [opWork] at hcode
    simp only [work, weight_nil]
    omega
  | «at» =>
    rw [perform] at hperform
    split at hperform
    · cases hperform
      have hcode := hset code
      simp only [opWork] at hcode
      simp only [work, weight_nil]
      omega
    · cases hperform
  | pushMessage =>
    cases hperform
    have hcode := hset code
    simp only [opWork] at hcode
    simp only [work, weight_append, weight_cons, weight_nil]
    omega
  | startHandleEvents =>
    cases hperform
    have hcode := hset code
    simp only [opWork] at hcode
    simp only [work, List.length_append, List.length_singleton, weight_nil]
    omega
  | emplace | getConnect =>
    cases hperform
    have hcode := hset code
    simp only [opWork] at hcode
    simp only [work, weight_nil]
    omega
  | startWrite =>
    cases hperform
    have hcode := hset code
    have hsend : sendWork (response pack .ack) = PacketHeader.bytesize := rfl
    simp only [opWork] at hcode
    simp only [work, outputWork, hsend, weight_cons, weight_nil]
    omega

theorem work_begin {i : Nat} (h : b.begin i = some b') : b'.work < b.work := by
  obtain ⟨hidle, key, hkey, rfl⟩ := begin_some h
  obtain ⟨hlt, -⟩ := List.getElem?_eq_some_iff.mp hkey
  have hlength := List.length_eraseIdx_of_lt hlt
  have hstart : handlerWork (Handler.start key) ≤ 4 := by
    have hnext := Handler.start_next key
    split at hnext
    · simp [handlerWork, hnext]
    · simp [handlerWork, hnext]
  simp only [work, hidle, hlength, Option.toList_some, Option.toList_none, weight_cons, weight_nil]
  omega

/-- The calls of one slot at most send the packet once. -/
theorem weight_emit (resp : Packet) {listeners : List Listener} (h : listeners.length ≤ 1) :
    weight outputWork (emit resp listeners).1 ≤ sendWork resp := by
  match listeners with
  | [] => exact Nat.zero_le _
  | [l] => exact Nat.le_refl _
  | _ :: _ :: _ => simp at h

/-- A step of a handler pays for its next one, and `emit` for what is sent. -/
theorem work_handler {op : HandlerOp} (honce : b.EmitsOnce)
    (h : b.stepHandler op = some (b', out)) : b'.work + weight outputWork out < b.work := by
  obtain ⟨handler, hrun, rfl, hhandle⟩ := stepHandler_some h
  rw [work, work, hrun]
  cases hnext : handler.next with
  | triggerPop =>
    rw [hnext, handle] at hhandle
    split at hhandle
    · rename_i hqueue
      cases hhandle
      simp [hqueue, handlerWork, hnext, messageWork]
      omega
    · cases hhandle
      simp [handlerWork, hnext]
  | tryPop =>
    rw [hnext, handle] at hhandle
    split at hhandle
    · rename_i hqueue
      cases hhandle
      simp [hqueue, handlerWork, hnext, messageWork, sendWork]
      omega
    · cases hhandle
      simp [handlerWork, hnext]
  | listenerEmpty | queueEmpty =>
    rw [hnext, handle] at hhandle
    split at hhandle <;> cases hhandle <;> simp [handlerWork, hnext]
  | startTriggerPost | disconnectAllSlots =>
    rw [hnext] at hhandle
    cases hhandle
    simp [handlerWork, hnext, outputWork]
  | emit =>
    have hsend := weight_emit handler.resp (honce handler hrun hnext)
    rw [hnext] at hhandle
    cases hhandle
    simp only [handlerWork, hnext, Option.toList_some, weight_cons, weight_nil]
    omega

/-- Every step of a task or of a handler uses work up, what it sends counted. -/
theorem work_step {a : Action} (ha : ¬ a.IsPost) (honce : b.EmitsOnce)
    (h : b.step topic a = some (b', out)) : b'.work + weight outputWork out < b.work := by
  cases a with
  | put self header payload => exact absurd trivial ha
  | get self header => exact absurd trivial ha
  | task i op => exact work_task h
  | begin i =>
    obtain ⟨b₁, hb, he⟩ := Option.map_eq_some_iff.mp h
    cases he
    exact work_begin hb
  | handler op => exact work_handler honce h

/-- In a round no more than one slot is connected when a handler emits. -/
theorem Holds.emitsOnce {c : Connection} {put get : Packet} {p : Progress}
    (h : Holds topic c put get p b) : b.EmitsOnce := by
  intro handler hrun hnext
  cases h with
  | storing _ h => simp [h.listeners]
  | stored _ h => simp [h.listeners]
  | loading _ h => simp [h.listeners]
  | connected _ h =>
    obtain ⟨slot, hslot⟩ := h.listeners
    simp [hslot]
  | popped _ h =>
    obtain ⟨slot, hslot⟩ := h.listeners
    simp [hslot]
  | delivered _ h => exact absurd hnext (h.running handler hrun)

end Bucket

/-! ## The work of a client -/

/-- What a round costs: the steps of the client, the arrival and the reading of its requests, the
tasks and handlers that they start, and the sending of what they are answered. -/
def Round.work (r : Round) : Nat := 4 * (2 * PacketHeader.bytesize + r.payload.length) + 5

/-- What the current round costs from the next call of the client on, the request that was written
apart. -/
def stageWork (r : Round) : Stage → Nat
  | .put => r.work
  | .ack => 4 * PacketHeader.bytesize + 4
  | .get => 4 * PacketHeader.bytesize + 3
  | .header => 2
  | .body _ => 1

def Client.work (client : Client) : Nat :=
  match client.todo with
  | [] => 0
  | r :: later => stageWork r client.stage + weight Round.work later

/-- The first call of a round finds its whole work. -/
theorem Client.work_put {client : Client} (h : client.stage = .put) :
    client.work = weight Round.work client.todo := by
  rw [Client.work, h]
  cases client.todo with
  | nil => rfl
  | cons r later => rfl

/-- A call that returns pays for what it writes to arrive. -/
theorem Client.work_step {client client' : Client} {unread buf : Bytes}
    (h : client.step unread = some (client', buf)) :
    client'.work + 4 * buf.length < client.work := by
  obtain ⟨todo, stage, taken, acks, replies⟩ := client
  cases todo with
  | nil => cases h
  | cons r later =>
    cases stage with
    | put =>
      simp only [Client.step, Option.bind_eq_bind, Option.bind_eq_some_iff, Option.pure_def,
        Option.some.injEq, Prod.mk.injEq, Prod.exists] at h
      obtain ⟨ptr, out, hserialize, rfl, rfl⟩ := h
      obtain rfl := (Round.serialize_put hserialize).2
      have hlength : r.put.bytes.length = PacketHeader.bytesize + r.payload.length :=
        Packet.length_bytes _
      simp only [Client.work, stageWork, Round.work, hlength]
      omega
    | ack =>
      simp only [Client.step, Option.bind_eq_bind, Option.bind_eq_some_iff, Option.pure_def,
        Option.some.injEq, Prod.mk.injEq, Prod.exists] at h
      obtain ⟨front, rest, -, header, -, rfl, rfl⟩ := h
      simp [Client.work, stageWork]
    | get =>
      simp only [Client.step, Option.bind_eq_bind, Option.bind_eq_some_iff, Option.pure_def,
        Option.some.injEq, Prod.mk.injEq, Prod.exists] at h
      obtain ⟨ptr, out, hserialize, rfl, rfl⟩ := h
      obtain rfl := Round.serialize_get hserialize
      rw [r.bytes_get, PacketHeader.length_bytes]
      simp only [Client.work, stageWork]
      omega
    | header =>
      simp only [Client.step, Option.bind_eq_bind, Option.bind_eq_some_iff, Option.pure_def,
        Option.some.injEq, Prod.mk.injEq, Prod.exists] at h
      obtain ⟨front, rest, -, header, -, rfl, rfl⟩ := h
      simp [Client.work, stageWork]
    | body header =>
      simp only [Client.step, Option.bind_eq_bind, Option.bind_eq_some_iff, Option.pure_def,
        Option.some.injEq, Prod.mk.injEq, Prod.exists] at h
      obtain ⟨front, rest, -, data, -, rfl, rfl⟩ := h
      rw [Client.work_put rfl]
      simp [Client.work, stageWork]

/-! ## The work of a connection -/

/-- What the writes have to send. -/
def socketWork (socket : Wire) : Nat := weight (fun w => w.remaining.length) socket.writes

theorem socketWork_send {socket socket' : Wire} {i n : Nat}
    (h : socket.send i n = some socket') : socketWork socket' < socketWork socket := by
  obtain ⟨w, hw, hpos, hle, hwrites, -⟩ := Socket.send_some h
  have hset := weight_set (f := fun w => w.remaining.length) hw
    ⟨w.sent ++ w.remaining.take n, w.remaining.drop n⟩
  simp only [List.length_drop] at hset
  rw [socketWork, socketWork, hwrites]
  omega

theorem socketWork_startWrite {socket socket' : Wire} {pack : Packet}
    (h : TcpConnection.startWrite socket pack = some socket') :
    socketWork socket' = socketWork socket + sendWork pack := by
  obtain ⟨⟨q, buf⟩, hserialize, rfl⟩ := Option.map_eq_some_iff.mp h
  obtain ⟨-, -, rfl⟩ := Packet.serialize_some hserialize
  simp [socketWork, Socket.asyncWrite, sendWork]

namespace TcpConnection

/-- A body that was announced has its put to start. -/
def readingWork : Reading → Nat
  | .body _ => 2 * PacketHeader.bytesize + 14
  | .header | .trigger _ | .job _ | .moved | .stopped => 0

def work (conn : TcpConnection) : Nat :=
  4 * conn.underway.length + 3 * conn.buffer.length + readingWork conn.reading +
    socketWork conn.socket

end TcpConnection

theorem taskWork_startStore (c : Connection) (pack : Packet) :
    taskWork (startStore c pack) = 2 * PacketHeader.bytesize + 13 + pack.data.buf.length := by
  simp only [taskWork, startStore, getBucket, List.cons_append, List.nil_append, weight_cons,
    weight_nil, opWork, messageWork]
  omega

theorem taskWork_startLoad (c : Connection) (pack : Packet) :
    taskWork (startLoad c pack) = 13 := rfl

/-- A read pays for the task that its handler posts. -/
theorem work_read {c : Connection} {r : Round} {conn : TcpConnection} {b b' : Bucket}
    {session : ExactRead.Session TcpConnection.Reading UnitT TcpConnection.Effect}
    (hread : ExactRead.step TcpConnection.reader ⟨conn.reading, conn.buffer, []⟩ .read =
      some session) (hstarts : Starts c r b session.events b') :
    { conn with reading := session.state, buffer := session.buffer }.work + b'.work <
      conn.work + b.work := by
  obtain ⟨reading, buffer, underway, socket⟩ := conn
  obtain ⟨n, hwait, hle, rfl⟩ := ExactRead.step_read_some hread
  have hbytesize : PacketHeader.bytesize = 45 := rfl
  simp only [ExactRead.Session.after, List.nil_append] at hle hstarts ⊢
  generalize hgot : TcpConnection.reader.got reading (buffer.take n) = got at hstarts ⊢
  obtain ⟨state, events⟩ := got
  simp only [TcpConnection.work, List.length_drop]
  have hstate : TcpConnection.readingWork state ≤ 2 * PacketHeader.bytesize + 14 := by
    cases state <;> simp [TcpConnection.readingWork]
  cases reading with
  | header =>
    obtain rfl := ExactRead.Wait.read.inj hwait
    cases hstarts with
    | nothing header =>
      simp only [TcpConnection.readingWork] at hstate ⊢
      omega
    | store =>
      change TcpConnection.got .header _ = _ at hgot
      rw [TcpConnection.got] at hgot
      split at hgot <;> cases hgot
    | load header =>
      rw [work_post, taskWork_startLoad]
      simp only [TcpConnection.readingWork] at hstate ⊢
      omega
  | body pack =>
    obtain rfl := ExactRead.Wait.read.inj hwait
    have hlength := List.length_take_of_le hle
    change TcpConnection.got (.body pack) _ = _ at hgot
    rw [TcpConnection.got, parse_body hlength] at hgot
    obtain ⟨rfl, hevents⟩ := Prod.mk.inj hgot
    simp only [TcpConnection.readingWork]
    cases hstarts with
    | nothing header => cases hevents
    | store =>
      -- the put has the bytes that were read
      have hpack := TcpConnection.Effect.startStore.inj (List.cons.inj hevents).1
      have hdata : r.put.data.buf.length = pack.header.datasize.toNat := by
        rw [← hpack]
        exact hlength
      rw [work_post, taskWork_startStore]
      omega
    | load header => cases hevents
  | trigger pack =>
    cases hgot
    cases hstarts
  | job pack | moved | stopped => cases hwait

/-! ## Steps -/

theorem InRound.emitsOnce {c : Connection} {r : Round} {client : Client} {conn : TcpConnection}
    {b : Bucket} (h : InRound c r client conn b) : b.EmitsOnce := by
  obtain ⟨todo, stage, taken, acks, replies⟩ := client
  obtain ⟨reading, buffer, underway, socket⟩ := conn
  obtain ⟨-, request, reply, hsituation, -, -⟩ := h
  simp only at hsituation
  cases hsituation with
  | put | putSent | putRead =>
    intro handler hrun
    cases hrun
  | storing _ hb | acked _ hb | get _ hb | getSent _ hb => exact hb.emitsOnce
  | loading _ p _ hb => exact hb.emitsOnce
  | replied _ pack _ hb => exact hb.emitsOnce
  | body _ header _ hb => exact hb.emitsOnce

namespace System

variable {rounds : Connection → List Round} {s s' : System} {c d : Connection} {r : Round}

/-- What is left to do for a client. -/
def workFor (rounds : Connection → List Round) (s : System) (c : Connection) : Nat :=
  (s.clients c).work + (s.connections c).work +
    weight (fun topic => (s.buckets topic).work) ((rounds c).map Round.topic)

/-- A step for one client: it changes nothing of the others, and uses work up. -/
structure StepFor (rounds : Connection → List Round) (c : Connection) (s s' : System) : Prop where
  clients : ∀ d, d ≠ c → s'.clients d = s.clients d
  connections : ∀ d, d ≠ c → s'.connections d = s.connections d
  buckets : ∀ topic, topic ∉ (rounds c).map Round.topic → s'.buckets topic = s.buckets topic
  work : s'.workFor rounds c < s.workFor rounds c

/-- The work of the other clients stays. -/
theorem StepFor.workFor_eq (h : StepFor rounds c s s') (hown : OwnTopics rounds) (hd : d ≠ c) :
    s'.workFor rounds d = s.workFor rounds d := by
  rw [workFor, workFor, h.clients d hd, h.connections d hd]
  congr 1
  refine weight_congr_left fun topic htopic => ?_
  obtain ⟨r, hr, rfl⟩ := List.mem_map.mp htopic
  rw [h.buckets r.topic]
  intro hmem
  obtain ⟨r', hr', heq⟩ := List.mem_map.mp hmem
  exact hd (hown.disjoint d c r r' hr hr' heq.symm)

/-- Only the connection changes. -/
theorem StepFor.setConnection {conn : TcpConnection} (h : conn.work < (s.connections c).work) :
    StepFor rounds c s (s.setConnection c conn) where
  clients _ _ := rfl
  connections _ hd := Function.update_of_ne hd _ _
  buckets _ _ := rfl
  work := by
    simp only [workFor, System.setConnection, Function.update_self]
    omega

/-- The connection changes, and the bucket of a round. -/
theorem StepFor.update {conn : TcpConnection} {b : Bucket} (hown : OwnTopics rounds)
    (hr : r ∈ rounds c)
    (h : conn.work + b.work < (s.connections c).work + (s.buckets r.topic).work) :
    StepFor rounds c s
      ({ s with buckets := Function.update s.buckets r.topic b }.setConnection c conn) where
  clients _ _ := rfl
  connections _ hd := Function.update_of_ne hd _ _
  buckets topic htopic := by
    refine Function.update_of_ne ?_ _ _
    rintro rfl
    exact htopic (List.mem_map_of_mem hr)
  work := by
    have hupdate := weight_update (f := Bucket.work) (hown.nodup c) (List.mem_map_of_mem hr)
      s.buckets b
    simp only [workFor, System.setConnection, Function.update_self]
    omega

theorem stepFor_stepClient (hstep : s.stepClient c = some s') : StepFor rounds c s s' := by
  simp only [stepClient, Option.bind_eq_bind, Option.bind_eq_some_iff, Option.pure_def,
    Option.some.injEq, Prod.exists] at hstep
  obtain ⟨client', buf, hclient, rfl⟩ := hstep
  have hwork := Client.work_step hclient
  refine ⟨fun d hd => Function.update_of_ne hd _ _, fun d hd => Function.update_of_ne hd _ _,
    fun _ _ => rfl, ?_⟩
  simp only [workFor, System.setConnection, Function.update_self, TcpConnection.work,
    List.length_append]
  omega

theorem stepFor_arrive {n : Nat} (hstep : s.arrive c n = some s') : StepFor rounds c s s' := by
  simp only [arrive] at hstep
  split at hstep
  · rename_i hn
    cases hstep
    refine .setConnection ?_
    simp only [TcpConnection.work, List.length_append, List.length_take, List.length_drop]
    omega
  · cases hstep

theorem stepFor_send {i n : Nat} (hstep : s.send c i n = some s') : StepFor rounds c s s' := by
  obtain ⟨socket, hsend, rfl⟩ := Option.map_eq_some_iff.mp hstep
  have hwork := socketWork_send hsend
  refine .setConnection ?_
  simp only [TcpConnection.work]
  omega

theorem Inv.stepFor_read (hown : OwnTopics rounds) (h : Inv rounds s)
    (hstep : s.read c = some s') : StepFor rounds c s s' := by
  obtain ⟨session, hread, hevents⟩ := Option.bind_eq_some_iff.mp hstep
  cases htodo : (s.clients c).todo with
  | nil =>
    have hrests := h.rests htodo
    have hwait : TcpConnection.wait (s.connections c).reading = .read PacketHeader.bytesize := by
      rw [hrests.reading]
      rfl
    exact absurd (read_pending hrests.request hwait hread).1 (by decide)
  | cons r later =>
    obtain ⟨b, hstarts, -⟩ := (h.inRound htodo).1.read hread
    have heffects := (effects_eq (s := s.setConnection c { s.connections c with
      reading := session.state, buffer := session.buffer }) hstarts).1
    obtain rfl := Option.some.inj (heffects.symm.trans hevents)
    exact .update hown (h.mem_rounds htodo) (work_read hread hstarts)

/-- The packet that leaves a bucket is written by the connection. -/
theorem foldlM_output {pack : Packet} {out : List Output} {socket : Wire}
    (hsends : Sends c pack out)
    (hwrite : TcpConnection.startWrite (s.connections c).socket pack = some socket) :
    out.foldlM output s =
        some (s.setConnection c { s.connections c with socket := socket }) ∧
      weight outputWork out = sendWork pack := by
  cases hsends with
  | write => simp [output, startWrite, hwrite, outputWork]
  | call slot => simp [output, startWrite, hwrite, outputWork]

theorem Inv.stepFor_stepBucket (hown : OwnTopics rounds) (h : Inv rounds s) {topic : Topic}
    {a : Bucket.Action} (ha : ¬ a.IsPost) (hstep : s.stepBucket topic a = some s') :
    ∃ c, topic ∈ (rounds c).map Round.topic ∧ StepFor rounds c s s' := by
  simp only [System.stepBucket, Option.bind_eq_bind, Option.bind_eq_some_iff,
    Prod.exists] at hstep
  obtain ⟨b, out, hb, hout⟩ := hstep
  have hnotEmpty : s.buckets topic ≠ Bucket.empty := by
    intro hempty
    rw [hempty, empty_stuck topic a ha] at hb
    cases hb
  have hused : ∃ c, ∃ r ∈ rounds c, r.topic = topic := by
    by_contra hunused
    exact hnotEmpty (h.unused topic fun c r hr htopic => hunused ⟨c, r, hr, htopic⟩)
  obtain ⟨c, r, hr, rfl⟩ := hused
  refine ⟨c, List.mem_map_of_mem hr, ?_⟩
  have hsilent : (s.buckets r.topic).EmitsOnce → out = [] → StepFor rounds c s s' := by
    rintro honce rfl
    have hwork := work_step ha honce hb
    rw [weight_nil] at hwork
    cases hout
    rw [← setConnection_self { s with buckets := Function.update s.buckets r.topic b } c]
    exact .update hown hr (Nat.add_lt_add_left hwork _)
  have hmem := hr
  rw [← (h.clients c).rounds_eq] at hmem
  rcases List.mem_append.mp hmem with hfinished | htodo
  · have hdelivered := (h.clients c).finished r hfinished
    exact hsilent hdelivered.emitsOnce (hdelivered.delivered_step (hown.notTrigger c r hr)
      (h.routed r.topic) ha hb).2
  · cases hcase : (s.clients c).todo with
    | nil =>
      rw [hcase] at htodo
      cases htodo
    | cons r₀ later =>
      rw [hcase] at htodo
      rcases List.mem_cons.mp htodo with rfl | hlater
      · have hinRound := (h.inRound hcase).1
        have honce := hinRound.emitsOnce
        rcases hinRound.bucket (hown.notTrigger c r hr) (h.routed r.topic) ha hb with
          ⟨hnone, -⟩ | ⟨pack, socket, hsends, hwrite, -⟩
        · exact hsilent honce hnone
        · obtain ⟨heq, hsend⟩ := foldlM_output
            (s := { s with buckets := Function.update s.buckets r.topic b }) hsends hwrite
          obtain rfl := Option.some.inj (heq.symm.trans hout)
          have hwork := work_step ha honce hb
          have hsocket := socketWork_startWrite hwrite
          refine .update hown hr ?_
          simp only [TcpConnection.work]
          omega
      · exact absurd ((h.inRound hcase).2 r hlater) hnotEmpty

/-- Every step is one for a client that it concerns. -/
theorem Inv.stepFor (hown : OwnTopics rounds) (h : Inv rounds s) {a : Action}
    (hstep : s.step a = some s') : ∃ c, a.Concerns rounds c ∧ StepFor rounds c s s' := by
  cases a with
  | client c => exact ⟨c, rfl, stepFor_stepClient hstep⟩
  | arrive c n => exact ⟨c, rfl, stepFor_arrive hstep⟩
  | read c => exact ⟨c, rfl, h.stepFor_read hown hstep⟩
  | bucket topic a =>
    rw [System.step] at hstep
    split at hstep
    · cases hstep
    · exact h.stepFor_stepBucket hown ‹_› hstep
  | send c i n => exact ⟨c, rfl, stepFor_send hstep⟩

/-! ## Runs -/

/-- A step concerns one client only. -/
theorem Action.Concerns.unique (hown : OwnTopics rounds) {a : Action} (hc : a.Concerns rounds c)
    (hd : a.Concerns rounds d) : d = c := by
  cases a with
  | client _ | arrive _ _ | read _ | send _ _ _ => exact hd.symm.trans hc
  | bucket topic a =>
    obtain ⟨r, hr, rfl⟩ := List.mem_map.mp hc
    obtain ⟨r', hr', heq⟩ := List.mem_map.mp hd
    exact hown.disjoint d c r' r hr' hr heq

theorem workFor_init (rounds : Connection → List Round) (c : Connection) :
    (init rounds).workFor rounds c = weight Round.work (rounds c) := by
  have hbuckets : weight (fun topic => ((init rounds).buckets topic).work)
      ((rounds c).map Round.topic) = 0 := weight_eq_zero fun _ _ => rfl
  have hclient : ((init rounds).clients c).work = weight Round.work (rounds c) :=
    Client.work_put rfl
  rw [workFor, hbuckets, hclient]
  rfl

/-- The steps that concern a client have used up its work, the others have not. -/
theorem run_work (hown : OwnTopics rounds) {as : List Action}
    (hrun : run step (init rounds) as = some s) (c : Connection) :
    as.countP (fun a => a.Concerns rounds c) + s.workFor rounds c ≤
      weight Round.work (rounds c) := by
  suffices hinv : Inv rounds s ∧ as.countP (fun a => a.Concerns rounds c) + s.workFor rounds c ≤
      weight Round.work (rounds c) from hinv.2
  refine run_induction (P := fun as s => Inv rounds s ∧
    as.countP (fun a => a.Concerns rounds c) + s.workFor rounds c ≤
      weight Round.work (rounds c)) ?_ ?_ as s hrun
  · refine ⟨inv_init rounds, Nat.le_of_eq ?_⟩
    rw [List.countP_nil, Nat.zero_add, workFor_init]
  · rintro as s a t - ⟨hinv, hle⟩ hstep
    refine ⟨hinv.step hown hstep, ?_⟩
    obtain ⟨d, hconcerns, hfor⟩ := hinv.stepFor hown hstep
    rw [List.countP_append, List.countP_singleton]
    by_cases hc : c = d
    · subst hc
      have hwork := hfor.work
      simp only [hconcerns, decide_true, if_true]
      omega
    · have hnot : ¬ a.Concerns rounds c := fun h => hc (hconcerns.unique hown h)
      rw [hfor.workFor_eq hown hc]
      simpa only [hnot, decide_false, Bool.false_eq_true, if_false, Nat.add_zero] using hle

/-- In every run, of any number of clients, the steps that concern a client are bounded by what
its rounds cost; and when none of them is left, whatever the others may still do, the client has
done all its rounds and has read in each of them the payload that it had put. -/
theorem rounds_finish (hown : OwnTopics rounds) (hfits : ∀ c, ∀ r ∈ rounds c, r.Fits)
    {as : List Action} (hrun : run step (init rounds) as = some s) (c : Connection) :
    as.countP (fun a => a.Concerns rounds c) ≤ weight Round.work (rounds c) ∧
      ((∀ a : Action, a.Concerns rounds c → s.step a = none) →
        (s.clients c).todo = [] ∧
          (s.clients c).replies.map (fun x => x.2.data.buf) =
            (rounds c).map Round.payload) := by
  have hinv : Inv rounds s := Reachable.invariant (inv_init rounds)
    (fun _ _ _ hs ht => hs.step hown ht) ⟨as, hrun⟩
  refine ⟨Nat.le_of_add_right_le (run_work hown hrun c), fun hnone => ?_⟩
  have htodo := hinv.todo_eq_nil hown hfits hnone
  exact ⟨htodo, hinv.payloads htodo⟩

/-- Two clients with a round each, of which one has not read its ack. -/
theorem rounds_finish_twoRoundsRun : ∃ s, run step (init twoRounds) twoRoundsRun = some s ∧
    ∀ c, twoRoundsRun.countP (fun a => a.Concerns twoRounds c) ≤ weight Round.work (twoRounds c) ∧
      ((∀ a : Action, a.Concerns twoRounds c → s.step a = none) →
        (s.clients c).todo = [] ∧
          (s.clients c).replies.map (fun x => x.2.data.buf) =
            (twoRounds c).map Round.payload) := by
  obtain ⟨s, hs, -⟩ := Option.map_eq_some_iff.mp twoRoundsRun_end
  exact ⟨s, hs, rounds_finish ownTopics_twoRounds fits_twoRounds hs⟩

end System

end CppSerializer
