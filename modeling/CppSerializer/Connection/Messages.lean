import CppSerializer.Connection.InStep
import CppSerializer.Connection.Listening
import CppSerializer.Library.Follow

/-!
# What a worker's stream tells the launcher

`messages` are the acks and the responses in the bytes of a worker, as `df::worker` reads them:
a function of the bytes. `Mirrors` relates a worker, whose handlers run operation by operation, to
the sequential reader of the same bytes. What it has told the launcher is what the reader has done,
up to what the handler that runs has still to tell (`Mirrors.told`).
-/

namespace CppSerializer

open Pack ReadLoop ExactRead Transition

namespace Worker

/-! ## Messages -/

/-- What a worker tells the launcher: `on_worker_ack_` or `on_worker_response_` is emitted. -/
inductive Message
  | ack (header : PacketHeader)
  | response (pack : Packet)
  deriving DecidableEq

def Effect.message? : Effect → Option Message
  | .parsed _ => none
  | .onWorkerAck pack => some (.ack pack.header)
  | .onWorkerResponse pack => some (.response pack)

def Op.message? : Op → Option Message
  | .effect e => e.message?
  | .invalidate | .startReadHeader | .startReadBody _ => none

def Reading.rank : Reading → Nat
  | .body _ => 1
  | .header | .stopped => 0

def productive : Productive reader where
  next := id
  rank s := s.reading.rank
  resumed := by
    rintro ⟨valid, reading⟩ r hwait
    cases reading <;> cases hwait
  signal := by
    rintro ⟨valid, reading⟩ hwait
    cases reading <;> cases hwait
  read := by
    rintro ⟨valid, reading⟩ hwait
    cases reading with
    | body pack =>
      simp only [reader, got]
      split <;> exact Nat.one_pos
    | _ => cases hwait

theorem counts : Counts reader Effect.message? := by
  refine ⟨fun s r => rfl, ?_⟩
  rintro ⟨valid, reading⟩
  cases reading <;> exact ⟨rfl, rfl⟩

/-- What the reader tells the launcher of the bytes, from the state on. -/
def messagesFrom (s : State) (bytes : Bytes) : List Message :=
  (follow productive s bytes).filterMap Effect.message?

/-- The messages in the bytes of a worker. -/
def messages (bytes : Bytes) : List Message := messagesFrom ⟨true, .header⟩ bytes

theorem messages_mono {bytes all : Bytes} (h : bytes <+: all) :
    messages bytes <+: messages all := by
  obtain ⟨more, rfl⟩ := h
  exact (follow_mono productive _ bytes more).filterMap _

/-- The message that a packet is. -/
def messageOf (p : Packet) : Option Message :=
  match p.header.type with
  | .ack => some (.ack p.header)
  | .workerResponse => some (.response p)
  | _ => none

theorem messagesFrom_header (valid : Bool) (h : PacketHeader) (rest : Bytes) :
    messagesFrom ⟨valid, .header⟩ (h.bytes ++ rest) =
      (onHeader ⟨valid, .header⟩ ⟨h, ⟨[]⟩⟩).2.filterMap Effect.message? ++
        messagesFrom (onHeader ⟨valid, .header⟩ ⟨h, ⟨[]⟩⟩).1 rest := by
  have hwait : reader.wait ⟨valid, .header⟩ = .read h.bytes.length := by
    rw [h.length_bytes]
    rfl
  rw [messagesFrom, follow_append hwait, List.filterMap_append]
  simp only [reader, got, parse_header_bytes]
  rfl

theorem messagesFrom_body (valid : Bool) (pack : Packet) {buf : Bytes} (rest : Bytes)
    (hlen : buf.length = pack.header.datasize.toNat) :
    messagesFrom ⟨valid, .body pack⟩ (buf ++ rest) =
      .response { pack with data := ⟨buf⟩ } :: messagesFrom ⟨valid, .header⟩ rest := by
  have hwait : reader.wait ⟨valid, .body pack⟩ = .read buf.length := by
    rw [hlen]
    rfl
  rw [messagesFrom, follow_append hwait]
  simp only [reader, got, parse_body hlen]
  rfl

/-- A packet in front of a stream. -/
theorem messagesFrom_packet (valid : Bool) {p : Packet} (rest : Bytes)
    (henum : p.header.type.IsEnumerator) (hsize : p.header.datasize.toNat = p.data.buf.length)
    (hconsumed : branch p.header.type = .skip → p.data.buf = []) : ∃ valid',
      messagesFrom ⟨valid, .header⟩ (p.bytes ++ rest) =
        (messageOf p).toList ++ messagesFrom ⟨valid', .header⟩ rest := by
  rw [Packet.bytes, List.append_assoc, messagesFrom_header]
  obtain ⟨⟨type, key, datasize, sequence, randomSalt⟩, ⟨buf⟩⟩ := p
  have hbody :=
    messagesFrom_body valid ⟨⟨type, key, datasize, sequence, randomSalt⟩, ⟨[]⟩⟩ rest hsize.symm
  cases type with
  | workerResponse => exact ⟨valid, hbody⟩
  | unnamed b => exact henum.elim
  | workerDereg =>
    obtain rfl : buf = [] := hconsumed rfl
    exact ⟨false, rfl⟩
  | put | get | ack | err | workerReg | workerPushRequest | trigger =>
    obtain rfl : buf = [] := hconsumed rfl
    exact ⟨valid, rfl⟩

/-- The messages of a stream of packets that leaves no body unread are the acks and the responses
among the packets. -/
theorem messages_stream {packets : List Packet}
    (hpackets : ∀ p ∈ packets, p.header.type.IsEnumerator ∧
      PacketHeader.bytesize + p.data.buf.length < 2 ^ 32)
    (hconsumed : Consumed branch packets) :
    messages (stream packets) = packets.filterMap fun p => messageOf p.sized := by
  rw [messages]
  generalize true = valid
  induction packets generalizing valid with
  | nil =>
    have hshort : (stream []).length < PacketHeader.bytesize := by decide
    rw [messagesFrom, follow_short rfl hshort]
    rfl
  | cons p packets ih =>
    obtain ⟨henum, hsize⟩ := hpackets p List.mem_cons_self
    have hdatasize : p.sized.header.datasize.toNat = p.sized.data.buf.length := by
      rw [Packet.sized_data]
      exact Packet.sized_datasize (by omega)
    obtain ⟨valid', hfirst⟩ := messagesFrom_packet valid (p := p.sized) (stream packets) henum
      hdatasize (hconsumed p List.mem_cons_self)
    have hrest := ih (fun q hq => hpackets q (List.mem_cons_of_mem p hq))
      (fun q hq => hconsumed q (List.mem_cons_of_mem p hq)) valid'
    rw [stream_cons, hfirst, hrest, List.filterMap_cons]
    cases messageOf p.sized <;> rfl

/-! ## Handlers -/

/-- The state of the reader that a handler leads to. -/
def leadsTo (ops : List Op) : Reading :=
  match ops.filterMap Op.start with
  | r :: _ => r.reading
  | [] => .stopped

/-- The handler of a read tells what the reader tells, and goes where it goes. -/
theorem told_got (s : State) (r : Read) (hs : s.reading = r.reading) (buf : Bytes) :
    (got s buf).1.reading = leadsTo (r.got buf) ∧
      (got s buf).2.filterMap Effect.message? = (r.got buf).filterMap Op.message? := by
  cases r with
  | header =>
    simp only [got, hs, Read.reading, Read.got]
    cases PacketHeader.parse buf 0 with
    | none => exact ⟨rfl, rfl⟩
    | some h =>
      obtain ⟨type, key, datasize, sequence, randomSalt⟩ := h
      cases type <;> exact ⟨rfl, rfl⟩
  | body pack =>
    simp only [got, hs, Read.reading, Read.got]
    cases PacketData.parse (BitVec.ofNat (8 * 4) buf.length) buf 0 with
    | none => exact ⟨rfl, rfl⟩
    | some data => exact ⟨rfl, rfl⟩

theorem told_failed (s : State) (r : Read) :
    (failed s).1.reading = leadsTo r.failed ∧
      (failed s).2.filterMap Effect.message? = r.failed.filterMap Op.message? := by
  obtain ⟨valid, reading⟩ := s
  cases r <;> cases reading <;> exact ⟨rfl, rfl⟩

theorem wait_reading (s : State) (r : Read) (hs : s.reading = r.reading) :
    reader.wait s = .read r.size := by
  change Worker.wait s = _
  rw [wait, hs]
  cases r <;> rfl

/-! ## Steps -/

/-- The bytes that the step brings. -/
def Session.Action.chunk : Session.Action → Bytes
  | .arrive chunk => chunk
  | .complete _ | .fail _ | .next _ => []

/-- What the step tells the launcher. -/
def Session.tells (s : Session) : Session.Action → List Message
  | .next k => ((s.loop.handlers[k]?.bind List.head?).bind Op.message?).toList
  | .arrive _ | .complete _ | .fail _ => []

/-- Where a worker is that the reader is at: it waits for the same read, or is in the handler of
it, and has still to tell what is left of that. -/
inductive Place (s : Session) (told : List Message)
    (t : ExactRead.Session State UnitT Effect) : Prop
  | listens (r : Read) (listens : s.loop.Listens r) (reading : t.state.reading = r.reading)
      (all : told = t.counted Effect.message?) : Place s told t
  | handles (ops : List Op) (handles : s.loop.Handles ops) (code : Code ops)
      (reading : t.state.reading = leadsTo ops)
      (all : told ++ ops.filterMap Op.message? = t.counted Effect.message?) : Place s told t

/-- The session of the sequential reader that the worker is. -/
structure Mirrors (s : Session) (told : List Message)
    (t : ExactRead.Session State UnitT Effect) : Prop where
  place : Place s told t
  buffer : t.buffer = s.loop.buffer

/-- The reader takes some steps, in which the bytes come in, and is again the worker. -/
def Goes (s : Session) (come : Bytes) (told : List Message)
    (t : ExactRead.Session State UnitT Effect) : Prop :=
  ∃ bs u, run (ExactRead.step reader) t bs = some u ∧ ExactRead.arrived bs = come ∧
    Mirrors s told u

theorem goes_single {s : Session} {told : List Message}
    {t u : ExactRead.Session State UnitT Effect} {a : ExactRead.Action UnitT Packet}
    (hstep : ExactRead.step reader t a = some u) (h : Mirrors s told u) :
    Goes s a.chunk told t := by
  refine ⟨[a], u, ?_, List.flatMap_singleton _ _, h⟩
  rw [run_cons, hstep]
  rfl

theorem Mirrors.arrive {s : Session} {told : List Message}
    {t : ExactRead.Session State UnitT Effect} (h : Mirrors s told t) (chunk : Bytes) :
    Goes { s with loop := s.loop.arrive chunk } chunk told t := by
  refine goes_single (a := .arrive chunk) rfl ⟨?_, congrArg (· ++ chunk) h.buffer⟩
  cases h.place with
  | listens r listens reading htold => exact .listens r (listens.arrive chunk) reading htold
  | handles ops handles code reading htold =>
    exact .handles ops (handles.arrive chunk) code reading htold

theorem Mirrors.complete {s : Session} {told : List Message}
    {t : ExactRead.Session State UnitT Effect} (h : Mirrors s told t) {i : Nat}
    {loop : Loop Read Op UnitT} (hstep : s.loop.complete program i = some loop) :
    Goes { s with loop := loop } [] told t := by
  cases h.place with
  | handles ops handles =>
    rw [handles.complete] at hstep
    cases hstep
  | listens r listens reading htold =>
    obtain ⟨r', hr, hsize, rfl⟩ := Loop.complete_some hstep
    obtain ⟨rfl, -⟩ := Loop.erase_of_listens listens hr
    obtain ⟨-, hhandles⟩ := listens.complete hstep
    have hread := step_read (wait_reading t.state r' reading) (h.buffer ▸ hsize)
    obtain ⟨hleads, htells⟩ := told_got t.state r' reading (s.loop.buffer.take r'.size)
    refine goes_single hread ⟨.handles _ hhandles (code_got r' _) ?_ ?_, ?_⟩
    · rw [h.buffer]
      exact hleads
    · rw [counted_after, h.buffer, htold]
      exact congrArg _ htells.symm
    · change t.buffer.drop _ = s.loop.buffer.drop _
      rw [h.buffer]
      rfl

theorem Mirrors.fail {s : Session} {told : List Message}
    {t : ExactRead.Session State UnitT Effect} (h : Mirrors s told t) {i : Nat}
    {loop : Loop Read Op UnitT} (hstep : s.loop.fail program i = some loop) :
    Goes { s with loop := loop } [] told t := by
  cases h.place with
  | handles ops handles =>
    rw [handles.fail] at hstep
    cases hstep
  | listens r listens reading htold =>
    have hhandles := listens.fail hstep
    obtain ⟨r', -, rfl⟩ := Loop.fail_some hstep
    obtain ⟨hleads, htells⟩ := told_failed t.state r
    have hfail : ExactRead.step reader t .fail = some (t.after t.buffer (failed t.state)) := by
      rw [ExactRead.step, wait_reading t.state r reading]
      rfl
    refine goes_single hfail ⟨.handles _ hhandles (code_failed r) hleads ?_, h.buffer⟩
    rw [counted_after, htold]
    exact congrArg _ htells.symm

theorem Mirrors.next {s : Session} {told : List Message}
    {t : ExactRead.Session State UnitT Effect} (h : Mirrors s told t) {k : Nat} {op : Op}
    {loop : Loop Read Op UnitT} (hstep : s.loop.next program k = some (op, loop)) (valid : Bool) :
    Goes ⟨valid, loop⟩ [] (told ++ op.message?.toList) t := by
  cases h.place with
  | listens r listens =>
    rw [listens.next] at hstep
    cases hstep
  | handles ops handles code reading htold =>
    obtain ⟨rest, rfl, hreads, honly⟩ := handles.next hstep
    obtain ⟨ops', hops, rfl⟩ := Loop.next_some hstep
    refine ⟨[], t, rfl, rfl, ?_, h.buffer⟩
    rw [List.filterMap_cons] at htold
    cases code with
    | start op r hstart =>
      change _ = (op.start).toList at hreads
      rw [hstart] at hreads
      refine .listens r ⟨hreads, honly⟩ ?_ ?_
      · rw [reading, leadsTo, List.filterMap_cons, hstart]
      · rw [← htold]
        cases op.message? <;> rfl
    | before op op' r hsilent hstart =>
      change _ = (op.start).toList at hreads
      rw [hsilent] at hreads
      refine .handles [op'] ⟨hreads, honly⟩ (.start op' r hstart) ?_ ?_
      · rw [reading, leadsTo, leadsTo, List.filterMap_cons, hsilent]
      · rw [← htold, List.append_assoc]
        cases op.message? <;> rfl
    | invalidate =>
      refine .handles [] ⟨hreads, honly⟩ .done reading ?_
      rw [← htold, List.append_assoc]
      rfl

/-- A worker follows every step as the reader. -/
theorem Mirrors.step {s s' : Session} {told : List Message}
    {t : ExactRead.Session State UnitT Effect} (h : Mirrors s told t) {a : Session.Action}
    (hstep : s.step a = some s') : Goes s' a.chunk (told ++ s.tells a) t := by
  cases a with
  | arrive chunk =>
    cases hstep
    rw [Session.tells, List.append_nil]
    exact h.arrive chunk
  | complete i =>
    obtain ⟨loop, hloop, rfl⟩ := Option.map_eq_some_iff.mp hstep
    rw [Session.tells, List.append_nil]
    exact h.complete hloop
  | fail i =>
    obtain ⟨loop, hloop, rfl⟩ := Option.map_eq_some_iff.mp hstep
    rw [Session.tells, List.append_nil]
    exact h.fail hloop
  | next k =>
    obtain ⟨⟨op, loop⟩, hloop, rfl⟩ := Option.map_eq_some_iff.mp hstep
    obtain ⟨ops, hops, -⟩ := Loop.next_some hloop
    have htells : s.tells (.next k) = op.message?.toList := by
      rw [Session.tells, hops]
      rfl
    rw [htells]
    exact h.next hloop _

theorem Goes.step {s s' : Session} {come : Bytes} {told : List Message}
    {t : ExactRead.Session State UnitT Effect} (h : Goes s come told t) {a : Session.Action}
    (hstep : s.step a = some s') : Goes s' (come ++ a.chunk) (told ++ s.tells a) t := by
  obtain ⟨bs, u, hbs, rfl, hu⟩ := h
  obtain ⟨cs, v, hcs, hcome, hv⟩ := hu.step hstep
  refine ⟨bs ++ cs, v, ?_, ?_, hv⟩
  · rw [run_append, hbs]
    exact hcs
  · rw [ExactRead.arrived_append, hcome]

/-! ## What was told -/

/-- The worker waits for bytes that have not come. -/
def Session.AtEnd (s : Session) : Prop := ∃ r ∈ s.loop.reads, s.loop.buffer.length < r.size

/-- A worker that the reader is at after it was given the bytes has told the first of their
messages, and all when it waits for bytes that have not come. -/
theorem Mirrors.told {s : Session} {told : List Message}
    {t : ExactRead.Session State UnitT Effect} (h : Mirrors s told t)
    {bs : List (ExactRead.Action UnitT Packet)}
    (hbs : run (ExactRead.step reader) (ExactRead.Session.start ⟨true, .header⟩) bs = some t) :
    told <+: messages (ExactRead.arrived bs) ∧
      (s.AtEnd → told = messages (ExactRead.arrived bs)) := by
  obtain ⟨hfirst, hall⟩ := run_follow productive counts hbs
  cases h.place with
  | listens r listens reading htold =>
    rw [htold]
    refine ⟨hfirst, ?_⟩
    rintro ⟨r', hr', hshort⟩
    rw [listens.1, List.mem_singleton] at hr'
    subst hr'
    apply hall
    rw [Settled, wait_reading t.state r' reading, h.buffer]
    exact hshort
  | handles ops handles code reading htold =>
    constructor
    · refine List.IsPrefix.trans ?_ hfirst
      rw [← htold]
      exact List.prefix_append _ _
    · rintro ⟨r', hr', -⟩
      rw [handles.1] at hr'
      cases hr'

end Worker

end CppSerializer
