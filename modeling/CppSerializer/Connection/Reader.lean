import CppSerializer.Library.ExactRead
import CppSerializer.Bucket.Model
import CppSerializer.Pack.Stream

/-!
# The readers of the server

`tcp_connection` reads a header, and then its switch decides by the type of the packet
whether the body is read before the next header; `df::worker` has a switch of its own. Both
are readers in the sense of `ExactRead`: a call of `async_read` is what they wait for, and
its handler is the callback. What a handler starts is an `Effect`.

The buffer of a body is as long as the header says. A trigger is read on only when the job
that it has made is completed; `add_worker` takes the socket away from the connection.
-/

namespace CppSerializer

open Pack ByteString ExactRead

/-! ## The connection of a client -/

namespace TcpConnection

/-- What the next handler of the connection is: that of `start_read_header`, of
`start_read_body` or of `start_trigger` with the packet, or the completion of the job; or
none, because the socket was moved to a worker, or because nobody reads any more. -/
inductive Reading
  | header
  | body (pack : Packet)
  | trigger (pack : Packet)
  | job (pack : Packet)
  | moved
  | stopped
  deriving DecidableEq

/-- What the handlers start. `parsed` records a header that was parsed. -/
inductive Effect
  | parsed (header : PacketHeader)
  | startStore (pack : Packet)
  | startLoad (pack : Packet)
  | startWrite (pack : Packet)
  | startTriggerPost (body : Bytes)
  | addWorker (pack : Packet)
  | startJobs
  deriving DecidableEq

/-- The switch of `start_read_header`. It has no default, so nothing follows a type without
a name. -/
def onHeader (pack : Packet) : Reading × List Effect :=
  match pack.header.type with
  | .put => (.body pack, [])
  | .get => (.header, [.startLoad pack])
  | .ack => (.header, [.startWrite (Bucket.response pack .ack)])
  | .workerReg => (.moved, [.addWorker pack, .startJobs])
  | .trigger => (.trigger pack, [])
  | .err | .workerDereg | .workerPushRequest | .workerResponse =>
    (.header, [.startWrite (Bucket.response pack .err)])
  | .unnamed _ => (.stopped, [])

def wait : Reading → Wait
  | .header => .read PacketHeader.bytesize
  | .body pack | .trigger pack => .read pack.header.datasize.toNat
  | .job _ => .signal
  | .moved => .handedOver
  | .stopped => .dead

/-- The handler of the read that is complete. -/
def got (reading : Reading) (buf : Bytes) : Reading × List Effect :=
  match reading with
  | .header =>
    match PacketHeader.parse buf 0 with
    | some header =>
      let (next, effects) := onHeader ⟨header, ⟨[]⟩⟩
      (next, .parsed header :: effects)
    | none => (.stopped, [])
  | .body pack =>
    match PacketData.parse (BitVec.ofNat (8 * 4) buf.length) buf 0 with
    | some data => (.header, [.startStore { pack with data := data }])
    | none => (.stopped, [])
  | .trigger pack => (.job pack, [.startTriggerPost buf])
  | .job _ | .moved | .stopped => (reading, [])

/-- The callback given to `start_trigger_post`. -/
def resumed (reading : Reading) (resp : Packet) : Reading × List Effect :=
  match reading with
  | .job _ => (.header, [.startWrite resp])
  | _ => (reading, [])

def reader : Reader Reading UnitT Packet Effect where
  wait := wait
  got := got
  resumed := resumed
  failed _ := (.stopped, [])

end TcpConnection

/-! ## The socket of a worker -/

namespace Worker

inductive Reading
  | header
  | body (pack : Packet)
  | stopped
  deriving DecidableEq

/-- The part of `df::worker` that its handlers change. -/
structure State where
  valid : Bool
  reading : Reading
  deriving DecidableEq

inductive Effect
  | parsed (header : PacketHeader)
  | onWorkerAck (pack : Packet)
  | onWorkerResponse (pack : Packet)
  deriving DecidableEq

/-- The switch of `start_read_header`. -/
def onHeader (s : State) (pack : Packet) : State × List Effect :=
  match pack.header.type with
  | .workerDereg => ({ s with valid := false, reading := .header }, [])
  | .workerResponse => ({ s with reading := .body pack }, [])
  | .ack => ({ s with reading := .header }, [.onWorkerAck pack])
  | .err | .put | .get | .workerReg | .workerPushRequest | .trigger =>
    ({ s with reading := .header }, [])
  | .unnamed _ => ({ s with reading := .stopped }, [])

def wait (s : State) : Wait :=
  match s.reading with
  | .header => .read PacketHeader.bytesize
  | .body pack => .read pack.header.datasize.toNat
  | .stopped => .dead

/-- The handler of the read that is complete. -/
def got (s : State) (buf : Bytes) : State × List Effect :=
  match s.reading with
  | .header =>
    match PacketHeader.parse buf 0 with
    | some header =>
      let (next, effects) := onHeader s ⟨header, ⟨[]⟩⟩
      (next, .parsed header :: effects)
    | none => ({ s with reading := .stopped }, [])
  | .body pack =>
    match PacketData.parse (BitVec.ofNat (8 * 4) buf.length) buf 0 with
    | some data => ({ s with reading := .header }, [.onWorkerResponse { pack with data := data }])
    | none => ({ s with reading := .stopped }, [])
  | .stopped => (s, [])

/-- An error makes the worker invalid when a header is read, but not when a body is. -/
def failed (s : State) : State × List Effect :=
  match s.reading with
  | .header => ({ s with valid := false, reading := .stopped }, [])
  | _ => ({ s with reading := .stopped }, [])

/-- A worker waits for nobody, so it is never signalled. -/
def reader : Reader State UnitT Packet Effect where
  wait := wait
  got := got
  resumed s _ := (s, [])
  failed := failed

end Worker

/-! ## Where the switches agree -/

/-- What the branch of a type does with the body: it leaves it in the stream, it reads it, or
it gives the socket away. -/
inductive Branch
  | skip
  | body
  | handOver
  deriving DecidableEq

def TcpConnection.branch : MsgT → Branch
  | .put | .trigger => .body
  | .workerReg => .handOver
  | _ => .skip

def Worker.branch : MsgT → Branch
  | .workerResponse => .body
  | _ => .skip

/-- The state has asked for the `n` bytes of a body and, when they have come, goes on to the
next header, at once or after a signal. -/
def InBody {σ ε : Type*} (R : Reader σ UnitT Packet ε) (parsed : ε → Option PacketHeader)
    (atHeader : σ → Prop) (s : σ) (n : Nat) : Prop :=
  R.wait s = .read n ∧ ∀ buf : Bytes, buf.length = n →
    (R.got s buf).2.filterMap parsed = [] ∧
    (atHeader (R.got s buf).1 ∨ R.wait (R.got s buf).1 = .signal)

/-- A reader of packets with the branches `branch`. -/
structure ReadsPackets {σ ε : Type*} (R : Reader σ UnitT Packet ε)
    (parsed : ε → Option PacketHeader) (branch : MsgT → Branch) (atHeader : σ → Prop) : Prop where
  wait_header : ∀ s, atHeader s → R.wait s = .read PacketHeader.bytesize
  parsed_header : ∀ s (h : PacketHeader), atHeader s → (R.got s h.bytes).2.filterMap parsed = [h]
  skip : ∀ s (h : PacketHeader), atHeader s → h.type.IsEnumerator → branch h.type = .skip →
    atHeader (R.got s h.bytes).1
  body : ∀ s (h : PacketHeader), atHeader s → branch h.type = .body →
    InBody R parsed atHeader (R.got s h.bytes).1 h.datasize.toNat
  handOver : ∀ s (h : PacketHeader), atHeader s → branch h.type = .handOver →
    R.wait (R.got s h.bytes).1 = .handedOver
  resumed : ∀ s r, R.wait s = .signal →
    atHeader (R.resumed s r).1 ∧ (R.resumed s r).2.filterMap parsed = []
  failed : ∀ s, R.wait (R.failed s).1 = .dead ∧ (R.failed s).2.filterMap parsed = []

def TcpConnection.Effect.parsed? : TcpConnection.Effect → Option PacketHeader
  | .parsed header => some header
  | _ => none

def Worker.Effect.parsed? : Worker.Effect → Option PacketHeader
  | .parsed header => some header
  | _ => none

theorem parse_header_bytes (h : PacketHeader) : PacketHeader.parse h.bytes 0 = some h := by
  simpa using PacketHeader.parse_bytes h []

theorem parse_body {buf : Bytes} {datasize : UIntN 4} (h : buf.length = datasize.toNat) :
    PacketData.parse (BitVec.ofNat (8 * 4) buf.length) buf 0 = some ⟨buf⟩ := by
  refine PacketData.parse_eq ?_
  rw [BitVec.toNat_ofNat, h, Nat.mod_eq_of_lt datasize.isLt]

theorem TcpConnection.readsPackets :
    ReadsPackets reader Effect.parsed? branch (· = Reading.header) where
  wait_header := by
    rintro _ rfl
    rfl
  parsed_header := by
    rintro _ ⟨type, key, datasize, sequence, randomSalt⟩ rfl
    simp only [reader, got, parse_header_bytes, onHeader]
    cases type <;> rfl
  skip := by
    rintro _ ⟨type, key, datasize, sequence, randomSalt⟩ rfl henum hbranch
    simp only [reader, got, parse_header_bytes, onHeader]
    cases type <;> first | rfl | exact False.elim henum | cases hbranch
  body := by
    rintro _ ⟨type, key, datasize, sequence, randomSalt⟩ rfl hbranch
    simp only [reader, got, parse_header_bytes, onHeader]
    cases type with
    | put =>
      refine ⟨rfl, fun buf hbuf => ?_⟩
      simp only [got, parse_body hbuf]
      exact ⟨rfl, Or.inl trivial⟩
    | trigger => exact ⟨rfl, fun buf hbuf => ⟨rfl, Or.inr rfl⟩⟩
    | _ => cases hbranch
  handOver := by
    rintro _ ⟨type, key, datasize, sequence, randomSalt⟩ rfl hbranch
    simp only [reader, got, parse_header_bytes, onHeader]
    cases type <;> first | rfl | cases hbranch
  resumed := by
    intro s r hwait
    cases s with
    | job pack => exact ⟨rfl, rfl⟩
    | _ => cases hwait
  failed _ := ⟨rfl, rfl⟩

theorem Worker.readsPackets :
    ReadsPackets reader Effect.parsed? branch (fun s => s.reading = .header) where
  wait_header := by
    intro s hs
    simp only [reader, wait, hs]
  parsed_header := by
    rintro s ⟨type, key, datasize, sequence, randomSalt⟩ hs
    simp only [reader, got, hs, parse_header_bytes, onHeader]
    cases type <;> rfl
  skip := by
    rintro s ⟨type, key, datasize, sequence, randomSalt⟩ hs henum hbranch
    simp only [reader, got, hs, parse_header_bytes, onHeader]
    cases type <;> first | rfl | exact False.elim henum | cases hbranch
  body := by
    rintro s ⟨type, key, datasize, sequence, randomSalt⟩ hs hbranch
    simp only [reader, got, hs, parse_header_bytes, onHeader]
    cases type with
    | workerResponse =>
      refine ⟨rfl, fun buf hbuf => ?_⟩
      simp only [got, parse_body hbuf]
      exact ⟨rfl, Or.inl trivial⟩
    | _ => cases hbranch
  handOver := by
    rintro s ⟨type, key, datasize, sequence, randomSalt⟩ hs hbranch
    cases type <;> cases hbranch
  resumed := by
    intro s r hwait
    obtain ⟨valid, reading⟩ := s
    cases reading <;> cases hwait
  failed := by
    rintro ⟨valid, reading⟩
    cases reading <;> exact ⟨rfl, rfl⟩

end CppSerializer
