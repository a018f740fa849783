import CppSerializer.Connection.InStep
import CppSerializer.Library.Follow

/-!
# What a stream makes the server do

`commands` is what a connection does with the bytes of its client: the headers that it parses, the
puts that it stores, the gets that it loads, the triggers that it posts. It is a function of the
bytes. For a stream of packets that leaves no body unread it is what the packets ask for, one
packet after the other, up to the first `worker_reg` (`commands_stream`); the packets after that
are left for the worker (`leaves_stream`).
-/

namespace CppSerializer

open Pack ExactRead

/-! ## Connections -/

namespace TcpConnection

/-- What is counted: all but the replies, some of which depend on workers. -/
def Effect.command? : Effect → Option Effect
  | .startWrite _ => none
  | e => some e

def Reading.rank : Reading → Nat
  | .trigger _ => 2
  | .body _ | .job _ => 1
  | .header | .moved | .stopped => 0

/-- After the completion of its job a connection reads the next header. -/
def productive : Productive reader where
  next _ := .header
  rank := Reading.rank
  resumed := by
    intro s r hwait
    cases s with
    | job pack => rfl
    | _ => cases hwait
  signal := by
    intro s hwait
    cases s with
    | job pack => exact Nat.one_pos
    | _ => cases hwait
  read := by
    intro s hwait
    cases s with
    | body pack =>
      change (got (.body pack) []).1.rank < 1
      rw [got]
      split <;> exact Nat.one_pos
    | trigger pack => exact Nat.one_lt_two
    | _ => cases hwait

theorem counts : Counts reader Effect.command? := by
  refine ⟨?_, fun s => ⟨rfl, rfl⟩⟩
  intro s r
  cases s <;> rfl

/-- What the connection does with the bytes, from the state on. -/
def commands (s : Reading) (bytes : Bytes) : List Effect :=
  (follow productive s bytes).filterMap Effect.command?

theorem wait_header (h : PacketHeader) : reader.wait .header = .read h.bytes.length := by
  rw [h.length_bytes]
  rfl

theorem wait_body {pack : Packet} {buf : Bytes} (hlen : buf.length = pack.header.datasize.toNat) :
    reader.wait (.body pack) = .read buf.length := by
  rw [hlen]
  rfl

theorem wait_trigger {pack : Packet} {buf : Bytes}
    (hlen : buf.length = pack.header.datasize.toNat) :
    reader.wait (.trigger pack) = .read buf.length := by
  rw [hlen]
  rfl

theorem commands_header (h : PacketHeader) (rest : Bytes) :
    commands .header (h.bytes ++ rest) = .parsed h ::
      (onHeader ⟨h, ⟨[]⟩⟩).2.filterMap Effect.command? ++
        commands (onHeader ⟨h, ⟨[]⟩⟩).1 rest := by
  rw [commands, follow_append (wait_header h), List.filterMap_append]
  simp only [reader, got, parse_header_bytes]
  rfl

theorem commands_body (pack : Packet) {buf : Bytes} (rest : Bytes)
    (hlen : buf.length = pack.header.datasize.toNat) :
    commands (.body pack) (buf ++ rest) =
      .startStore { pack with data := ⟨buf⟩ } :: commands .header rest := by
  rw [commands, follow_append (wait_body hlen)]
  simp only [reader, got, parse_body hlen]
  rfl

theorem commands_trigger (pack : Packet) {buf : Bytes} (rest : Bytes)
    (hlen : buf.length = pack.header.datasize.toNat) :
    commands (.trigger pack) (buf ++ rest) =
      .startTriggerPost buf :: commands .header rest := by
  rw [commands, follow_append (wait_trigger hlen)]
  have hjob : follow productive (.job pack) rest = follow productive .header rest :=
    follow_signal rfl rest
  change (Effect.startTriggerPost buf :: follow productive (.job pack) rest).filterMap _ = _
  rw [hjob]
  rfl

theorem commands_mono (s : Reading) {bytes all : Bytes} (h : bytes <+: all) :
    commands s bytes <+: commands s all := by
  obtain ⟨more, rfl⟩ := h
  exact (follow_mono productive s bytes more).filterMap _

/-- What a packet asks for. -/
def commandsOf (p : Packet) : List Effect :=
  .parsed p.header :: match p.header.type with
    | .put => [.startStore p]
    | .get => [.startLoad { p with data := ⟨[]⟩ }]
    | .trigger => [.startTriggerPost p.data.buf]
    | .workerReg => [.addWorker { p with data := ⟨[]⟩ }, .startJobs]
    | .ack | .err | .workerDereg | .workerPushRequest | .workerResponse | .unnamed _ => []

/-- A packet in front of a stream. -/
theorem commands_packet {p : Packet} (rest : Bytes) (henum : p.header.type.IsEnumerator)
    (hsize : p.header.datasize.toNat = p.data.buf.length)
    (hconsumed : branch p.header.type = .skip → p.data.buf = []) :
    commands .header (p.bytes ++ rest) = commandsOf p ++
      if branch p.header.type = .handOver then [] else commands .header rest := by
  rw [Packet.bytes, List.append_assoc, commands_header]
  obtain ⟨⟨type, key, datasize, sequence, randomSalt⟩, ⟨buf⟩⟩ := p
  have hbody := commands_body ⟨⟨type, key, datasize, sequence, randomSalt⟩, ⟨[]⟩⟩ rest hsize.symm
  have htrigger :=
    commands_trigger ⟨⟨type, key, datasize, sequence, randomSalt⟩, ⟨[]⟩⟩ rest hsize.symm
  have hmoved : commands .moved (buf ++ rest) = [] := by
    rw [commands, follow_stop (Or.inl rfl), List.filterMap_nil]
  cases type with
  | put => exact congrArg _ hbody
  | trigger => exact congrArg _ htrigger
  | workerReg => exact congrArg (_ :: _ :: _ :: ·) hmoved
  | unnamed b => exact henum.elim
  | get | ack | err | workerDereg | workerPushRequest | workerResponse =>
    obtain rfl : buf = [] := hconsumed rfl
    rfl

/-- What the packets ask for, up to the first that gives the socket away. -/
theorem commands_stream {packets : List Packet}
    (hpackets : ∀ p ∈ packets, p.header.type.IsEnumerator ∧
      PacketHeader.bytesize + p.data.buf.length < 2 ^ 32)
    (hconsumed : Consumed branch packets) :
    commands .header (stream packets) =
      (upTo branch packets).flatMap fun p => commandsOf p.sized := by
  induction packets with
  | nil =>
    have hshort : (stream []).length < PacketHeader.bytesize := by decide
    rw [commands, follow_short rfl hshort]
    rfl
  | cons p packets ih =>
    have hrest := ih (fun q hq => hpackets q (List.mem_cons_of_mem p hq))
      (fun q hq => hconsumed q (List.mem_cons_of_mem p hq))
    obtain ⟨henum, hsize⟩ := hpackets p List.mem_cons_self
    have hdatasize : p.sized.header.datasize.toNat = p.sized.data.buf.length := by
      rw [Packet.sized_data]
      exact Packet.sized_datasize (by omega)
    rw [stream_cons, commands_packet (p := p.sized) (stream packets) henum hdatasize
      (hconsumed p List.mem_cons_self), upTo]
    change commandsOf p.sized ++ (if branch p.header.type = .handOver then _ else _) = _
    split
    · rw [List.append_nil, List.flatMap_singleton]
    · rw [hrest, List.flatMap_cons]

/-! ## What is left for a worker -/

/-- What the connection leaves of the bytes: what the worker reads, if it gives its socket away. -/
def leaves (bytes : Bytes) : Bytes := unread productive .header bytes

theorem unread_header (h : PacketHeader) (rest : Bytes) :
    unread productive .header (h.bytes ++ rest) =
      unread productive (onHeader ⟨h, ⟨[]⟩⟩).1 rest := by
  rw [unread_append (wait_header h)]
  simp only [reader, got, parse_header_bytes]

/-- A packet that keeps the socket leaves what is left of the rest. -/
theorem leaves_packet {p : Packet} (rest : Bytes) (henum : p.header.type.IsEnumerator)
    (hsize : p.header.datasize.toNat = p.data.buf.length)
    (hconsumed : branch p.header.type = .skip → p.data.buf = [])
    (hkept : branch p.header.type ≠ .handOver) : leaves (p.bytes ++ rest) = leaves rest := by
  rw [leaves, Packet.bytes, List.append_assoc, unread_header]
  obtain ⟨⟨type, key, datasize, sequence, randomSalt⟩, ⟨buf⟩⟩ := p
  have hlen : buf.length = datasize.toNat := hsize.symm
  cases type with
  | put =>
    refine (unread_append (wait_body hlen) rest).trans ?_
    simp only [reader, got, parse_body hlen]
    rfl
  | trigger =>
    refine (unread_append (wait_trigger hlen) rest).trans ?_
    exact unread_signal rfl rest
  | workerReg => exact absurd rfl hkept
  | unnamed b => exact henum.elim
  | get | ack | err | workerDereg | workerPushRequest | workerResponse =>
    obtain rfl : buf = [] := hconsumed rfl
    rfl

/-- The packets of a client that becomes a worker: it sends some requests, registers, and is a
worker from then on. -/
structure Registers (before : List Packet) (reg : Packet) (after : List Packet) : Prop where
  packets : ∀ p ∈ before ++ reg :: after, p.header.type.IsEnumerator ∧
    PacketHeader.bytesize + p.data.buf.length < 2 ^ 32
  kept : Kept branch before
  consumed : Consumed branch before
  type : reg.header.type = .workerReg
  empty : reg.data.buf = []
  answers : Consumed Worker.branch after

theorem Registers.tail {p reg : Packet} {before after : List Packet}
    (h : Registers (p :: before) reg after) : Registers before reg after where
  packets q hq := h.packets q (List.mem_cons_of_mem p hq)
  kept q hq := h.kept q (List.mem_cons_of_mem p hq)
  consumed q hq := h.consumed q (List.mem_cons_of_mem p hq)
  type := h.type
  empty := h.empty
  answers := h.answers

/-- The worker is left the packets after the first `worker_reg`. -/
theorem leaves_stream {before after : List Packet} {reg : Packet}
    (h : Registers before reg after) :
    leaves (stream (before ++ reg :: after)) = stream after := by
  induction before with
  | nil =>
    rw [List.nil_append, stream_cons, leaves, Packet.bytes, List.append_assoc, unread_header,
      Packet.sized_data, h.empty]
    have htype : reg.sized.header.type = .workerReg := h.type
    have hmoved : (onHeader ⟨reg.sized.header, ⟨[]⟩⟩).1 = .moved := by
      simp only [onHeader, htype]
    rw [hmoved]
    exact unread_stop (Or.inl rfl) _
  | cons p before ih =>
    obtain ⟨henum, hsize⟩ := h.packets p List.mem_cons_self
    have hdatasize : p.sized.header.datasize.toNat = p.sized.data.buf.length := by
      rw [Packet.sized_data]
      exact Packet.sized_datasize (by omega)
    rw [List.cons_append, stream_cons, leaves_packet (p := p.sized) _ henum hdatasize
      (h.consumed p List.mem_cons_self) (h.kept p List.mem_cons_self)]
    exact ih h.tail

end TcpConnection

end CppSerializer
