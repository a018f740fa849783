import CppSerializer.Library.ReadLoop
import CppSerializer.Connection.Reader

/-!
# The handlers of a connection

`tcp_connection` with its handlers operation by operation, and with the reads that they start. A
request is known by a number, as its packet is by the pointer that the handlers hand on.
`got_eq_apply` says that a handler in one piece is what `TcpConnection.reader` does.
-/

namespace CppSerializer.TcpConnection

open Pack ExactRead ReadLoop

/-- An `async_read`: of `start_read_header`, or of `start_read_body` or `start_trigger` for a
request. -/
inductive Read
  | header
  | body (request : Nat) (pack : Packet)
  | trigger (request : Nat) (pack : Packet)
  deriving DecidableEq

/-- The operations of the handlers. `callback` is the `start_write` of the function that
`start_trigger` gives to the launcher. -/
inductive Op
  | effect (request : Nat) (e : Effect)
  | callback (resp : Packet)
  | startReadHeader
  | startReadBody (request : Nat) (pack : Packet)
  | startTrigger (request : Nat) (pack : Packet)
  deriving DecidableEq

/-- The switch of `start_read_header`. -/
def headerCode (request : Nat) (pack : Packet) : List Op :=
  match pack.header.type with
  | .put => [.startReadBody request pack]
  | .get => [.effect request (.startLoad pack), .startReadHeader]
  | .ack => [.effect request (.startWrite (Bucket.response pack .ack)), .startReadHeader]
  | .workerReg => [.effect request (.addWorker pack), .effect request .startJobs]
  | .trigger => [.startTrigger request pack]
  | .err | .workerDereg | .workerPushRequest | .workerResponse =>
    [.effect request (.startWrite (Bucket.response pack .err)), .startReadHeader]
  | .unnamed _ => []

/-- The function given to `start_trigger_post`. -/
def callbackCode (resp : Packet) : List Op := [.callback resp, .startReadHeader]

def Read.size : Read → Nat
  | .header => PacketHeader.bytesize
  | .body _ pack | .trigger _ pack => pack.header.datasize.toNat

/-- The handler of a read that is complete. A header that it parses becomes the request
`request`. -/
def Read.got (request : Nat) (r : Read) (buf : Bytes) : List Op :=
  match r with
  | .header =>
    match PacketHeader.parse buf 0 with
    | some h => headerCode request ⟨h, ⟨[]⟩⟩
    | none => []
  | .body request pack =>
    match PacketData.parse (BitVec.ofNat (8 * 4) buf.length) buf 0 with
    | some data => [.effect request (.startStore { pack with data := data }), .startReadHeader]
    | none => []
  | .trigger request _ => [.effect request (.startTriggerPost buf)]

def Op.start : Op → Option Read
  | .startReadHeader => some .header
  | .startReadBody request pack => some (.body request pack)
  | .startTrigger request pack => some (.trigger request pack)
  | .effect _ _ | .callback _ => none

/-- The read loop. A read that has failed is only logged. -/
def program (request : Nat) : Program Read Op UnitT :=
  ⟨Read.size, Read.got request, fun _ => [], Op.start⟩

/-! ## Handlers in one piece -/

/-- What an operation does to what the connection waits for, and what it makes others do. -/
def Op.apply (r : Wait × List Effect) : Op → Wait × List Effect
  | .effect _ (.startTriggerPost body) => (.signal, r.2 ++ [.startTriggerPost body])
  | .effect _ (.addWorker pack) => (.handedOver, r.2 ++ [.addWorker pack])
  | .effect _ e => (r.1, r.2 ++ [e])
  | .callback resp => (r.1, r.2 ++ [.startWrite resp])
  | .startReadHeader => (.read PacketHeader.bytesize, r.2)
  | .startReadBody _ pack | .startTrigger _ pack => (.read pack.header.datasize.toNat, r.2)

def Read.reading : Read → Reading
  | .header => .header
  | .body _ pack => .body pack
  | .trigger _ pack => .trigger pack

theorem wait_reading (r : Read) : wait r.reading = .read r.size := by
  cases r <;> rfl

/-- `TcpConnection.reader` performs the whole handler in one step. -/
theorem got_eq_apply (request : Nat) (r : Read) (buf : Bytes) :
    wait (got r.reading buf).1 = ((r.got request buf).foldl Op.apply (.dead, [])).1 ∧
    (got r.reading buf).2.filter (fun e => (Effect.parsed? e).isNone) =
      ((r.got request buf).foldl Op.apply (.dead, [])).2 := by
  cases r with
  | header =>
    simp only [Read.reading, got, Read.got]
    cases PacketHeader.parse buf 0 with
    | none => exact ⟨rfl, rfl⟩
    | some h =>
      obtain ⟨type, key, datasize, sequence, randomSalt⟩ := h
      cases type <;> exact ⟨rfl, rfl⟩
  | body request pack =>
    simp only [Read.reading, got, Read.got]
    cases PacketData.parse (BitVec.ofNat (8 * 4) buf.length) buf 0 with
    | none => exact ⟨rfl, rfl⟩
    | some data => exact ⟨rfl, rfl⟩
  | trigger request pack => exact ⟨rfl, rfl⟩

theorem resumed_eq_apply (pack resp : Packet) :
    (wait (resumed (.job pack) resp).1, (resumed (.job pack) resp).2) =
      (callbackCode resp).foldl Op.apply (.dead, []) := rfl

end CppSerializer.TcpConnection
