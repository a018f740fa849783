import CppSerializer.Library.AsyncWrite
import CppSerializer.Library.Transition
import CppSerializer.Pack.Layout
import Mathlib.Data.List.Permutation

/-!
# What `start_write` puts on the wire

`tcp_connection` and `df::worker` start an `async_write` for every packet at once: the strand
that they name is bound to the completion handler, and nothing makes a write wait for those
that were started before it. Packets stand whole on the wire in the runs in which nevertheless
every write sends only when all others have sent nothing or everything (`wire_whole`). Two
acks on one connection can be interleaved otherwise (`interleaved_acks`).
-/

namespace CppSerializer

open Pack AsyncWrite Transition

abbrev Wire := Socket UnitT

/-- `tcp_connection::start_write`. -/
def TcpConnection.startWrite (socket : Wire) (pack : Packet) : Option Wire :=
  pack.serialize.map fun (_, buf) => socket.asyncWrite buf

/-- `worker::start_write`. -/
def Worker.startWrite (socket : Wire) (pack : Packet) : Option Wire :=
  pack.serialize.map fun (_, buf) => socket.asyncWrite buf

/-- `worker::start_post`. -/
def Worker.startPost (socket : Wire) (pack : Packet) : Option Wire :=
  Worker.startWrite socket pack

namespace Wire

/-- A packet is given to the socket, or write `i` sends its next `n` bytes. -/
inductive Action
  | start (pack : Packet)
  | send (i n : Nat)
  deriving DecidableEq

/-- One step of a socket whose packets go through `start`. -/
def step (start : Wire → Packet → Option Wire) (s : Wire) : Action → Option Wire
  | .start pack => start s pack
  | .send i n => s.send i n

/-- The `serialize()` output of a packet given to the socket. -/
def Action.output : Action → Option Bytes
  | .start pack => pack.serialize.map Prod.snd
  | .send _ _ => none

/-- The two ways of the server to give a packet to a socket. -/
inductive IsStart : (Wire → Packet → Option Wire) → Prop
  | connection : IsStart TcpConnection.startWrite
  | worker : IsStart Worker.startPost

theorem IsStart.spec {start : Wire → Packet → Option Wire} (h : IsStart start) (s : Wire)
    (pack : Packet) : start s pack = (pack.serialize.map Prod.snd).map s.asyncWrite := by
  rw [Option.map_map]
  cases h with
  | connection => rfl
  | worker => rfl

/-- The condition on the state before a send: every other write has sent nothing, or
everything. -/
def SendsAlone (s : Wire) : Action → Prop
  | .send i _ => s.Alone i
  | .start _ => True

instance (s : Wire) (a : Action) : Decidable (SendsAlone s a) :=
  match a with
  | .send i _ => inferInstanceAs (Decidable (s.Alone i))
  | .start _ => .isTrue trivial

variable {start : Wire → Packet → Option Wire}

theorem run_buffers (hstart : IsStart start) {as : List Action} {s : Wire}
    (hrun : run (step start) Socket.empty as = some s) :
    s.buffers = as.filterMap Action.output := by
  refine run_induction (P := fun as s => s.buffers = as.filterMap Action.output) rfl ?_ as s hrun
  intro as s a t _ ih ht
  rw [List.filterMap_append, ← ih]
  cases a with
  | start pack =>
    rw [step, hstart.spec] at ht
    obtain ⟨buf, hbuf, rfl⟩ := Option.map_eq_some_iff.mp ht
    rw [Socket.buffers_asyncWrite, List.filterMap_cons, Action.output, hbuf]
    rfl
  | send i n =>
    rw [Socket.buffers_send ht]
    simp [Action.output]

/-- When every write sends alone and all are complete, the bytes on the wire are the outputs of
`serialize` of all the packets, one whole output behind the other in some order. -/
theorem wire_whole (hstart : IsStart start) {as : List Action} {s : Wire}
    (hrun : run (step start) Socket.empty as = some s)
    (halone : Guarded (step start) SendsAlone Socket.empty as) (hcomplete : s.Complete) :
    ∃ order : List Bytes, order.Perm (as.filterMap Action.output) ∧ s.wire = order.flatten := by
  have hinTurn : s.InTurn := by
    refine run_guarded (G := SendsAlone) Socket.inTurn_empty ?_ hrun halone
    intro s a t hs hguard ht
    cases a with
    | start pack =>
      rw [step, hstart.spec] at ht
      obtain ⟨buf, -, rfl⟩ := Option.map_eq_some_iff.mp ht
      exact hs.asyncWrite buf
    | send i n => exact hs.send hguard ht
  rw [← run_buffers hstart hrun]
  exact hinTurn.wire hcomplete

/-! ## Two acks -/

/-- The ack of a put whose key consists of `b`. -/
def ackOf (b : UnitT) : Packet :=
  { header := {
      type := .ack, key := List.Vector.replicate 32 b, datasize := 0
      sequence := List.Vector.replicate 4 1, randomSalt := List.Vector.replicate 4 1 }
    data := ⟨[]⟩ }

/-- The first ack sends a byte, then the second is sent, and then the rest of the first. -/
def interleavedRun : List Action :=
  [.start (ackOf 7), .start (ackOf 8), .send 0 1, .send 1 45, .send 0 44]

/-- The same acks, in turn. -/
def inTurnRun : List Action :=
  [.start (ackOf 7), .start (ackOf 8), .send 1 45, .send 0 1, .send 0 44]

theorem interleavedRun_end :
    (run (step TcpConnection.startWrite) Socket.empty interleavedRun).map (fun s =>
      (s.writes.map Write.remaining, s.wire)) = some ([[], []],
        (ackOf 7).bytes.take 1 ++ (ackOf 8).bytes ++ (ackOf 7).bytes.drop 1) := by
  decide +kernel

theorem interleaved_acks : ¬ ∀ start, IsStart start → ∀ as s,
    run (step start) Socket.empty as = some s → s.Complete →
      ∃ order : List Bytes, order.Perm (as.filterMap Action.output) ∧ s.wire = order.flatten := by
  intro hall
  obtain ⟨s, hs, hend⟩ := Option.map_eq_some_iff.mp interleavedRun_end
  obtain ⟨hremaining, hwire⟩ := Prod.mk.inj hend
  have hcomplete : s.Complete := by
    intro w hw
    have hmem : w.remaining ∈ s.writes.map Write.remaining := List.mem_map_of_mem hw
    rw [hremaining] at hmem
    simpa using hmem
  have houtputs : interleavedRun.filterMap Action.output =
      [(ackOf 7).bytes, (ackOf 8).bytes] := by decide +kernel
  obtain ⟨order, hperm, hflat⟩ :=
    hall TcpConnection.startWrite .connection interleavedRun s hs hcomplete
  rw [houtputs, List.perm_pair] at hperm
  rw [hwire] at hflat
  rcases hperm with rfl | rfl
  · exact absurd hflat (by decide +kernel)
  · exact absurd hflat (by decide +kernel)

theorem wire_whole_inTurnRun :
    ∃ s, run (step TcpConnection.startWrite) Socket.empty inTurnRun = some s ∧
      ∃ order : List Bytes, order.Perm (inTurnRun.filterMap Action.output) ∧
        s.wire = order.flatten := by
  have hend : (run (step TcpConnection.startWrite) Socket.empty inTurnRun).map
      (fun s => s.writes.map Write.remaining) = some [[], []] := by
    decide +kernel
  obtain ⟨s, hs, hremaining⟩ := Option.map_eq_some_iff.mp hend
  have hcomplete : s.Complete := by
    intro w hw
    have hmem : w.remaining ∈ s.writes.map Write.remaining := List.mem_map_of_mem hw
    rw [hremaining] at hmem
    simpa using hmem
  have halone : Guarded (step TcpConnection.startWrite) SendsAlone Socket.empty inTurnRun :=
    guarded_of_check (by decide +kernel)
  exact ⟨s, hs, wire_whole .connection hs halone hcomplete⟩

end Wire

end CppSerializer
