import CppSerializer.Library.Completion
import CppSerializer.Library.Transition
import CppSerializer.Pack.Packet

/-!
# The HTTP invoker

`invoker` of `trigger.hpp`: a request goes through resolve, connect, handshake and write, each an
asynchronous operation whose completion handler starts the next one; a write that fails starts
again at the first. The handlers run on one strand, so the step function runs one of them as a
whole, or `start_post`, which any thread may call between two of them.

Of the stream only what the code asks and what it relies on is kept: whether the socket is open,
and how far the last connect has come. A socket is open from the start of a connect until it is
closed, which the timer of the stream may do; an operation that fails does not close it. The
header fields of a request are those of `httphost`, the same for all, so that a request is its
body, with a number that tells it from others.

The log holds, for every write, the stage of the connection when it was started, and the outcomes
of the writes that have completed. No step reads it.
-/

namespace CppSerializer.Trigger

open Pack Completion Transition

/-- The types of `StreamType`: `ssl_type` and `beast::tcp_stream`. -/
inductive StreamType
  | ssl
  | tcp
  deriving DecidableEq

/-- A `http::request`. -/
structure Request where
  number : Nat
  body : Bytes
  deriving DecidableEq

/-- An operation in progress. A handshake is one of the connection that it was started on. -/
inductive Op
  | resolve (req : Request)
  | connect (req : Request)
  | handshake (req : Request) (connection : Nat)
  | write (req : Request)
  | read
  deriving DecidableEq

/-- The request whose post the operation is a part of. -/
def Op.request? : Op → Option Nat
  | .resolve req | .connect req | .handshake req _ | .write req => some req.number
  | .read => none

/-- The request that the operation writes. -/
def Op.writes? : Op → Option Nat
  | .write req => some req.number
  | .resolve _ | .connect _ | .handshake _ _ | .read => none

/-- A connect, a handshake or a write. -/
def Op.usesStream : Op → Bool
  | .connect _ | .handshake _ _ | .write _ => true
  | .resolve _ | .read => false

/-- The start of a write: whether the handshake of the connection had succeeded, and whether a
connect, a handshake or a write was in progress. -/
structure WriteStart where
  request : Nat
  handshaken : Bool
  busy : Bool
  deriving DecidableEq

structure Log where
  writes : List WriteStart
  outcomes : List (Nat × Bool)
  called : List Nat
  deriving DecidableEq

/-- `invoker`, with the slots of `on_read_`, the number of requests it was given, and the
operations in progress. -/
structure Invoker where
  isOpen : Bool
  connection : Nat
  handshaken : Bool
  retried : Nat
  onRead : List Nat
  requests : Nat
  pending : List Op
  log : Log
  deriving DecidableEq

/-- `start_post` and `register_on_read` are called, with what `SSL_set_tlsext_host_name` will
return; operation `n` completes, with an error or without; the timer closes the socket. -/
inductive Action
  | registerOnRead (f : Nat)
  | startPost (body : Bytes) (tlsext : Bool)
  | complete (n : Nat) (ok tlsext : Bool)
  | close
  deriving DecidableEq

def Action.IsCompletion : Action → Prop
  | .complete _ _ _ => True
  | .registerOnRead _ | .startPost _ _ | .close => False

namespace Invoker

def init : Invoker := ⟨false, 0, false, 0, [], 0, [], ⟨[], [], []⟩⟩

/-! ## The functions -/

/-- A connect, a handshake or a write is in progress. -/
def busy (i : Invoker) : Bool := i.pending.any Op.usesStream

def start (i : Invoker) (op : Op) : Invoker := { i with pending := i.pending ++ [op] }

def startWrite (i : Invoker) (req : Request) : Invoker :=
  let w : WriteStart := ⟨req.number, i.handshaken, i.busy⟩
  { i with log := { i.log with writes := i.log.writes ++ [w] } }.start (.write req)

def startRead (i : Invoker) : Invoker := i.start .read

def startConnect (i : Invoker) (req : Request) : Invoker :=
  { i with isOpen := true, connection := i.connection + 1, handshaken := false }.start
    (.connect req)

def startResolve (T : StreamType) (tlsext : Bool) (i : Invoker) (req : Request) : Invoker :=
  if T = .ssl ∧ tlsext = false then i else i.start (.resolve req)

def startPost (T : StreamType) (tlsext : Bool) (i : Invoker) (body : Bytes) : Invoker :=
  let req : Request := ⟨i.requests, body⟩
  let i := { i with requests := i.requests + 1 }
  if i.isOpen then i.startWrite req else startResolve T tlsext i req

/-- The outcome of a write is known. -/
def outcome (i : Invoker) (req : Request) (ok : Bool) : Invoker :=
  { i with log := { i.log with outcomes := i.log.outcomes ++ [(req.number, ok)] } }

/-- The completion handler of an operation. -/
def completed (T : StreamType) (ok tlsext : Bool) (i : Invoker) : Op → Invoker
  | .resolve req => if ok then i.startConnect req else i
  | .connect req =>
    if ok then
      match T with
      | .ssl => i.start (.handshake req i.connection)
      | .tcp => i.startWrite req
    else i
  | .handshake req connection =>
    if ok then
      { i with handshaken := i.handshaken || connection == i.connection }.startWrite req
    else i
  | .write req =>
    if ok then (i.outcome req ok).startRead
    else if i.retried < 3 then
      { startResolve T tlsext (i.outcome req ok) req with retried := i.retried + 1 }
    else { i.outcome req ok with retried := 0 }
  | .read =>
    if ok then { i with onRead := [], log := { i.log with called := i.log.called ++ i.onRead } }
    else i

def step (T : StreamType) (i : Invoker) : Action → Option Invoker
  | .registerOnRead f => some { i with onRead := i.onRead ++ [f] }
  | .startPost body tlsext => some (i.startPost T tlsext body)
  | .complete n ok tlsext => (Completion.complete i.pending n).map fun x =>
    completed T ok tlsext { i with pending := x.2 } x.1
  | .close => some { i with isOpen := false }

/-! ## What one step can do -/

/-- Everything that a step can be. -/
inductive Step (T : StreamType) (i t : Invoker) : Action → Prop
  | registerOnRead (f : Nat) (after : t = { i with onRead := i.onRead ++ [f] }) :
      Step T i t (.registerOnRead f)
  | startPost (body : Bytes) (tlsext : Bool) (after : t = i.startPost T tlsext body) :
      Step T i t (.startPost body tlsext)
  | complete (n : Nat) (ok tlsext : Bool) (op : Op) (rest : List Op)
      (taken : Completion.complete i.pending n = some (op, rest))
      (after : t = completed T ok tlsext { i with pending := rest } op) :
      Step T i t (.complete n ok tlsext)
  | close (after : t = { i with isOpen := false }) : Step T i t .close

theorem step_cases {T : StreamType} {i t : Invoker} {a : Action} (h : step T i a = some t) :
    Step T i t a := by
  cases a with
  | registerOnRead f => exact .registerOnRead f (Option.some.inj h).symm
  | startPost body tlsext => exact .startPost body tlsext (Option.some.inj h).symm
  | complete n ok tlsext =>
    obtain ⟨⟨op, rest⟩, htaken, hafter⟩ := Option.map_eq_some_iff.mp h
    exact .complete n ok tlsext op rest htaken hafter.symm
  | close => exact .close (Option.some.inj h).symm

theorem step_complete {T : StreamType} {i : Invoker} {n : Nat} {op : Op} {rest : List Op}
    (h : Completion.complete i.pending n = some (op, rest)) (ok tlsext : Bool) :
    step T i (.complete n ok tlsext) =
      some (completed T ok tlsext { i with pending := rest } op) := by
  rw [step, h]
  rfl

end Invoker

end CppSerializer.Trigger
