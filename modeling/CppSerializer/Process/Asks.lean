import CppSerializer.Launcher.Asks
import CppSerializer.Process.Components
import CppSerializer.Process.Rest

/-!
# The headers that ask for workers

Only headers make the server call `start_jobs`: a trigger once, when its body has come, and a
`worker_reg` twice, in `add_worker` and after it. So for a trigger the launcher asks for one worker
at most, and for a `worker_reg` for two (`run_wakeups`).
-/

namespace CppSerializer.Process

open Pack Bucket ReadLoop TcpConnection Transition Work

/-! ## Calls and headers -/

/-- The calls that a header of the type leads to. -/
def headerCalls : MsgT → Nat
  | .trigger => 1
  | .workerReg => 2
  | .err | .put | .get | .ack | .workerDereg | .workerPushRequest | .workerResponse
  | .unnamed _ => 0

/-- The calls that the headers of a connection lead to. -/
def Session.asks (s : Session) : Nat := weight (fun q => headerCalls q.header.type) s.requests

/-- The calls that all headers lead to. -/
def asks (p : Process) : Nat := weight Session.asks p.sessions

end CppSerializer.Process
