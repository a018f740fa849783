import CppSerializer.Network.Model
import CppSerializer.Process.Reads

/-!
# What the launcher hears of a worker

However the bytes of a worker come in, and whatever else the server does, the launcher is told the
acks and the responses that are in them, each once and in order (`workers_heard`). No assumption is
made on what workers send.
-/

namespace CppSerializer.Network

open Pack Bucket ReadLoop Transition
open Launcher (JobId WorkerId)

/-! ## Bytes and messages -/

/-- What worker `w` has to read of a socket that is handed over to the worker after the first
`count`. -/
def inherits (w : WorkerId) (count : Nat) : Option (Connection × Bytes) → Bytes
  | some (_, bytes) => if count = w then bytes else []
  | none => []

/-- The bytes that the step gives to worker `w` to read. -/
def given (w : WorkerId) (n : Network) : Action → Bytes
  | .process a => inherits w n.workers.length (handsOver n.process a)
  | .arrive c chunk =>
    if (n.process.sessions[c]?.any fun s => s.moved) = true ∧ n.workerOf c = some w then chunk
    else []
  | .complete .. | .fail .. | .next .. => []

/-- The bytes that worker `w` was given. -/
def givenTo (w : WorkerId) (as : List Action) : Bytes := trace step (given w) init as

/-- What worker `w` tells the launcher in a step of the process. -/
def toldBy (w : WorkerId) : Process.Action → Option Worker.Message
  | .launcher (.ack w' header) => if w' = w then some (.ack header) else none
  | .launcher (.respond w' _ pack) => if w' = w then some (.response pack) else none
  | .launcher (.dereg ..) | .launcher (.fail ..) | .launcher (.startTriggerPost ..)
  | .launcher .addWorker | .launcher .startJobs | .launcher (.expire ..)
  | .launcher (.waited ..) | .launcher (.strand ..) | .launcher (.call ..) => none
  | .accept | .arrive .. | .complete .. | .fail .. | .next .. | .topics .. => none

/-- What worker `w` has told the launcher. -/
def told (w : WorkerId) (as : List Action) : List Worker.Message :=
  (processRun as).filterMap (toldBy w)

theorem givenTo_concat {as : List Action} {n : Network} (h : run step init as = some n)
    (w : WorkerId) (a : Action) : givenTo w (as ++ [a]) = givenTo w as ++ given w n a :=
  trace_concat h a

theorem told_concat {as : List Action} {n : Network} (h : run step init as = some n)
    (w : WorkerId) (a : Action) :
    told w (as ++ [a]) = told w as ++ (n.steps a).filterMap (toldBy w) := by
  have hsteps : processRun (as ++ [a]) = processRun as ++ n.steps a := trace_concat h a
  rw [told, hsteps, List.filterMap_append]
  rfl

theorem toldBy_eq_none {a : Process.Action} (h : madeBySocket a = false) (w : WorkerId) :
    toldBy w a = none := by
  cases a with
  | launcher l => cases l <;> first | rfl | cases h
  | _ => rfl

/-- A worker tells what its operation is. -/
theorem toldBy_launcherOf (w w' : WorkerId) (origin : Option JobId) (op : Worker.Op) :
    (((launcherOf w origin op).map Process.Action.launcher).toList.filterMap (toldBy w')) =
      if w = w' then op.message?.toList else [] := by
  have hone : ∀ a : Process.Action, [a].filterMap (toldBy w') = (toldBy w' a).toList := by
    intro a
    rw [List.filterMap_cons]
    cases toldBy w' a <;> rfl
  cases op with
  | effect e =>
    cases e with
    | parsed header =>
      rw [Worker.Op.message?, Worker.Effect.message?, Option.toList_none, ite_self]
      rfl
    | onWorkerAck pack =>
      refine (hone _).trans ?_
      rw [toldBy]
      split <;> rfl
    | onWorkerResponse pack =>
      refine (hone _).trans ?_
      rw [toldBy]
      split <;> rfl
  | invalidate | startReadHeader | startReadBody =>
    rw [Worker.Op.message?, Option.toList_none, ite_self]
    rfl

/-! ## The invariant -/

/-- The sequential reader that a worker starts as. -/
abbrev start : ExactRead.Session Worker.State UnitT Worker.Effect :=
  ExactRead.Session.start ⟨true, .header⟩

/-- Every worker is the reader of the bytes that it was given. -/
structure Heard (n : Network) (bytes : WorkerId → Bytes)
    (messages : WorkerId → List Worker.Message) : Prop where
  there : ∀ w ws, n.workers[w]? = some ws → Worker.Goes ws.session (bytes w) (messages w) start
  absent : ∀ w, n.workers.length ≤ w → bytes w = [] ∧ messages w = []

variable {n : Network} {bytes : WorkerId → Bytes} {messages : WorkerId → List Worker.Message}

/-- One worker takes a step. -/
theorem Heard.session (h : Heard n bytes messages) {w : WorkerId} {ws : WorkerSocket}
    (hws : n.workers[w]? = some ws) {a : Worker.Session.Action} {t : Worker.Session}
    (hstep : ws.session.step a = some t) (p : Process) :
    Heard ⟨p, n.workers.set w { ws with session := t }⟩
      (fun w' => bytes w' ++ if w = w' then a.chunk else [])
      (fun w' => messages w' ++ if w = w' then ws.session.tells a else []) := by
  obtain ⟨hlt, -⟩ := List.getElem?_eq_some_iff.mp hws
  constructor
  · intro w' ws' hws'
    change (n.workers.set w _)[w']? = _ at hws'
    rw [List.getElem?_set, if_pos hlt] at hws'
    split at hws'
    · rename_i hw
      subst hw
      cases hws'
      rw [if_pos rfl, if_pos rfl]
      exact (h.there w ws hws).step hstep
    · rename_i hw
      rw [if_neg hw, if_neg hw, List.append_nil, List.append_nil]
      exact h.there w' ws' hws'
  · intro w' hw'
    change (n.workers.set w _).length ≤ w' at hw'
    rw [List.length_set] at hw'
    have hne : w ≠ w' := Nat.ne_of_lt (Nat.lt_of_lt_of_le hlt hw')
    rw [if_neg hne, if_neg hne, List.append_nil, List.append_nil]
    exact h.absent w' hw'

/-- A worker is made, and reads what has come. -/
theorem Heard.addWorker (h : Heard n bytes messages) (p : Process)
    (added : Option (Connection × Bytes)) :
    Heard ⟨p, addWorker n.workers added⟩
      (fun w => bytes w ++ inherits w n.workers.length added) messages := by
  cases added with
  | none =>
    refine ⟨?_, ?_⟩
    · intro w ws hws
      rw [inherits, List.append_nil]
      exact h.there w ws hws
    · intro w hw
      rw [inherits, List.append_nil]
      exact h.absent w hw
  | some added =>
    obtain ⟨c, unread⟩ := added
    constructor
    · intro w ws hws
      change (n.workers ++ [_])[w]? = _ at hws
      rw [inherits]
      by_cases hw : n.workers.length = w
      · subst hw
        rw [List.getElem?_concat_length] at hws
        cases hws
        obtain ⟨hbytes, hmessages⟩ := h.absent _ (Nat.le_refl _)
        rw [if_pos rfl, hbytes, hmessages, List.nil_append]
        have hinit : Worker.Mirrors Worker.Session.init [] start :=
          ⟨.listens .header (Loop.listens_listening _) rfl rfl, rfl⟩
        exact hinit.arrive unread
      · have hlt : w < n.workers.length := by
          obtain ⟨hlt, -⟩ := List.getElem?_eq_some_iff.mp hws
          rw [List.length_append, List.length_singleton] at hlt
          exact Nat.lt_of_le_of_ne (Nat.le_of_lt_succ hlt) (Ne.symm hw)
        rw [List.getElem?_append_left hlt] at hws
        rw [if_neg hw, List.append_nil]
        exact h.there w ws hws
    · intro w hw
      change (n.workers ++ [_]).length ≤ w at hw
      rw [List.length_append, List.length_singleton] at hw
      rw [inherits, if_neg (Nat.ne_of_lt hw), List.append_nil]
      exact h.absent w (Nat.le_of_lt hw)

theorem Heard.congr {bytes' : WorkerId → Bytes} {messages' : WorkerId → List Worker.Message}
    (h : Heard n bytes messages) (hbytes : ∀ w, bytes' w = bytes w)
    (hmessages : ∀ w, messages' w = messages w) : Heard n bytes' messages' := by
  rw [funext hbytes, funext hmessages]
  exact h

theorem Heard.step (h : Heard n bytes messages) {m : Network} {a : Action}
    (hstep : n.step a = some m) :
    Heard m (fun w => bytes w ++ given w n a)
      (fun w => messages w ++ (n.steps a).filterMap (toldBy w)) := by
  cases step_cases hstep with
  | process a own fresh p step =>
    refine (h.addWorker p (handsOver n.process a)).congr (fun w => rfl) fun w => ?_
    rw [steps, List.filterMap_cons, toldBy_eq_none own]
    exact List.append_nil _
  | client c chunk s found here p step =>
    refine (h.addWorker p none).congr (fun w => ?_) fun w => ?_
    · rw [given, found, Option.any_some, here]
      rfl
    · rw [steps, found, Option.any_some, here]
      exact List.append_nil _
  | worker c chunk s found moved w owner ws there t step =>
    refine (h.session there step n.process).congr (fun w' => ?_) fun w' => ?_
    · rw [given, found, Option.any_some, moved, owner]
      simp only [true_and, Option.some.injEq]
      rfl
    · rw [steps, found, Option.any_some, moved, if_pos rfl, Worker.Session.tells, ite_self]
      rfl
  | complete w i ws there t step =>
    refine (h.session there step n.process).congr (fun w' => ?_) fun w' => ?_
    · rw [given, Worker.Session.Action.chunk, ite_self]
    · rw [steps, Worker.Session.tells, ite_self]
      rfl
  | fail w i ws there t step =>
    refine (h.session there step n.process).congr (fun w' => ?_) fun w' => ?_
    · rw [given, Worker.Session.Action.chunk, ite_self]
    · rw [steps, Worker.Session.tells, ite_self]
      rfl
  | next w k origin ws there op ops code t step p performed =>
    refine (h.session there step p).congr (fun w' => ?_) fun w' => ?_
    · rw [given, Worker.Session.Action.chunk, ite_self]
    · rw [steps, opOf_eq there code, Option.bind_some, toldBy_launcherOf, Worker.Session.tells,
        code]
      rfl

theorem run_heard {as : List Action} (hrun : run step init as = some n) :
    Heard n (fun w => givenTo w as) (fun w => told w as) := by
  refine run_induction
    (P := fun as n => Heard n (fun w => givenTo w as) (fun w => told w as)) ?_ ?_ as n hrun
  · refine ⟨?_, fun w _ => ⟨rfl, rfl⟩⟩
    intro w ws hws
    cases hws
  intro as n a m hn ih hm
  exact (ih.step hm).congr (fun w => givenTo_concat hn w a) fun w => told_concat hn w a

/-- What a worker has told the launcher is what it has read. -/
theorem run_told {as : List Action} {n : Network} (hrun : run step init as = some n) {w : WorkerId}
    {ws : WorkerSocket} (hws : n.workers[w]? = some ws) :
    told w as <+: Worker.messages (givenTo w as) ∧
      (ws.session.AtEnd → told w as = Worker.messages (givenTo w as)) := by
  obtain ⟨bs, t, hbs, harrived, ht⟩ := (run_heard hrun).there w ws hws
  rw [← harrived]
  exact ht.told hbs

/-- In every run the process goes through a run of its own in which each worker tells the launcher
the first of the messages that are in the bytes it was given, each once and in order, and all of
them when it waits for bytes that have not come. -/
theorem workers_heard {as : List Action} {n : Network} (hrun : run step init as = some n) :
    run Process.step Process.init (processRun as) = some n.process ∧
    ∀ w ws, n.workers[w]? = some ws →
      told w as <+: Worker.messages (givenTo w as) ∧
      (ws.session.AtEnd → told w as = Worker.messages (givenTo w as)) :=
  ⟨run_process hrun, fun _ _ hws => run_told hrun hws⟩

/-! ## A worker whose responses come in in pieces -/

def onSocket : Process.Action → Action
  | .arrive c chunk => .arrive c chunk
  | a => .process a

/-- `Process.triggersRun`, with the bytes of the worker: the first response is cut in two, and the
second comes in with the rest of it. -/
def wireRun : List Action :=
  (Process.triggersPosted 4).map onSocket ++
  [.arrive 2 ((Process.answer 1 2 65).bytes.take 20),
    .arrive 2 ((Process.answer 1 2 65).bytes.drop 20 ++ (Process.answer 4 3 66).bytes),
    .complete 0 0, .next 0 0 none, .complete 0 0, .next 0 1 (some 0), .next 0 1 none,
    .complete 0 0, .next 0 2 none, .complete 0 0, .next 0 3 (some 1), .next 0 3 none] ++
  ([Process.Action.launcher (.strand 0), .launcher (.strand 0)] ++
    (Process.callbackRun 0 2 ++ Process.callbackRun 1 2)).map Action.process

theorem wireRun_workers : ((run step init wireRun).map fun n =>
    n.workers.map fun ws => (ws.connection, ws.session.loop.reads, ws.session.loop.buffer)) =
      some [(2, [.header], [])] := by
  decide +kernel

theorem exists_wireRun : ∃ n ws, run step init wireRun = some n ∧ n.workers[0]? = some ws ∧
    ws.connection = 2 ∧ ws.session.AtEnd := by
  obtain ⟨n, hn, hworkers⟩ := Option.map_eq_some_iff.mp wireRun_workers
  obtain ⟨ws, rest, hws, hfirst, -⟩ := List.map_eq_cons_iff.mp hworkers
  simp only [Prod.mk.injEq] at hfirst
  obtain ⟨hconnection, hreads, hbuffer⟩ := hfirst
  refine ⟨n, ws, hn, ?_, hconnection, .header, ?_, ?_⟩
  · rw [hws]
    rfl
  · rw [hreads]
    exact List.mem_singleton_self _
  · rw [hbuffer]
    decide

theorem workers_heard_wireRun : ∃ n, run step init wireRun = some n ∧
    run Process.step Process.init (processRun wireRun) = some n.process ∧
    told 0 wireRun = Worker.messages (givenTo 0 wireRun) := by
  obtain ⟨n, ws, hn, hws, -, hend⟩ := exists_wireRun
  obtain ⟨hprocess, hall⟩ := workers_heard hn
  exact ⟨n, hn, hprocess, (hall 0 ws hws).2 hend⟩

end CppSerializer.Network
