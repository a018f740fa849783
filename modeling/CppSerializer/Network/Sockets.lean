import CppSerializer.Network.Heard
import CppSerializer.Process.Stream

/-!
# Sockets that are handed over

The bytes on a socket are read by the connection first, and by the worker from `add_worker` on.
Nothing is lost in between, nothing is read twice, and it does not matter how much had come when
the socket was moved: the worker reads what the connection has left (`workers_follow`). So the
launcher hears the acks and the responses that follow the `worker_reg` on the wire
(`worker_streams`).
-/

namespace CppSerializer.Network

open Pack Bucket ReadLoop TcpConnection Transition
open Launcher (JobId WorkerId)

/-! ## One connection -/

/-- What a step of the process does to the socket of a connection: it goes to a worker, with what
was not read of it, or it stays where it was. A socket that is with a worker is left alone. -/
inductive SocketStep (p : Process) (a : Process.Action) (c : Connection)
    (s s' : Process.Session) : Prop
  | handed (bytes : Bytes) (hands : handsOver p a = some (c, bytes)) (moved : s'.moved = true)
      (fresh : s.moved = false → bytes = s.loop.buffer) (buffer : s'.loop.buffer = s.loop.buffer)
  | stays (hands : ∀ bytes, handsOver p a ≠ some (c, bytes)) (moved : s'.moved = s.moved)
      (buffer : s.moved = true → s'.loop.buffer = s.loop.buffer)

theorem SocketStep.quiet {p : Process} {a : Process.Action} {c : Connection}
    {s s' : Process.Session} (hnone : handsOver p a = none) (hmoved : s'.moved = s.moved)
    (hbuffer : s.moved = true → s'.loop.buffer = s.loop.buffer) : SocketStep p a c s s' := by
  refine .stays ?_ hmoved hbuffer
  intro bytes hands
  rw [hnone] at hands
  cases hands

theorem handsOver_next {p : Process} {c : Connection} {s : Process.Session}
    (hs : p.sessions[c]? = some s) {k : Nat} {op : Op} {ops : List Op}
    (hcode : s.loop.handlers[k]? = some (op :: ops)) (randomSalt sequence : List.Vector UnitT 4) :
    handsOver p (.next c k randomSalt sequence) =
      if Process.moves op then some (c, if s.moved then [] else s.loop.buffer) else none := by
  simp only [handsOver, hs, hcode, Option.bind_eq_bind, Option.bind_some, List.head?_cons]

/-- A socket is handed over by a handler of its connection that calls `add_worker`. -/
theorem handsOver_some {p : Process} {a : Process.Action} {c : Connection} {bytes : Bytes}
    (h : handsOver p a = some (c, bytes)) : a.connection? = some c ∧
      ∃ (s : Process.Session) (k : Nat) (op : Op) (ops : List Op), p.sessions[c]? = some s ∧
        s.loop.handlers[k]? = some (op :: ops) ∧ Process.moves op = true := by
  cases a with
  | next c₀ k randomSalt sequence =>
    simp only [handsOver, Option.bind_eq_bind, Option.bind_eq_some_iff] at h
    obtain ⟨s, hs, op, ⟨code, hcode, hhead⟩, h⟩ := h
    obtain ⟨ops, rfl⟩ := List.head?_eq_some_iff.mp hhead
    split at h
    · rename_i hmoves
      cases h
      exact ⟨rfl, s, k, op, ops, hs, hcode, hmoves⟩
    · cases h
  | accept | arrive | complete | fail | topics | launcher => cases h

/-- `add_worker` hands the socket over, and no other operation does. -/
theorem socket_next {p : Process} {c : Connection} {s : Process.Session}
    (hs : p.sessions[c]? = some s) {k : Nat} {op : Op} {ops : List Op}
    (hcode : s.loop.handlers[k]? = some (op :: ops)) (randomSalt sequence : List.Vector UnitT 4) :
    SocketStep p (.next c k randomSalt sequence) c s (Process.Session.performed { s with
      loop := { s.loop with
        reads := s.loop.reads ++ op.start.toList
        handlers := s.loop.handlers.set k ops } } op) := by
  have hhands := handsOver_next hs hcode randomSalt sequence
  cases hmoves : Process.moves op with
  | true =>
    rw [hmoves, if_pos rfl] at hhands
    refine .handed _ hhands ?_ ?_ rfl
    · change (s.moved || Process.moves op) = true
      rw [hmoves, Bool.or_true]
    · intro hmoved
      rw [hmoved, if_neg Bool.false_ne_true]
  | false =>
    rw [hmoves, if_neg Bool.false_ne_true] at hhands
    refine .quiet hhands ?_ fun _ => rfl
    change (s.moved || Process.moves op) = s.moved
    rw [hmoves, Bool.or_false]

theorem socket_of_step {p q : Process} {a : Process.Action} (h : p.step a = some q)
    (harrive : ∀ c chunk, a ≠ .arrive c chunk) (hfresh : readsMoved p a = false) {c : Connection}
    {s : Process.Session} (hs : p.sessions[c]? = some s) :
    ∃ s', q.sessions[c]? = some s' ∧ SocketStep p a c s s' := by
  obtain ⟨s', hs', hstep⟩ := Process.sessionStep h hs
  refine ⟨s', hs', ?_⟩
  cases hstep with
  | stays a other jobs =>
    exact .stays (fun bytes hands => other (handsOver_some hands).1) rfl fun _ => rfl
  | arrive chunk => exact absurd rfl (harrive c chunk)
  | complete i r outstanding size jobs =>
    rw [readsMoved, hs] at hfresh
    have hhere : s.moved = false := hfresh
    refine .quiet rfl rfl fun hmoved => ?_
    rw [hhere] at hmoved
    cases hmoved
  | next k randomSalt sequence op ops code performed => exact socket_next hs code _ _
  | fail | topics | callback => exact .quiet rfl rfl fun _ => rfl

/-- Only a connection that has its socket gives it away. -/
theorem here_of_handsOver {p : Process} (hone : Process.OneReader p) {a : Process.Action}
    {c : Connection} {bytes : Bytes} (h : handsOver p a = some (c, bytes)) :
    ∃ s, p.sessions[c]? = some s ∧ s.moved = false := by
  obtain ⟨-, s, k, op, ops, hs, hcode, hmoves⟩ := handsOver_some h
  refine ⟨s, hs, ?_⟩
  have hpassing : op ∈ s.passing := by
    refine List.mem_flatMap.mpr ⟨_, List.mem_of_getElem? hcode, ?_⟩
    refine List.mem_filter.mpr ⟨List.mem_cons_self, ?_⟩
    rw [Process.passes, hmoves, Bool.or_true]
  have hpos := List.length_pos_of_mem hpassing
  have htokens := hone.one c s hs
  rw [Process.tokens] at htokens
  exact Bool.toNat_eq_zero.mp (by omega)

/-! ## All sockets -/

/-- The bytes that the step brings to the socket of the connection. -/
def arrival (c : Connection) : Action → Bytes
  | .arrive c₀ chunk => if c₀ = c then chunk else []
  | .process _ | .complete .. | .fail .. | .next .. => []

/-- The bytes that have come in on the socket. -/
def received (c : Connection) (as : List Action) : Bytes := as.flatMap (arrival c)

/-- Where the bytes are that have come in on the sockets: with the connection, as long as it has
its socket; then what it has not read and what has come since are with the worker. `owners` are the
connections whose sockets the workers have. -/
structure Sockets (p : Process) (owners : List Connection) (come forProcess : Connection → Bytes)
    (forWorker : WorkerId → Bytes) : Prop where
  here : ∀ (c : Connection) s, p.sessions[c]? = some s → s.moved = false →
    come c = forProcess c ∧ c ∉ owners
  moved : ∀ (w : Nat) c, owners[w]? = some c → ∃ s late, p.sessions[c]? = some s ∧
    s.moved = true ∧ come c = forProcess c ++ late ∧ forWorker w = s.loop.buffer ++ late
  owned : ∀ (c : Connection) s, p.sessions[c]? = some s → s.moved = true → c ∈ owners
  absent : ∀ c : Connection, p.sessions[c]? = none → come c = [] ∧ forProcess c = []
  distinct : owners.Nodup
  fresh : ∀ w : Nat, owners.length ≤ w → forWorker w = []

variable {p q : Process} {owners : List Connection} {come forProcess : Connection → Bytes}
  {forWorker : WorkerId → Bytes}

/-- The process is given the first of the bytes. -/
theorem Sockets.process_first (h : Sockets p owners come forProcess forWorker) (c : Connection) :
    forProcess c <+: come c := by
  cases hs : p.sessions[c]? with
  | none =>
    rw [(h.absent c hs).2]
    exact List.nil_prefix
  | some s =>
    cases hmoved : s.moved with
    | false => rw [(h.here c s hs hmoved).1]
    | true =>
      obtain ⟨w, hw⟩ := List.getElem?_of_mem (h.owned c s hs hmoved)
      obtain ⟨s', late, -, -, hcome, -⟩ := h.moved w c hw
      rw [hcome]
      exact List.prefix_append _ _

section Process

variable {a : Process.Action}

/-- A connection that still has its socket after the step had it before. -/
theorem Sockets.here_step (h : Sockets p owners come forProcess forWorker)
    (hone : Process.OneReader p) (hstep : p.step a = some q)
    (harrive : ∀ c chunk, a ≠ .arrive c chunk) (hfresh : readsMoved p a = false)
    {c : Connection} {s' : Process.Session} (hs' : q.sessions[c]? = some s')
    (hmoved : s'.moved = false) :
    (come c = forProcess c ∧ c ∉ owners) ∧ ∀ bytes, handsOver p a ≠ some (c, bytes) := by
  cases hs : p.sessions[c]? with
  | some s =>
    obtain ⟨t, ht, hsocket⟩ := socket_of_step hstep harrive hfresh hs
    rw [hs'] at ht
    cases ht
    cases hsocket with
    | handed bytes hands moved =>
      rw [hmoved] at moved
      cases moved
    | stays hands moved => exact ⟨h.here c s hs (moved.symm.trans hmoved), hands⟩
  | none =>
    obtain ⟨hcome, hprocess⟩ := h.absent c hs
    refine ⟨⟨hcome.trans hprocess.symm, ?_⟩, ?_⟩
    · intro hmem
      obtain ⟨w, hw⟩ := List.getElem?_of_mem hmem
      obtain ⟨s, late, hsome, -⟩ := h.moved w c hw
      rw [hs] at hsome
      cases hsome
    · intro bytes hands
      obtain ⟨s, hsome, -⟩ := here_of_handsOver hone hands
      rw [hs] at hsome
      cases hsome

/-- The socket that a worker has stays as it was. -/
theorem Sockets.moved_step (h : Sockets p owners come forProcess forWorker)
    (hstep : p.step a = some q) (harrive : ∀ c chunk, a ≠ .arrive c chunk)
    (hfresh : readsMoved p a = false) (w : Nat) {c : Connection} (hw : owners[w]? = some c) :
    ∃ s late, q.sessions[c]? = some s ∧ s.moved = true ∧ come c = forProcess c ++ late ∧
      forWorker w = s.loop.buffer ++ late := by
  obtain ⟨s, late, hs, hmoved, hcome, hworker⟩ := h.moved w c hw
  obtain ⟨s', hs', hsocket⟩ := socket_of_step hstep harrive hfresh hs
  cases hsocket with
  | handed bytes hands moved fresh buffer => exact ⟨s', late, hs', moved, hcome, buffer ▸ hworker⟩
  | stays hands moved buffer =>
    exact ⟨s', late, hs', moved.trans hmoved, hcome, (buffer hmoved).symm ▸ hworker⟩

/-- A socket that is away after the step was away before, or is handed over. -/
theorem Sockets.owned_step (h : Sockets p owners come forProcess forWorker)
    (hstep : p.step a = some q) (harrive : ∀ c chunk, a ≠ .arrive c chunk)
    (hfresh : readsMoved p a = false) {c : Connection} {s' : Process.Session}
    (hs' : q.sessions[c]? = some s') (hmoved : s'.moved = true) :
    c ∈ owners ∨ ∃ bytes, handsOver p a = some (c, bytes) := by
  cases hs : p.sessions[c]? with
  | some s =>
    obtain ⟨t, ht, hsocket⟩ := socket_of_step hstep harrive hfresh hs
    rw [hs'] at ht
    cases ht
    cases hsocket with
    | handed bytes hands => exact Or.inr ⟨bytes, hands⟩
    | stays hands moved => exact Or.inl (h.owned c s hs (moved.symm.trans hmoved))
  | none =>
    obtain ⟨-, rfl⟩ := Process.accepted_of_step hstep hs hs'
    cases hmoved

theorem Sockets.absent_step (h : Sockets p owners come forProcess forWorker)
    (hstep : p.step a = some q) {c : Connection} (hnone : q.sessions[c]? = none) :
    come c = [] ∧ forProcess c = [] := by
  apply h.absent
  cases hs : p.sessions[c]? with
  | none => rfl
  | some s =>
    obtain ⟨s', hs', -⟩ := Process.session_of_step hstep hs
    rw [hnone] at hs'
    cases hs'

/-- No socket is handed over in the step. -/
theorem Sockets.keep (h : Sockets p owners come forProcess forWorker)
    (hone : Process.OneReader p) (hstep : p.step a = some q)
    (harrive : ∀ c chunk, a ≠ .arrive c chunk) (hfresh : readsMoved p a = false)
    (hhands : handsOver p a = none) : Sockets q owners come forProcess forWorker := by
  refine ⟨fun c s hs hmoved => (h.here_step hone hstep harrive hfresh hs hmoved).1,
    fun w c hw => h.moved_step hstep harrive hfresh w hw, ?_,
    fun c hnone => h.absent_step hstep hnone, h.distinct, h.fresh⟩
  intro c s hs hmoved
  rcases h.owned_step hstep harrive hfresh hs hmoved with hmem | ⟨bytes, hands⟩
  · exact hmem
  · rw [hhands] at hands
    cases hands

/-- What is not read of a socket that is handed over, the new worker reads. -/
theorem Sockets.handed_step (h : Sockets p owners come forProcess forWorker)
    (hone : Process.OneReader p) (hstep : p.step a = some q)
    (harrive : ∀ c chunk, a ≠ .arrive c chunk) (hfresh : readsMoved p a = false)
    {c : Connection} {bytes : Bytes} (hhands : handsOver p a = some (c, bytes)) :
    ∃ s, q.sessions[c]? = some s ∧ s.moved = true ∧ come c = forProcess c ∧
      bytes = s.loop.buffer := by
  obtain ⟨s, hs, hmoved⟩ := here_of_handsOver hone hhands
  obtain ⟨s', hs', hsocket⟩ := socket_of_step hstep harrive hfresh hs
  refine ⟨s', hs', ?_⟩
  cases hsocket with
  | handed bytes' hands moved fresh buffer =>
    rw [hhands] at hands
    cases hands
    exact ⟨moved, (h.here c s hs hmoved).1, (fresh hmoved).trans buffer.symm⟩
  | stays hands => exact absurd hhands (hands bytes)

/-- The socket of connection `c₀` is handed over to a new worker. -/
theorem Sockets.handOver (h : Sockets p owners come forProcess forWorker)
    (hone : Process.OneReader p) (hstep : p.step a = some q)
    (harrive : ∀ c chunk, a ≠ .arrive c chunk) (hfresh : readsMoved p a = false)
    {c₀ : Connection} {bytes : Bytes} (hhands : handsOver p a = some (c₀, bytes)) :
    Sockets q (owners ++ [c₀]) come forProcess
      (fun w => forWorker w ++ inherits w owners.length (some (c₀, bytes))) := by
  obtain ⟨s₀, hs₀, hmoved₀⟩ := here_of_handsOver hone hhands
  obtain ⟨-, hnew⟩ := h.here c₀ s₀ hs₀ hmoved₀
  refine ⟨?_, ?_, ?_, fun c hnone => h.absent_step hstep hnone, ?_, ?_⟩
  · intro c s hs hmoved
    obtain ⟨⟨hcome, hnot⟩, hother⟩ := h.here_step hone hstep harrive hfresh hs hmoved
    refine ⟨hcome, ?_⟩
    rw [List.mem_append, List.mem_singleton, not_or]
    refine ⟨hnot, ?_⟩
    rintro rfl
    exact hother bytes hhands
  · intro w c hw
    rw [inherits]
    by_cases hlast : owners.length = w
    · subst hlast
      rw [List.getElem?_concat_length] at hw
      cases hw
      obtain ⟨s, hs, hmoved, hcome, rfl⟩ := h.handed_step hone hstep harrive hfresh hhands
      refine ⟨s, [], hs, hmoved, hcome.trans (List.append_nil _).symm, ?_⟩
      rw [if_pos rfl, h.fresh _ (Nat.le_refl _), List.nil_append, List.append_nil]
    · have hlt : w < owners.length := by
        obtain ⟨hlt, -⟩ := List.getElem?_eq_some_iff.mp hw
        rw [List.length_append, List.length_singleton] at hlt
        omega
      rw [List.getElem?_append_left hlt] at hw
      rw [if_neg hlast, List.append_nil]
      exact h.moved_step hstep harrive hfresh w hw
  · intro c s hs hmoved
    rcases h.owned_step hstep harrive hfresh hs hmoved with hmem | ⟨bytes', hands⟩
    · exact List.mem_append_left _ hmem
    · rw [hhands] at hands
      cases hands
      exact List.mem_append_right _ (List.mem_singleton_self _)
  · rw [List.nodup_append]
    refine ⟨h.distinct, List.nodup_singleton c₀, ?_⟩
    intro c hc c' hc' hsame
    obtain rfl : c' = c₀ := List.mem_singleton.mp hc'
    exact hnew (hsame ▸ hc)
  · intro w hw
    rw [List.length_append, List.length_singleton] at hw
    rw [inherits, if_neg (by omega), List.append_nil]
    exact h.fresh w (by omega)

/-- The process takes a step in which no bytes come in. -/
theorem Sockets.process (h : Sockets p owners come forProcess forWorker)
    (hone : Process.OneReader p) (hstep : p.step a = some q)
    (harrive : ∀ c chunk, a ≠ .arrive c chunk) (hfresh : readsMoved p a = false) :
    Sockets q (owners ++ ((handsOver p a).map Prod.fst).toList) come forProcess
      (fun w => forWorker w ++ inherits w owners.length (handsOver p a)) := by
  cases hhands : handsOver p a with
  | none =>
    rw [Option.map_none, Option.toList_none, List.append_nil]
    simp only [inherits, List.append_nil]
    exact h.keep hone hstep harrive hfresh hhands
  | some handed =>
    obtain ⟨c₀, bytes⟩ := handed
    exact h.handOver hone hstep harrive hfresh hhands

end Process

/-- Bytes come in on a socket that the connection has. -/
theorem Sockets.client (h : Sockets p owners come forProcess forWorker) {c₀ : Connection}
    {chunk : Bytes} {s₀ : Process.Session} (hs₀ : p.sessions[c₀]? = some s₀)
    (hmoved₀ : s₀.moved = false) (hstep : p.step (.arrive c₀ chunk) = some q) :
    Sockets q owners (fun c => come c ++ if c₀ = c then chunk else [])
      (fun c => forProcess c ++ if c₀ = c then chunk else []) forWorker := by
  cases Process.step_cases hstep with
  | arrive c₁ chunk' s found =>
    rw [hs₀] at found
    cases found
    have hsessions := Process.getElem?_setSession p hs₀ { s₀ with loop := s₀.loop.arrive chunk }
    refine ⟨?_, ?_, ?_, ?_, h.distinct, h.fresh⟩
    · intro c s hs hmoved
      rw [hsessions] at hs
      split at hs
      · rename_i hc
        subst hc
        obtain ⟨hcome, hnot⟩ := h.here c₀ s₀ hs₀ hmoved₀
        exact ⟨congrArg (· ++ _) hcome, hnot⟩
      · obtain ⟨hcome, hnot⟩ := h.here c s hs hmoved
        exact ⟨congrArg (· ++ _) hcome, hnot⟩
    · intro w c hw
      obtain ⟨s, late, hs, hmoved, hcome, hworker⟩ := h.moved w c hw
      have hne : c₀ ≠ c := by
        rintro rfl
        rw [hs₀] at hs
        cases hs
        rw [hmoved₀] at hmoved
        cases hmoved
      rw [hsessions, if_neg hne]
      refine ⟨s, late, hs, hmoved, ?_, hworker⟩
      rw [if_neg hne, List.append_nil, List.append_nil]
      exact hcome
    · intro c s hs hmoved
      rw [hsessions] at hs
      split at hs
      · cases hs
        change s₀.moved = true at hmoved
        rw [hmoved₀] at hmoved
        cases hmoved
      · exact h.owned c s hs hmoved
    · intro c hnone
      rw [hsessions] at hnone
      split at hnone
      · cases hnone
      · rename_i hne
        rw [if_neg hne, List.append_nil, List.append_nil]
        exact h.absent c hnone

/-- Bytes come in on a socket that worker `w₀` has. -/
theorem Sockets.worker (h : Sockets p owners come forProcess forWorker) {c₀ : Connection}
    {w₀ : WorkerId} (hw₀ : owners[w₀]? = some c₀) (chunk : Bytes) :
    Sockets p owners (fun c => come c ++ if c₀ = c then chunk else []) forProcess
      (fun w => forWorker w ++ if w₀ = w then chunk else []) := by
  obtain ⟨s₀, late₀, hs₀, hmoved₀, -, -⟩ := h.moved w₀ c₀ hw₀
  obtain ⟨hlt₀, -⟩ := List.getElem?_eq_some_iff.mp hw₀
  refine ⟨?_, ?_, h.owned, ?_, h.distinct, ?_⟩
  · intro c s hs hmoved
    have hne : c₀ ≠ c := by
      rintro rfl
      rw [hs₀] at hs
      cases hs
      rw [hmoved₀] at hmoved
      cases hmoved
    rw [if_neg hne, List.append_nil]
    exact h.here c s hs hmoved
  · intro w c hw
    obtain ⟨s, late, hs, hmoved, hcome, hworker⟩ := h.moved w c hw
    obtain ⟨hlt, -⟩ := List.getElem?_eq_some_iff.mp hw
    have hsame : w₀ = w ↔ c₀ = c := by
      constructor
      · rintro rfl
        rw [hw₀] at hw
        exact Option.some.inj hw
      · rintro rfl
        exact (List.getElem?_inj hlt₀ h.distinct).mp (hw₀.trans hw.symm)
    refine ⟨s, late ++ if c₀ = c then chunk else [], hs, hmoved, ?_, ?_⟩
    · rw [hcome, List.append_assoc]
    · rw [hworker, List.append_assoc]
      by_cases hc : c₀ = c
      · rw [if_pos hc, if_pos (hsame.mpr hc)]
      · rw [if_neg hc, if_neg fun hw => hc (hsame.mp hw)]
  · intro c hnone
    have hne : c₀ ≠ c := by
      rintro rfl
      rw [hs₀] at hnone
      cases hnone
    rw [if_neg hne, List.append_nil]
    exact h.absent c hnone
  · intro w hw
    have hne : w₀ ≠ w := Nat.ne_of_lt (Nat.lt_of_lt_of_le hlt₀ hw)
    rw [if_neg hne, List.append_nil]
    exact h.fresh w hw

/-! ## Runs -/

/-- The connections whose sockets the workers have. -/
def connections (n : Network) : List Connection := n.workers.map WorkerSocket.connection

theorem workerOf_some {n : Network} {c : Connection} {w : WorkerId} (h : n.workerOf c = some w) :
    n.connections[w]? = some c := by
  obtain ⟨hlt, hsame, -⟩ := List.findIdx?_eq_some_iff_getElem.mp h
  rw [connections, List.getElem?_map, List.getElem?_eq_getElem hlt, Option.map_some]
  exact congrArg some (beq_iff_eq.mp hsame)

theorem connections_set {n : Network} {w : WorkerId} {ws : WorkerSocket}
    (hws : n.workers[w]? = some ws) (t : Worker.Session) :
    (n.workers.set w { ws with session := t }).map WorkerSocket.connection = n.connections :=
  Shares.map_set_eq hws rfl

theorem connections_addWorker (n : Network) (added : Option (Connection × Bytes)) :
    (addWorker n.workers added).map WorkerSocket.connection =
      n.connections ++ (added.map Prod.fst).toList := by
  cases added with
  | none => exact (List.append_nil _).symm
  | some added => exact List.map_append

/-- What the process is given of a socket in a run of its own. -/
theorem received_processRun {as : List Action} {n : Network} (hrun : run step init as = some n)
    (c : Connection) (a : Action) : Process.received c (processRun (as ++ [a])) =
      Process.received c (processRun as) ++ (n.steps a).flatMap (Process.arrival c) := by
  have hsteps : processRun (as ++ [a]) = processRun as ++ n.steps a := trace_concat hrun a
  rw [Process.received, hsteps, List.flatMap_append]
  rfl

theorem received_concat (c : Connection) (as : List Action) (a : Action) :
    received c (as ++ [a]) = received c as ++ arrival c a := by
  rw [received, received, List.flatMap_append, List.flatMap_singleton]

theorem Sockets.congr {come' forProcess' : Connection → Bytes} {forWorker' : WorkerId → Bytes}
    (h : Sockets p owners come forProcess forWorker) (hcome : ∀ c, come' c = come c)
    (hprocess : ∀ c, forProcess' c = forProcess c) (hworker : ∀ w, forWorker' w = forWorker w) :
    Sockets p owners come' forProcess' forWorker' := by
  rw [funext hcome, funext hprocess, funext hworker]
  exact h

theorem Sockets.step {n m : Network}
    (h : Sockets n.process n.connections come forProcess forWorker)
    (hone : Process.OneReader n.process) {a : Action} (hstep : n.step a = some m) :
    Sockets m.process m.connections (fun c => come c ++ arrival c a)
      (fun c => forProcess c ++ (n.steps a).flatMap (Process.arrival c))
      (fun w => forWorker w ++ given w n a) := by
  have hlength : n.connections.length = n.workers.length := List.length_map _
  cases step_cases hstep with
  | process a own fresh p step =>
    have harrive : ∀ c chunk, a ≠ .arrive c chunk := by
      rintro c chunk rfl
      cases own
    have hnext := h.process hone step harrive fresh
    rw [connections, connections_addWorker]
    refine hnext.congr (fun c => List.append_nil _) (fun c => ?_) fun w => ?_
    · rw [steps, List.flatMap_singleton]
      cases a with
      | arrive c chunk => exact absurd rfl (harrive c chunk)
      | _ => exact List.append_nil _
    · rw [given, hlength]
  | client c₀ chunk s found here p step =>
    refine (h.client found here step).congr (fun c => rfl) (fun c => ?_) fun w => ?_
    · rw [steps, found, Option.any_some, here, if_neg Bool.false_ne_true, List.flatMap_singleton]
      rfl
    · rw [given, found, Option.any_some, here]
      exact List.append_nil _
  | worker c₀ chunk s found moved w₀ owner ws there t step =>
    rw [connections, connections_set there]
    refine (h.worker (workerOf_some owner) chunk).congr (fun c => rfl) (fun c => ?_) fun w => ?_
    · rw [steps, found, Option.any_some, moved, if_pos rfl]
      exact List.append_nil _
    · rw [given, found, Option.any_some, moved, owner]
      simp only [true_and, Option.some.injEq]
  | complete w₀ i ws there t step =>
    rw [connections, connections_set there]
    exact h.congr (fun c => List.append_nil _) (fun c => List.append_nil _)
      fun w => List.append_nil _
  | fail w₀ i ws there t step =>
    rw [connections, connections_set there]
    exact h.congr (fun c => List.append_nil _) (fun c => List.append_nil _)
      fun w => List.append_nil _
  | next w₀ k origin ws there op ops code t step p performed =>
    have hop : n.opOf w₀ k = some op := opOf_eq there code
    rw [connections, connections_set there, steps, hop, Option.bind_some]
    rcases performed with ⟨hnone, rfl⟩ | ⟨l, hl, hp⟩
    · rw [hnone]
      exact h.congr (fun c => List.append_nil _) (fun c => List.append_nil _)
        fun w => List.append_nil _
    · have hnext := h.process hone hp (fun c chunk he => by cases he) rfl
      rw [hl]
      change Sockets p (n.connections ++ []) _ _ _ at hnext
      rw [List.append_nil] at hnext
      exact hnext.congr (fun c => List.append_nil _) (fun c => List.append_nil _) fun w => rfl

theorem run_sockets {as : List Action} {n : Network} (hrun : run step init as = some n)
    (hanswers : Guarded Process.step (Process.OnLauncher Launcher.Answers) Process.init
      (processRun as))
    (hother : Guarded Process.step (Process.OnLauncher Launcher.FindsNoOther) Process.init
      (processRun as)) :
    Sockets n.process n.connections (fun c => received c as)
      (fun c => Process.received c (processRun as)) (fun w => givenTo w as) := by
  revert hanswers hother
  refine run_induction (P := fun as n =>
    Guarded Process.step (Process.OnLauncher Launcher.Answers) Process.init (processRun as) →
    Guarded Process.step (Process.OnLauncher Launcher.FindsNoOther) Process.init (processRun as) →
    Sockets n.process n.connections (fun c => received c as)
      (fun c => Process.received c (processRun as)) (fun w => givenTo w as)) ?_ ?_ as n hrun
  · intro _ _
    refine ⟨?_, ?_, ?_, fun c _ => ⟨rfl, rfl⟩, List.nodup_nil, fun w _ => rfl⟩
    · intro c s hs
      cases hs
    · intro w c hw
      cases hw
    · intro c s hs
      cases hs
  intro as n a m hn ih hm hanswers hother
  have hbefore := guarded_before hn hanswers
  have hotherBefore := guarded_before hn hother
  have hone := Process.run_oneReader (run_process hn) hbefore hotherBefore
  exact ((ih hbefore hotherBefore).step hone hm).congr
    (fun c => received_concat c as a) (fun c => received_processRun hn c a)
    fun w => givenTo_concat hn w a

/-- A worker reads what the connection has left of the bytes on the socket. -/
theorem workers_follow {as : List Action} {n : Network} (hrun : run step init as = some n)
    (hanswers : Guarded Process.step (Process.OnLauncher Launcher.Answers) Process.init
      (processRun as))
    (hother : Guarded Process.step (Process.OnLauncher Launcher.FindsNoOther) Process.init
      (processRun as)) {w : WorkerId} {ws : WorkerSocket} (hws : n.workers[w]? = some ws)
    (more : Bytes) :
    leaves (received ws.connection as ++ more) = givenTo w as ++ more := by
  have hprocess := run_process hrun
  have howner : n.connections[w]? = some ws.connection := by
    rw [connections, List.getElem?_map, hws]
    rfl
  obtain ⟨s, late, hs, hmoved, hcome, hworker⟩ :=
    (run_sockets hrun hanswers hother).moved w _ howner
  have hone := (Process.run_oneReader hprocess hanswers hother).one _ s hs
  obtain ⟨bs, t, hbs, harrived, ht⟩ :=
    (Process.run_mirrored hprocess hanswers hother).there _ s hs
  have hstate := ht.state.of_moved hone hmoved
  have hwait : reader.wait t.state = .handedOver := by
    rw [hstate]
    rfl
  rcases ExactRead.run_unread productive (fun _ => rfl) hbs with hdead | hleft
  · rw [hwait] at hdead
    cases hdead
  · rw [hcome, hworker, ← harrived, List.append_assoc, leaves, hleft,
      ExactRead.unread_stop (Or.inl hwait), ht.buffer, List.append_assoc]

/-- When the packets on a socket are some requests, a `worker_reg`, and then the packets of a
worker, the worker that has the socket tells the launcher the acks and the responses among the
last, each once and in order, wherever the bytes were cut and whenever the socket was moved. It
has told all of them when all have come and it waits for more. This holds in runs in which the
headers of jobs differ in key or salt and workers answer what they were given. -/
theorem worker_streams {as : List Action} {n : Network} (hrun : run step init as = some n)
    (hanswers : Guarded Process.step (Process.OnLauncher Launcher.Answers) Process.init
      (processRun as)) (hnodup : n.process.launcher.topics.Nodup) {w : WorkerId}
    {ws : WorkerSocket} (hws : n.workers[w]? = some ws) {before after : List Packet}
    {reg : Packet} (hpackets : Registers before reg after)
    (hcome : received ws.connection as <+: stream (before ++ reg :: after)) :
    told w as <+: (after.filterMap fun p => Worker.messageOf p.sized) ∧
      (received ws.connection as = stream (before ++ reg :: after) → ws.session.AtEnd →
        told w as = after.filterMap fun p => Worker.messageOf p.sized) := by
  have hother := Process.findsNoOther_of_run (run_process hrun) hnodup
  obtain ⟨hfirst, hall⟩ := run_told hrun hws
  have hmessages : Worker.messages (stream after) =
      after.filterMap fun p => Worker.messageOf p.sized := by
    apply Worker.messages_stream
    · intro p hp
      exact hpackets.packets p (List.mem_append_right _ (List.mem_cons_of_mem _ hp))
    · exact hpackets.answers
  obtain ⟨more, hmore⟩ := hcome
  have hafter := workers_follow hrun hanswers hother hws more
  rw [hmore, leaves_stream hpackets] at hafter
  rw [← hmessages]
  constructor
  · refine hfirst.trans (Worker.messages_mono ?_)
    rw [hafter]
    exact List.prefix_append _ _
  · intro hcomplete hend
    rw [hcomplete] at hmore
    obtain rfl : more = [] := List.append_right_eq_self.mp hmore
    rw [hall hend, hafter, List.append_nil]

theorem processRun_wireRun : processRun wireRun =
    Process.triggersRun 4 (Process.callbackRun 0 2 ++ Process.callbackRun 1 2) := by
  decide +kernel

theorem answers_wireRun : Guarded Process.step (Process.OnLauncher Launcher.Answers) Process.init
    (processRun wireRun) := by
  rw [processRun_wireRun]
  exact Process.triggersRun_answers (Or.inr rfl)

theorem wireRun_topics : ((run step init wireRun).map fun n =>
    decide n.process.launcher.topics.Nodup) = some true := by
  decide +kernel

theorem worker_streams_wireRun : ∃ n, run step init wireRun = some n ∧
    told 0 wireRun = [.response (Process.answer 1 2 65), .response (Process.answer 4 3 66)] := by
  obtain ⟨n, ws, hn, hws, hconnection, hend⟩ := exists_wireRun
  obtain ⟨n', hn', hnodup⟩ := Option.map_eq_some_iff.mp wireRun_topics
  rw [hn] at hn'
  cases hn'
  have hpackets : Registers [] ⟨Process.requestHeader .workerReg 0, ⟨[]⟩⟩
      [Process.answer 1 2 65, Process.answer 4 3 66] := by
    refine ⟨?_, ?_, ?_, rfl, rfl, ?_⟩
    · intro p hp
      simp only [List.nil_append, List.mem_cons, List.not_mem_nil, or_false] at hp
      rcases hp with rfl | rfl | rfl <;> exact ⟨trivial, by decide⟩
    · intro p hp
      cases hp
    · intro p hp
      cases hp
    · intro p hp hskip
      simp only [List.mem_cons, List.not_mem_nil, or_false] at hp
      rcases hp with rfl | rfl <;> cases hskip
  have hcome : received 2 wireRun = stream ([] ++ ⟨Process.requestHeader .workerReg 0, ⟨[]⟩⟩ ::
      [Process.answer 1 2 65, Process.answer 4 3 66]) := by
    decide +kernel
  rw [← hconnection] at hcome
  obtain ⟨-, hall⟩ := worker_streams hn answers_wireRun (of_decide_eq_true hnodup) hws hpackets
    (hcome ▸ List.prefix_rfl)
  exact ⟨n, hn, hall hcome hend⟩

end CppSerializer.Network
