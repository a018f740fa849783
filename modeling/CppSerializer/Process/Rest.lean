import CppSerializer.Launcher.Work
import CppSerializer.Process.Steps
import CppSerializer.Topics.Work

/-!
# The server comes to rest

Once no client connects or sends, no worker sends and no timer expires, the server has only its
own steps to take, and of these there are finitely many: `length_le_work` bounds them by what
the state has to do. The handlers of puts, gets and triggers, the drain loops of the buckets and
the loops of `start_jobs` all come to their ends, in any interleaving.

A byte that has come in may belong to a header, and a header may add a worker, whom every search
looks at. So the work depends on how many workers there can be (`capacity`). A search looks at the
workers that were there when it began, each once (`Launcher.LooksOnce`); that it may also come to
one that is added meanwhile is left out.
-/

namespace CppSerializer.Process

open Pack Bucket ReadLoop TcpConnection Transition Work

/-! ## Work -/

/-- The steps that the process takes when its clients, workers and timers do nothing, and when a
search for a worker looks at no worker that was added after it began. -/
def OwnStep (p : Process) : Action → Prop
  | .complete _ _ | .next _ _ _ _ | .topics _ => True
  | .launcher a => a.IsInternal ∧ Launcher.LooksOnce p.launcher a
  | .accept | .arrive _ _ | .fail _ _ => False

/-- The workers that a connection may still add. -/
def loopCapacity (l : Loop Read Op UnitT) : Nat :=
  l.buffer.length + weight (weight fun op => (moves op).toNat) l.handlers

/-- The workers that there are, and those that connections may still add. -/
def capacity (p : Process) : Nat :=
  p.launcher.workers.length + weight (fun s => loopCapacity s.loop) p.sessions

section Weights

variable (N : Nat)

/-- What an operation costs, with the task, the job, the call or the read that it starts. -/
def opWork : Op → Nat
  | .effect _ (.startStore _) | .effect _ (.startLoad _) => 14
  | .effect _ (.startTriggerPost _) => 2 * N + 11
  | .effect _ (.addWorker _) | .effect _ .startJobs => N + 3
  | .effect _ (.startWrite _) | .effect _ (.parsed _) | .callback _ | .startReadHeader => 1
  | .startReadBody _ _ => 17
  | .startTrigger _ _ => 2 * N + 13

/-- What the handler of a read costs. That of a header is paid by the bytes of the header. -/
def readWork : Read → Nat
  | .header => 0
  | .body _ _ => 16
  | .trigger _ _ => 2 * N + 12

def loopWork (l : Loop Read Op UnitT) : Nat :=
  l.buffer.length * (2 * N + 18) + weight (readWork N) l.reads +
    weight (weight (opWork N)) l.handlers

def workUpTo (p : Process) : Nat :=
  weight (fun s => loopWork N s.loop) p.sessions + p.topics.work + p.launcher.work N

end Weights

/-- What the process has to do. -/
def work (p : Process) : Nat := p.workUpTo p.capacity

/-! ## Handlers -/

theorem work_headerCode (N request : Nat) (pack : Packet) :
    weight (opWork N) (headerCode request pack) ≤ 2 * N + 17 := by
  unfold headerCode
  split
  all_goals
    simp only [weight_cons, weight_nil, opWork]
    omega

theorem moves_headerCode (request : Nat) (pack : Packet) :
    weight (fun op => (moves op).toNat) (headerCode request pack) ≤ 1 := by
  unfold headerCode
  split <;> exact Nat.le_of_ble_eq_true rfl

/-- The handler of a read is paid by the read and, when it is a header, by its bytes. -/
theorem work_got (N request : Nat) (r : Read) (buf : Bytes) :
    weight (opWork N) (r.got request buf) < readWork N r + r.size * (2 * N + 18) := by
  cases r with
  | header =>
    rw [Read.got]
    split
    · have hcode := work_headerCode N request
      refine Nat.lt_of_le_of_lt (hcode _) ?_
      change _ < 0 + 45 * (2 * N + 18)
      omega
    · change 0 < 0 + 45 * (2 * N + 18)
      omega
  | body request pack =>
    rw [Read.got]
    split
    · change 14 + (1 + 0) < 16 + _
      omega
    · change 0 < 16 + _
      omega
  | trigger request pack =>
    change 2 * N + 11 + 0 < 2 * N + 12 + _
    omega

/-- Only headers add workers. -/
theorem moves_got (request : Nat) (r : Read) (buf : Bytes) :
    weight (fun op => (moves op).toNat) (r.got request buf) ≤ r.size := by
  cases r with
  | header =>
    rw [Read.got]
    split
    · exact Nat.le_trans (moves_headerCode _ _) (by decide)
    · exact Nat.zero_le _
  | body request pack =>
    rw [Read.got]
    split <;> exact Nat.zero_le _
  | trigger request pack => exact Nat.zero_le _

/-! ## Loops -/

theorem loop_complete (N : Nat) {l : Loop Read Op UnitT} {i : Nat} {r : Read}
    (hr : l.reads[i]? = some r) (hsize : r.size ≤ l.buffer.length) (request : Nat) :
    loopWork N {
      buffer := l.buffer.drop r.size, reads := l.reads.eraseIdx i
      handlers := l.handlers ++ [r.got request (l.buffer.take r.size)] } < loopWork N l ∧
    loopCapacity {
      buffer := l.buffer.drop r.size, reads := l.reads.eraseIdx i
      handlers := l.handlers ++ [r.got request (l.buffer.take r.size)] } ≤ loopCapacity l := by
  have hreads := weight_eraseIdx (f := readWork N) hr
  have hcode := work_got N request r (l.buffer.take r.size)
  have hmoves := moves_got request r (l.buffer.take r.size)
  have hbytes := Nat.mul_le_mul_right (2 * N + 18) hsize
  simp only [loopWork, loopCapacity, List.length_drop, Nat.sub_mul, weight_append, weight_cons,
    weight_nil]
  omega

/-- A handler performs its first operation, and the read that it starts is outstanding. -/
theorem loop_next (N : Nat) {l : Loop Read Op UnitT} {k : Nat} {op : Op} {ops : List Op}
    (hcode : l.handlers[k]? = some (op :: ops)) :
    loopWork N { l with reads := l.reads ++ op.start.toList, handlers := l.handlers.set k ops } +
        opWork N op = loopWork N l + weight (readWork N) op.start.toList ∧
    loopCapacity { l with
        reads := l.reads ++ op.start.toList, handlers := l.handlers.set k ops } +
      (moves op).toNat = loopCapacity l := by
  have hwork := weight_set (f := weight (opWork N)) hcode ops
  have hmoves := weight_set (f := weight fun op => (moves op).toNat) hcode ops
  simp only [weight_cons] at hwork hmoves
  simp only [loopWork, loopCapacity, weight_append]
  omega

/-- Writes, and everything else that leaves the loops alone, leave their work. -/
theorem weight_sessions {p q : Process} {f : Connection → Session → Session}
    (hf : ∀ c s, (f c s).loop = s.loop)
    (h : ∀ c : Connection, q.sessions[c]? = p.sessions[c]?.map (f c))
    (g : Loop Read Op UnitT → Nat) :
    weight (fun s => g s.loop) q.sessions = weight (fun s => g s.loop) p.sessions :=
  weight_of_getElem? h fun c s => congrArg g (hf c s)

/-! ## Steps -/

/-- A step leaves no more workers to come, and less work. -/
structure Decreases (N : Nat) (p q : Process) : Prop where
  capacity : q.capacity ≤ p.capacity
  work : q.workUpTo N < p.workUpTo N

theorem decreases_complete {N : Nat} {p : Process} {c : Connection} {i : Nat} {s : Session}
    (hs : p.sessions[c]? = some s) {r : Read} (hr : s.loop.reads[i]? = some r)
    (hsize : r.size ≤ s.loop.buffer.length) (requests : List Request) :
    Decreases N p (p.setSession c { s with
      loop := {
        buffer := s.loop.buffer.drop r.size
        reads := s.loop.reads.eraseIdx i
        handlers := s.loop.handlers ++ [r.got s.requests.length (s.loop.buffer.take r.size)] }
      requests := requests }) := by
  obtain ⟨hwork, hcapacity⟩ := loop_complete N hr hsize s.requests.length
  constructor
  · have hset := weight_set (f := fun s : Session => loopCapacity s.loop) hs { s with
      loop := {
        buffer := s.loop.buffer.drop r.size
        reads := s.loop.reads.eraseIdx i
        handlers := s.loop.handlers ++ [r.got s.requests.length (s.loop.buffer.take r.size)] }
      requests := requests }
    simp only [Process.capacity, setSession] at hset ⊢
    omega
  · have hset := weight_set (f := fun s : Session => loopWork N s.loop) hs { s with
      loop := {
        buffer := s.loop.buffer.drop r.size
        reads := s.loop.reads.eraseIdx i
        handlers := s.loop.handlers ++ [r.got s.requests.length (s.loop.buffer.take r.size)] }
      requests := requests }
    simp only [workUpTo, setSession] at hset ⊢
    omega

/-- What an operation posts, calls and starts is less than what it costs. -/
theorem work_performed {N : Nat} {p q : Process} {c : Connection}
    {randomSalt sequence : List.Vector UnitT 4} {op : Op}
    (h : Performed p q c randomSalt sequence op) :
    q.topics.work + q.launcher.work N + weight (readWork N) op.start.toList <
      p.topics.work + p.launcher.work N + opWork N op ∧
    q.launcher.workers.length ≤ p.launcher.workers.length + (moves op).toNat := by
  have htopics : q.topics = posted c p.topics op := h.topics
  rcases h.launcher with ⟨hsame, hnone⟩ | ⟨a, ha, hstep⟩
  · rw [htopics, hsame]
    refine ⟨?_, Nat.le_add_right _ _⟩
    cases op with
    | effect request e =>
      cases e with
      | startStore pack =>
        have hwork := p.topics.work_startStore c request pack
        change (p.topics.startStore c request pack).work + _ + 0 < _ + _ + 14
        omega
      | startLoad pack =>
        have hwork := p.topics.work_startLoad c request ⟨pack.header, ⟨[]⟩⟩
        change (p.topics.startLoad c request ⟨pack.header, ⟨[]⟩⟩).work + _ + 0 < _ + _ + 14
        omega
      | startTriggerPost | addWorker | startJobs => cases hnone
      | startWrite | parsed => exact Nat.lt_succ_self _
    | callback resp => exact Nat.lt_succ_self _
    | startReadHeader => exact Nat.lt_succ_self _
    | startReadBody request pack => exact Nat.lt_succ_self _
    | startTrigger request pack => exact Nat.lt_succ_self _
  · cases op with
    | effect request e =>
      cases e with
      | startTriggerPost body =>
        cases ha
        obtain ⟨hworkers, hwork⟩ := Launcher.work_startTriggerPost (N := N) hstep
        rw [htopics, hwork, hworkers]
        refine ⟨?_, Nat.le_refl _⟩
        change p.topics.work + _ + 0 < _ + _ + (2 * N + 11)
        omega
      | addWorker pack =>
        cases ha
        obtain ⟨hworkers, hwork⟩ := Launcher.work_addWorker (N := N) hstep
        rw [htopics, hwork, hworkers]
        refine ⟨?_, Nat.le_refl _⟩
        change p.topics.work + _ + 0 < _ + _ + (N + 3)
        omega
      | startJobs =>
        cases ha
        obtain ⟨hworkers, hwork⟩ := Launcher.work_startJobs (N := N) hstep
        rw [htopics, hwork, hworkers]
        refine ⟨?_, Nat.le_refl _⟩
        change p.topics.work + _ + 0 < _ + _ + (N + 3)
        omega
      | _ => cases ha
    | _ => cases ha

theorem decreases_next {N : Nat} {p q : Process} {c : Connection} {k : Nat}
    {randomSalt sequence : List.Vector UnitT 4} {s : Session} (hs : p.sessions[c]? = some s)
    {op : Op} {ops : List Op} (hcode : s.loop.handlers[k]? = some (op :: ops))
    (h : Performed (p.setSession c { s with loop := { s.loop with
      reads := s.loop.reads ++ op.start.toList, handlers := s.loop.handlers.set k ops } }) q c
        randomSalt sequence op) : Decreases N p q := by
  obtain ⟨hwork, hcapacity⟩ := loop_next N hcode
  obtain ⟨hperformed, hworkers⟩ := work_performed (N := N) h
  have hsessions := fun g => weight_sessions (f := fun c' s => if c = c' then s.performed op else s)
    (by intro c' s; split <;> rfl) h.sessions g
  constructor
  · have hset := weight_set (f := fun s : Session => loopCapacity s.loop) hs { s with loop :=
      { s.loop with
        reads := s.loop.reads ++ op.start.toList, handlers := s.loop.handlers.set k ops } }
    have hsame := hsessions loopCapacity
    simp only [Process.capacity, setSession] at hset hsame hworkers ⊢
    omega
  · have hset := weight_set (f := fun s : Session => loopWork N s.loop) hs { s with loop :=
      { s.loop with
        reads := s.loop.reads ++ op.start.toList, handlers := s.loop.handlers.set k ops } }
    have hsame := hsessions (loopWork N)
    simp only [workUpTo, setSession] at hset hsame hperformed ⊢
    omega

/-- The callback of a job costs two operations. -/
theorem callback_work (N : Nat) (p : Process) (done : Launcher.Completion) :
    weight (fun s => loopWork N s.loop) (p.callback done).sessions ≤
      weight (fun s => loopWork N s.loop) p.sessions + 2 ∧
    weight (fun s => loopCapacity s.loop) (p.callback done).sessions =
      weight (fun s => loopCapacity s.loop) p.sessions := by
  unfold callback
  cases howner : p.owners[done.callee]? with
  | none => exact ⟨Nat.le_add_right _ _, rfl⟩
  | some c =>
    cases hs : p.sessions[c]? with
    | none =>
      have hsame : p.sessions.modify c (fun s => s.post (callbackCode done.pack)) = p.sessions :=
        List.modify_eq_self (List.getElem?_eq_none_iff.mp hs)
      simp only [hsame]
      exact ⟨Nat.le_add_right _ _, trivial⟩
    | some s =>
      have hwork := weight_modify (f := fun s : Session => loopWork N s.loop) hs
        fun s => s.post (callbackCode done.pack)
      have hcapacity := weight_modify (f := fun s : Session => loopCapacity s.loop) hs
        fun s => s.post (callbackCode done.pack)
      simp only [loopWork, loopCapacity, Session.post, callbackCode, weight_append, weight_cons,
        weight_nil, opWork, moves, Bool.toNat_false] at hwork hcapacity ⊢
      omega

theorem decreases_launcher {N : Nat} {p q : Process} {a : Launcher.Action}
    (hN : p.launcher.workers.length ≤ N) (ha : a.IsInternal)
    (hlooks : Launcher.LooksOnce p.launcher a) (h : LauncherStep p a q) : Decreases N p q := by
  cases h with
  | silent l step completions =>
    obtain ⟨hworkers, hwork⟩ := Launcher.decreases_step hN ha hlooks step
    rw [completions] at hwork
    constructor
    · simp only [Process.capacity]
      omega
    · simp only [workUpTo]
      omega
  | callback l step done strand completions =>
    obtain ⟨hworkers, hwork⟩ := Launcher.decreases_step hN ha hlooks step
    obtain ⟨htopics, hlauncher, -⟩ := callback_topics { p with launcher := l } done
    obtain ⟨hsessions, hcapacity⟩ := callback_work N { p with launcher := l } done
    rw [completions, List.length_append, List.length_singleton] at hwork
    constructor
    · simp only [Process.capacity, hlauncher] at hcapacity ⊢
      omega
    · simp only [workUpTo, htopics, hlauncher] at hsessions ⊢
      omega

/-- Every step that the process takes on its own uses work up. -/
theorem decreases_step {N : Nat} {p q : Process} {a : Action} (hN : p.capacity ≤ N)
    (ha : p.OwnStep a) (h : p.step a = some q) : Decreases N p q := by
  cases step_cases h with
  | accept | arrive | fail => cases ha
  | complete c i s found r outstanding size =>
    exact decreases_complete found outstanding size _
  | next c k randomSalt sequence s found op ops code q performed =>
    exact decreases_next found code performed
  | topics a own t out step q wrote =>
    have hsessions := fun g => weight_sessions
      (f := fun c s => s.wrote (out.filterMap writeOf) c) (fun _ _ => rfl) wrote.sessions g
    have hwork := Topics.work_step step
      (fun _ _ _ _ he => by rw [he] at own; cases own)
      (fun _ _ _ he => by rw [he] at own; cases own)
    constructor
    · have hsame := hsessions loopCapacity
      simp only [Process.capacity, wrote.launcher] at hsame ⊢
      omega
    · have hsame := hsessions (loopWork N)
      simp only [workUpTo, wrote.launcher, wrote.topics] at hsame ⊢
      omega
  | launcher a own q step =>
    refine decreases_launcher ?_ ha.1 ha.2 step
    exact Nat.le_trans (Nat.le_add_right _ _) hN

/-! ## Runs -/

theorem ownSteps_use (N : Nat) :
    Uses step (fun p => p.capacity ≤ N) OwnStep (workUpTo N) := by
  intro p a q hN ha hq
  have hdecreases := decreases_step hN ha hq
  exact ⟨Nat.le_trans hdecreases.capacity hN, hdecreases.work⟩

/-- From any state, whatever the interleaving, the process takes at most as many steps of its own
as it has work; and it comes to a state where it has none left to take. Steps in which a search for
a worker looks at one that was added after it began are not among them. -/
theorem comes_to_rest (p : Process) :
    (∀ bs q, run step p bs = some q → Guarded step OwnStep p bs → bs.length ≤ p.work) ∧
    ∃ bs q, run step p bs = some q ∧ Guarded step OwnStep p bs ∧
      ∀ a, q.OwnStep a → q.step a = none := by
  have huses := ownSteps_use p.capacity
  constructor
  · intro bs q hq hown
    have hle := (huses.length_le_work (Nat.le_refl _) hq hown).2
    rw [work]
    omega
  · exact huses.exists_rest (Nat.le_refl _)

end CppSerializer.Process
