import CppSerializer.Connection.Commands
import CppSerializer.Process.Results

/-!
# The bytes of a client

A connection of the process is a `TcpConnection.reader`: its handlers run operation by operation
among those of all others, but its read token is in one place, and that place is the state of the
reader (`Stands`). So what the connection does is a function of the bytes that its client has sent
(`follows_stream`), whatever chunks they come in and whatever the rest of the server does.
-/

namespace CppSerializer.Process

open Pack Bucket ReadLoop TcpConnection Transition Shares
open Launcher (JobId)

/-! ## What the commands leave behind -/

/-- The body of a trigger that is posted. -/
def posted? : Effect → Option Bytes
  | .startTriggerPost body => some body
  | _ => none

/-- The requests after a command. A body is that of the header before it. -/
def noted (requests : List Request) : Effect → List Request
  | .parsed h => requests ++ [⟨h, none⟩]
  | .startStore pack =>
    requests.modify (requests.length - 1) fun q => { q with body := some pack.data.buf }
  | .startLoad _ | .startWrite _ | .startTriggerPost _ | .addWorker _ | .startJobs => requests

def requestsOf (commands : List Effect) : List Request := commands.foldl noted []

theorem requestsOf_append (done new : List Effect) :
    requestsOf (done ++ new) = new.foldl noted (requestsOf done) := List.foldl_append

/-- The bytes that the step brings to the connection. -/
def arrival (c : Connection) : Action → Bytes
  | .arrive c₀ chunk => if c₀ = c then chunk else []
  | _ => []

/-- The bytes that have come in on the connection. -/
def received (c : Connection) (as : List Action) : Bytes := as.flatMap (arrival c)

theorem received_concat (c : Connection) (as : List Action) (a : Action) :
    received c (as ++ [a]) = received c as ++ arrival c a := by
  rw [received, received, List.flatMap_append, List.flatMap_singleton]

/-! ## The place of the token -/

/-- The operation takes the reader to the state. -/
def Leads : Op → Reading → Prop
  | .startReadHeader, reading => reading = .header
  | .startReadBody _ pack, reading => reading = .body pack
  | .startTrigger _ pack, reading => reading = .trigger pack
  | .effect _ (.startTriggerPost _), reading => ∃ pack, reading = .job pack
  | .effect _ (.addWorker _), reading => reading = .moved
  | _, _ => False

/-- The state of the reader that the token of the connection stands for. -/
inductive Stands (p : Process) (c : Connection) (s : Session) : Reading → Prop
  | read (r : Read) (outstanding : r ∈ s.loop.reads) : Stands p c s r.reading
  | passing (op : Op) (left : op ∈ s.passing) (reading : Reading) (leads : Leads op reading) :
      Stands p c s reading
  | pending (j : JobId) (waiting : j ∈ p.pending c) (pack : Packet) : Stands p c s (.job pack)
  | moved (moved : s.moved = true) : Stands p c s .moved
  | lost (lost : p.tokens c s = 0) : Stands p c s .stopped

theorem Stands.congr {p q : Process} {c : Connection} {s s' : Session} {reading : Reading}
    (h : Stands p c s reading) (hreads : s'.loop.reads = s.loop.reads)
    (hpassing : s'.passing.Perm s.passing) (hpending : q.pending c = p.pending c)
    (hmoved : s'.moved = s.moved) : Stands q c s' reading := by
  cases h with
  | read r outstanding => exact .read r (hreads ▸ outstanding)
  | passing op left _ leads => exact .passing op (hpassing.mem_iff.mpr left) _ leads
  | pending j waiting pack => exact .pending j (hpending ▸ waiting) pack
  | moved moved => exact .moved (hmoved.trans moved)
  | lost lost =>
    refine .lost ?_
    rw [tokens] at lost ⊢
    rw [hreads, hpassing.length_eq, hpending, hmoved]
    exact lost

section Places

variable {p : Process} {c : Connection} {s : Session} {reading : Reading}

theorem Stands.of_read (h : Stands p c s reading) (hone : p.tokens c s ≤ 1) {r : Read}
    (hr : r ∈ s.loop.reads) : reading = r.reading ∧ s.loop.reads = [r] ∧ s.passing = [] ∧
      p.pending c = [] ∧ s.moved = false := by
  have hpos := List.length_pos_of_mem hr
  rw [tokens] at hone
  have hreads : s.loop.reads = [r] := by
    obtain ⟨r', hr'⟩ := List.length_eq_one_iff.mp (by omega : s.loop.reads.length = 1)
    rw [hr'] at hr ⊢
    rw [List.mem_singleton.mp hr]
  have hpassing : s.passing = [] := List.length_eq_zero_iff.mp (by omega)
  have hpending : p.pending c = [] := List.length_eq_zero_iff.mp (by omega)
  have hmoved : s.moved = false := Bool.toNat_eq_zero.mp (by omega)
  refine ⟨?_, hreads, hpassing, hpending, hmoved⟩
  cases h with
  | read r' outstanding =>
    rw [hreads, List.mem_singleton] at outstanding
    rw [outstanding]
  | passing op left =>
    rw [hpassing] at left
    cases left
  | pending j waiting =>
    rw [hpending] at waiting
    cases waiting
  | moved moved =>
    rw [hmoved] at moved
    cases moved
  | lost lost =>
    rw [tokens] at lost
    omega

theorem Stands.of_passing (h : Stands p c s reading) (hone : p.tokens c s ≤ 1) {op : Op}
    {rest : List Op} (hop : s.passing.Perm (op :: rest)) : Leads op reading ∧
      s.loop.reads = [] ∧ rest = [] ∧ p.pending c = [] ∧ s.moved = false := by
  have hlength := hop.length_eq
  rw [List.length_cons] at hlength
  rw [tokens] at hone
  have hreads : s.loop.reads = [] := List.length_eq_zero_iff.mp (by omega)
  have hrest : rest = [] := List.length_eq_zero_iff.mp (by omega)
  have hpending : p.pending c = [] := List.length_eq_zero_iff.mp (by omega)
  have hmoved : s.moved = false := Bool.toNat_eq_zero.mp (by omega)
  refine ⟨?_, hreads, hrest, hpending, hmoved⟩
  cases h with
  | read r outstanding =>
    rw [hreads] at outstanding
    cases outstanding
  | passing op' left _ leads =>
    rw [hop.mem_iff, hrest, List.mem_singleton] at left
    rwa [← left]
  | pending j waiting =>
    rw [hpending] at waiting
    cases waiting
  | moved moved =>
    rw [hmoved] at moved
    cases moved
  | lost lost =>
    rw [tokens] at lost
    omega

theorem Stands.of_pending (h : Stands p c s reading) (hone : p.tokens c s ≤ 1) {j : JobId}
    (hj : j ∈ p.pending c) : (∃ pack, reading = .job pack) ∧ s.loop.reads = [] ∧
      s.passing = [] ∧ s.moved = false := by
  have hpos := List.length_pos_of_mem hj
  rw [tokens] at hone
  have hreads : s.loop.reads = [] := List.length_eq_zero_iff.mp (by omega)
  have hpassing : s.passing = [] := List.length_eq_zero_iff.mp (by omega)
  have hmoved : s.moved = false := Bool.toNat_eq_zero.mp (by omega)
  refine ⟨?_, hreads, hpassing, hmoved⟩
  cases h with
  | read r outstanding =>
    rw [hreads] at outstanding
    cases outstanding
  | passing op left =>
    rw [hpassing] at left
    cases left
  | pending j' waiting pack => exact ⟨pack, rfl⟩
  | moved moved =>
    rw [hmoved] at moved
    cases moved
  | lost lost =>
    rw [tokens] at lost
    omega

theorem Stands.of_moved (h : Stands p c s reading) (hone : p.tokens c s ≤ 1)
    (hmoved : s.moved = true) : reading = .moved := by
  rw [tokens, hmoved, Bool.toNat_true] at hone
  cases h with
  | read r outstanding =>
    have hpos := List.length_pos_of_mem outstanding
    omega
  | passing op left =>
    have hpos := List.length_pos_of_mem left
    omega
  | pending j waiting =>
    have hpos := List.length_pos_of_mem waiting
    omega
  | moved => rfl
  | lost lost =>
    rw [tokens, hmoved, Bool.toNat_true] at lost
    omega

end Places

/-! ## Handlers -/

theorem leads_headerCode (request : Nat) (pack : Packet) :
    (∃ op ∈ headerCode request pack, passes op = true ∧ Leads op (onHeader pack).1) ∨
      (headerCode request pack).filter passes = [] ∧ (onHeader pack).1 = .stopped := by
  obtain ⟨⟨type, key, datasize, sequence, randomSalt⟩, data⟩ := pack
  cases type with
  | unnamed b => exact Or.inr ⟨rfl, rfl⟩
  | _ => left; simp [headerCode, onHeader, Leads, passes, submits, moves, Op.start]

/-- The handler of a read passes the token on to where the reader goes, if anywhere. -/
theorem leads_got (request : Nat) (r : Read) (buf : Bytes) :
    (∃ op ∈ r.got request buf, passes op = true ∧ Leads op (got r.reading buf).1) ∨
      (r.got request buf).filter passes = [] ∧ (got r.reading buf).1 = .stopped := by
  cases r with
  | header =>
    simp only [Read.reading, Read.got, got]
    cases PacketHeader.parse buf 0 with
    | none => exact Or.inr ⟨rfl, rfl⟩
    | some h => exact leads_headerCode request ⟨h, ⟨[]⟩⟩
  | body n pack =>
    simp only [Read.reading, Read.got, got]
    cases PacketData.parse (BitVec.ofNat (8 * 4) buf.length) buf 0 with
    | none => exact Or.inr ⟨rfl, rfl⟩
    | some data => exact Or.inl ⟨.startReadHeader, by simp, rfl, rfl⟩
  | trigger n pack => exact Or.inl ⟨_, List.mem_singleton_self _, rfl, pack, rfl⟩

/-- A switch starts no store, and parses no second header. -/
theorem noted_onHeader (requests : List Request) (pack : Packet) :
    ((onHeader pack).2.filterMap Effect.command?).foldl noted requests = requests ∧
      ((onHeader pack).2.filterMap Effect.command?).filterMap posted? = [] := by
  obtain ⟨⟨type, key, datasize, sequence, randomSalt⟩, data⟩ := pack
  cases type <;> exact ⟨rfl, rfl⟩

/-- What the reader does at the end of a read is what is recorded of it. -/
theorem noted_got (s : Session) {i : Nat} {r : Read} (hr : s.loop.reads[i]? = some r)
    (hsize : r.size ≤ s.loop.buffer.length)
    (hindex : ∀ n pack, r = .body n pack → n + 1 = s.requests.length) :
    ((got r.reading (s.loop.buffer.take r.size)).2.filterMap Effect.command?).foldl noted
        s.requests = record s.requests r (s.loop.buffer.take r.size) ∧
      ((got r.reading (s.loop.buffer.take r.size)).2.filterMap Effect.command?).filterMap posted? =
        s.triggerBody i := by
  have hlength := List.length_take_of_le hsize
  rw [Session.triggerBody, hr]
  cases r with
  | header =>
    simp only [Read.reading, got, record]
    cases PacketHeader.parse (s.loop.buffer.take Read.header.size) 0 with
    | none => exact ⟨rfl, rfl⟩
    | some h =>
      obtain ⟨hnoted, hposted⟩ := noted_onHeader (s.requests ++ [⟨h, none⟩]) ⟨h, ⟨[]⟩⟩
      exact ⟨hnoted, hposted⟩
  | body n pack =>
    simp only [Read.reading, got, record, parse_body hlength]
    refine ⟨?_, rfl⟩
    have hn : n = s.requests.length - 1 := by
      have hnumber := hindex n pack rfl
      omega
    rw [hn]
    rfl
  | trigger n pack => exact ⟨rfl, rfl⟩

/-- A body is read for the request that was noted last. -/
theorem index_got (requests : List Request) (r : Read) (buf : Bytes) {n : Nat} {pack : Packet}
    (h : Op.startReadBody n pack ∈ r.got requests.length buf) :
    n + 1 = (record requests r buf).length := by
  cases r with
  | header =>
    rw [Read.got] at h
    rw [record]
    cases hparse : PacketHeader.parse buf 0 with
    | none =>
      rw [hparse] at h
      cases h
    | some header =>
      rw [hparse] at h
      obtain ⟨type, key, datasize, sequence, randomSalt⟩ := header
      rw [List.length_append, List.length_singleton]
      cases type <;> simp [headerCode] at h
      exact congrArg Nat.succ h.1
  | body m pack' =>
    rw [Read.got] at h
    split at h <;> simp at h
  | trigger m pack' => simp [Read.got] at h

/-! ## Steps -/

theorem eraseIdx_of_singleton {α : Type*} {l : List α} {a b : α} {i : Nat} (h : l = [a])
    (hi : l[i]? = some b) : l.eraseIdx i = [] := by
  obtain ⟨hlt, -⟩ := List.getElem?_eq_some_iff.mp hi
  apply List.length_eq_zero_iff.mp
  rw [List.length_eraseIdx_of_lt hlt, h]
  rfl

theorem run_single {t u : ExactRead.Session Reading UnitT Effect}
    {a : ExactRead.Action UnitT Packet} (h : ExactRead.step reader t a = some u) :
    run (ExactRead.step reader) t [a] = some u := by
  rw [run_cons, h]
  rfl

/-- The session of the sequential reader that the connection is. -/
structure Mirrors (p : Process) (c : Connection) (s : Session) (bodies : List Bytes)
    (t : ExactRead.Session Reading UnitT Effect) : Prop where
  state : Stands p c s t.state
  buffer : t.buffer = s.loop.buffer
  requests : s.requests = requestsOf (t.counted Effect.command?)
  bodies : bodies = (t.counted Effect.command?).filterMap posted?
  index : ∀ n pack, Read.body n pack ∈ s.loop.reads ∨ Op.startReadBody n pack ∈ s.passing →
    n + 1 = s.requests.length

/-- A step that moves neither the token nor the bytes. -/
theorem Mirrors.congr {p q : Process} {c : Connection} {s s' : Session} {bodies : List Bytes}
    {t : ExactRead.Session Reading UnitT Effect} (h : Mirrors p c s bodies t)
    (hbuffer : s'.loop.buffer = s.loop.buffer) (hreads : s'.loop.reads = s.loop.reads)
    (hpassing : s'.passing.Perm s.passing) (hrequests : s'.requests = s.requests)
    (hpending : q.pending c = p.pending c) (hmoved : s'.moved = s.moved) :
    Mirrors q c s' bodies t := by
  refine ⟨h.state.congr hreads hpassing hpending hmoved, h.buffer.trans hbuffer.symm,
    hrequests.trans h.requests, h.bodies, ?_⟩
  intro n pack hmem
  rw [hreads, hpassing.mem_iff] at hmem
  rw [hrequests]
  exact h.index n pack hmem

/-- The reader takes some steps, in which the bytes come in, and is again the connection. -/
def Goes (q : Process) (c : Connection) (s' : Session) (come : Bytes) (bodies : List Bytes)
    (t : ExactRead.Session Reading UnitT Effect) : Prop :=
  ∃ bs u, run (ExactRead.step reader) t bs = some u ∧ ExactRead.arrived bs = come ∧
    Mirrors q c s' bodies u

theorem Mirrors.stay {q : Process} {c : Connection} {s' : Session} {bodies : List Bytes}
    {t : ExactRead.Session Reading UnitT Effect} (h : Mirrors q c s' bodies t) :
    Goes q c s' [] bodies t := ⟨[], t, rfl, rfl, h⟩

theorem Mirrors.complete {p : Process} {c : Connection} {s : Session} {bodies : List Bytes}
    {t : ExactRead.Session Reading UnitT Effect} (h : Mirrors p c s bodies t)
    (hone : p.tokens c s ≤ 1) {i : Nat} {r : Read} (hr : s.loop.reads[i]? = some r)
    (hsize : r.size ≤ s.loop.buffer.length) {q : Process} (hpending : q.pending c = p.pending c) :
    Goes q c { s with
      loop := {
        buffer := s.loop.buffer.drop r.size
        reads := s.loop.reads.eraseIdx i
        handlers := s.loop.handlers ++ [r.got s.requests.length (s.loop.buffer.take r.size)] }
      requests := record s.requests r (s.loop.buffer.take r.size) } []
      (bodies ++ s.triggerBody i) t := by
  have hmem := List.mem_of_getElem? hr
  obtain ⟨hstate, hreads, hpassing, hnone, hmoved⟩ := h.state.of_read hone hmem
  have hwait : reader.wait t.state = .read r.size := by
    rw [hstate]
    exact wait_reading r
  have hstep := ExactRead.step_read hwait (h.buffer ▸ hsize)
  obtain ⟨hrequests, hbodies⟩ := noted_got s hr hsize
    fun n pack he => h.index n pack (Or.inl (he ▸ hmem))
  refine ⟨[.read], _, run_single hstep, rfl, ?_⟩
  rw [h.buffer, hstate]
  have herase : s.loop.reads.eraseIdx i = [] := eraseIdx_of_singleton hreads hr
  have hleft : Session.passing { s with
      loop := {
        buffer := s.loop.buffer.drop r.size
        reads := s.loop.reads.eraseIdx i
        handlers := s.loop.handlers ++ [r.got s.requests.length (s.loop.buffer.take r.size)] }
      requests := record s.requests r (s.loop.buffer.take r.size) } =
      (r.got s.requests.length (s.loop.buffer.take r.size)).filter passes := by
    rw [Session.passing, List.flatMap_append, List.flatMap_singleton]
    change s.passing ++ _ = _
    rw [hpassing, List.nil_append]
  refine ⟨?_, rfl, ?_, ?_, ?_⟩
  · rcases leads_got s.requests.length r (s.loop.buffer.take r.size) with
      ⟨op, hop, hpasses, hleads⟩ | ⟨hlost, hstopped⟩
    · refine .passing op ?_ _ hleads
      rw [hleft]
      exact List.mem_filter.mpr ⟨hop, hpasses⟩
    · change Stands q c _ (got r.reading (s.loop.buffer.take r.size)).1
      rw [hstopped]
      refine .lost ?_
      rw [tokens, hleft, hlost, hpending, hnone]
      simp only [herase, hmoved]
      rfl
  · rw [ExactRead.counted_after, requestsOf_append, ← h.requests]
    exact hrequests.symm
  · rw [ExactRead.counted_after, List.filterMap_append, ← h.bodies]
    exact congrArg (bodies ++ ·) hbodies.symm
  · intro n pack hbody
    rw [hleft] at hbody
    rcases hbody with hread | hop
    · change Read.body n pack ∈ s.loop.reads.eraseIdx i at hread
      rw [herase] at hread
      cases hread
    · exact index_got s.requests r _ (List.mem_of_mem_filter hop)

theorem Mirrors.fail {p : Process} {c : Connection} {s : Session} {bodies : List Bytes}
    {t : ExactRead.Session Reading UnitT Effect} (h : Mirrors p c s bodies t)
    (hone : p.tokens c s ≤ 1) {i : Nat} {r : Read} (hr : s.loop.reads[i]? = some r)
    {q : Process} (hpending : q.pending c = p.pending c) :
    Goes q c { s with loop := { s.loop with
      reads := s.loop.reads.eraseIdx i, handlers := s.loop.handlers ++ [[]] } } [] bodies t := by
  obtain ⟨hstate, hreads, hpassing, hnone, hmoved⟩ :=
    h.state.of_read hone (List.mem_of_getElem? hr)
  have hstep : ExactRead.step reader t .fail =
      some (t.after t.buffer (reader.failed t.state)) := by
    simp only [ExactRead.step, hstate, reader, wait_reading]
  have herase : s.loop.reads.eraseIdx i = [] := eraseIdx_of_singleton hreads hr
  have hleft : Session.passing { s with loop := { s.loop with
      reads := s.loop.reads.eraseIdx i, handlers := s.loop.handlers ++ [[]] } } = [] := by
    rw [Session.passing, List.flatMap_append, List.flatMap_singleton]
    change s.passing ++ _ = _
    rw [hpassing]
    rfl
  refine ⟨[.fail], _, run_single hstep, rfl, .lost ?_, h.buffer, ?_, ?_, ?_⟩
  · rw [tokens, hleft, hpending, hnone]
    simp only [herase, hmoved]
    rfl
  · rw [ExactRead.counted_after]
    exact h.requests.trans (congrArg requestsOf (List.append_nil _).symm)
  · rw [ExactRead.counted_after]
    exact h.bodies.trans (congrArg _ (List.append_nil _).symm)
  · intro n pack hbody
    rw [hleft] at hbody
    rcases hbody with hread | hop
    · change Read.body n pack ∈ s.loop.reads.eraseIdx i at hread
      rw [herase] at hread
      cases hread
    · cases hop

theorem passing_perm {s : Session} {k : Nat} {op : Op} {ops : List Op}
    (hcode : s.loop.handlers[k]? = some (op :: ops)) :
    s.passing.Perm ([op].filter passes ++
      (s.loop.handlers.set k ops).flatMap fun code => code.filter passes) := by
  have hold := flatMap_perm (f := fun code : List Op => code.filter passes) hcode
  have hnew := flatMap_set_perm (f := fun code : List Op => code.filter passes) hcode ops
  have hsplit : (op :: ops).filter passes = [op].filter passes ++ ops.filter passes :=
    List.filter_append (p := passes) [op] ops
  rw [hsplit, List.append_assoc] at hold
  exact hold.trans (hnew.symm.append_left _)

/-- An operation that submits no trigger changes nothing of the jobs. -/
theorem pending_quiet {p q : Process} {c : Connection} {randomSalt sequence : List.Vector UnitT 4}
    {op : Op} (h : Performed p q c randomSalt sequence op) (hsubmits : submits op = false) :
    q.pending c = p.pending c := by
  have howners := h.owners
  rw [hsubmits, if_neg Bool.false_ne_true, List.append_nil] at howners
  apply pending_congr howners
  rw [Launcher.State.callees, Launcher.State.callees, h.completions]

/-- The operation takes the token to the place that the reader is at. -/
theorem stands_performed {p q : Process} {c : Connection} {s : Session} {reading : Reading}
    {k : Nat} {randomSalt sequence : List.Vector UnitT 4} {op : Op} {ops : List Op}
    (hleads : Leads op reading)
    (hperformed : Performed (p.setSession c { s with loop := { s.loop with
      reads := s.loop.reads ++ op.start.toList, handlers := s.loop.handlers.set k ops } }) q c
        randomSalt sequence op)
    (hlt : ∀ j ∈ p.launcher.callees, j < p.owners.length) :
    Stands q c (Session.performed { s with loop := { s.loop with
      reads := s.loop.reads ++ op.start.toList, handlers := s.loop.handlers.set k ops } } op)
      reading := by
  have hstart : ∀ r, op.start = some r → r.reading = reading →
      Stands q c (Session.performed { s with loop := { s.loop with
        reads := s.loop.reads ++ op.start.toList, handlers := s.loop.handlers.set k ops } } op)
        reading := by
    intro r hr he
    rw [← he]
    refine .read r ?_
    change r ∈ s.loop.reads ++ op.start.toList
    rw [hr]
    exact List.mem_append_right _ (List.mem_singleton_self r)
  cases op with
  | startReadHeader => exact hstart _ rfl hleads.symm
  | startReadBody n pack => exact hstart _ rfl hleads.symm
  | startTrigger n pack => exact hstart _ rfl hleads.symm
  | callback resp => exact hleads.elim
  | effect request e =>
    cases e with
    | startTriggerPost body =>
      obtain ⟨pack, rfl⟩ := hleads
      have hcallees : q.launcher.callees = p.launcher.callees := by
        rw [Launcher.State.callees, Launcher.State.callees, hperformed.completions]
        rfl
      have hpending := pending_submit (p := p) hperformed.owners hcallees hlt c
      refine .pending p.owners.length ?_ pack
      rw [hpending, if_pos rfl]
      exact List.mem_append_right _ (List.mem_singleton_self _)
    | addWorker pack =>
      obtain rfl : reading = .moved := hleads
      exact .moved (Bool.or_true _)
    | _ => exact hleads.elim

/-- The connection performs an operation that leaves the token where it is. -/
theorem Mirrors.next_quiet {p q : Process} {c : Connection} {s : Session} {bodies : List Bytes}
    {t : ExactRead.Session Reading UnitT Effect} (h : Mirrors p c s bodies t) {k : Nat}
    {randomSalt sequence : List.Vector UnitT 4} {op : Op} {ops : List Op}
    (hcode : s.loop.handlers[k]? = some (op :: ops)) (hpasses : passes op = false)
    (hperformed : Performed (p.setSession c { s with loop := { s.loop with
      reads := s.loop.reads ++ op.start.toList, handlers := s.loop.handlers.set k ops } }) q c
        randomSalt sequence op) :
    Mirrors q c (Session.performed { s with loop := { s.loop with
      reads := s.loop.reads ++ op.start.toList, handlers := s.loop.handlers.set k ops } } op)
      bodies t := by
  have hperm := passing_perm hcode
  rw [List.filter_cons_of_neg (by rw [hpasses]; exact Bool.false_ne_true), List.filter_nil,
    List.nil_append] at hperm
  have hparts : op.start = none ∧ submits op = false ∧ moves op = false := by
    simpa [passes, and_assoc] using hpasses
  obtain ⟨hstart, hsubmits, hmoves⟩ := hparts
  have hpending := pending_quiet hperformed hsubmits
  refine h.congr rfl ?_ hperm.symm rfl hpending ?_
  · change s.loop.reads ++ op.start.toList = s.loop.reads
    rw [hstart]
    exact List.append_nil _
  · change (s.moved || moves op) = s.moved
    rw [hmoves, Bool.or_false]

/-- The connection performs the next operation of a handler. -/
theorem Mirrors.next {p q : Process} {c : Connection} {s : Session} {bodies : List Bytes}
    {t : ExactRead.Session Reading UnitT Effect} (h : Mirrors p c s bodies t)
    (hone : p.tokens c s ≤ 1) {k : Nat} {randomSalt sequence : List.Vector UnitT 4} {op : Op}
    {ops : List Op} (hcode : s.loop.handlers[k]? = some (op :: ops))
    (hperformed : Performed (p.setSession c { s with loop := { s.loop with
      reads := s.loop.reads ++ op.start.toList, handlers := s.loop.handlers.set k ops } }) q c
        randomSalt sequence op)
    (hlt : ∀ j ∈ p.launcher.callees, j < p.owners.length) :
    Mirrors q c (Session.performed { s with loop := { s.loop with
      reads := s.loop.reads ++ op.start.toList, handlers := s.loop.handlers.set k ops } } op)
      bodies t := by
  cases hpasses : passes op with
  | false => exact h.next_quiet hcode hpasses hperformed
  | true =>
    have hperm := passing_perm hcode
    rw [List.filter_cons_of_pos hpasses, List.filter_nil, List.singleton_append] at hperm
    obtain ⟨hleads, hreads, hrest, hnone, hmoved⟩ := h.state.of_passing hone hperm
    refine ⟨stands_performed hleads hperformed hlt, h.buffer, h.requests, h.bodies, ?_⟩
    intro n pack hbody
    apply h.index n pack
    right
    rw [hperm.mem_iff, hrest]
    rcases hbody with hread | hop
    · change Read.body n pack ∈ s.loop.reads ++ op.start.toList at hread
      rw [hreads] at hread
      cases op with
      | startReadBody m pack' =>
        cases List.mem_singleton.mp hread
        exact List.mem_singleton_self _
      | startReadHeader | startTrigger m pack' => simp [Op.start] at hread
      | callback resp => cases hread
      | effect request e => cases hread
    · change Op.startReadBody n pack ∈ (s.loop.handlers.set k ops).flatMap _ at hop
      rw [hrest] at hop
      cases hop

/-- The callback of a job of the connection is called. -/
theorem Mirrors.callback {p q : Process} {c : Connection} {s : Session} {bodies : List Bytes}
    {t : ExactRead.Session Reading UnitT Effect} (h : Mirrors p c s bodies t)
    (hone : p.tokens c s ≤ 1) {j : JobId} (hj : j ∈ p.pending c) (resp : Packet) :
    Goes q c (s.post (callbackCode resp)) [] bodies t := by
  obtain ⟨⟨pack, hstate⟩, hreads, hpassing, hmoved⟩ := h.state.of_pending hone hj
  have hwait : reader.wait t.state = .signal := by
    rw [hstate]
    rfl
  have hleft : (s.post (callbackCode resp)).passing = [.startReadHeader] := by
    rw [Session.passing, Session.post, List.flatMap_append, List.flatMap_singleton]
    change s.passing ++ _ = _
    rw [hpassing]
    rfl
  refine ⟨[.resume resp], _, run_single (ExactRead.step_resume hwait resp), rfl, ?_, h.buffer, ?_,
    ?_, ?_⟩
  · refine .passing .startReadHeader ?_ _ ?_
    · rw [hleft]
      exact List.mem_singleton_self _
    · rw [hstate]
      rfl
  · rw [ExactRead.counted_after, counts.resumed, List.append_nil]
    exact h.requests
  · rw [ExactRead.counted_after, counts.resumed, List.append_nil]
    exact h.bodies
  · intro n pack hbody
    rw [hleft] at hbody
    rcases hbody with hread | hop
    · change Read.body n pack ∈ s.loop.reads at hread
      rw [hreads] at hread
      cases hread
    · simp at hop

/-- Bytes come in on the connection. -/
theorem Mirrors.arrive {p q : Process} {c : Connection} {s : Session} {bodies : List Bytes}
    {t : ExactRead.Session Reading UnitT Effect} (h : Mirrors p c s bodies t) (chunk : Bytes)
    (hpending : q.pending c = p.pending c) :
    Goes q c { s with loop := s.loop.arrive chunk } chunk bodies t :=
  ⟨[.arrive chunk], _, rfl, List.append_nil _,
    h.state.congr rfl (List.Perm.refl _) hpending rfl, congrArg (· ++ chunk) h.buffer,
    h.requests, h.bodies, h.index⟩

/-- A step of another brings the connection no bytes, and reads nothing from it. -/
theorem quiet_of_other {c : Connection} {a : Action} (h : a.connection? ≠ some c) (p : Process) :
    arrival c a = [] ∧ triggered c p a = [] := by
  cases a with
  | arrive c₀ chunk => exact ⟨if_neg fun hc => h (congrArg some hc), rfl⟩
  | complete c₀ i => exact ⟨rfl, if_neg fun hc => h (congrArg some hc)⟩
  | accept | fail | next | topics | launcher => exact ⟨rfl, rfl⟩

/-- A connection that was there follows every step of the process as the reader. -/
theorem Mirrors.step {p q : Process} {a : Action} (h : p.step a = some q) (hone : OneReader p)
    (hlt : ∀ j ∈ p.launcher.callees, j < p.launcher.jobs.length)
    (honce : q.launcher.callees.Nodup) {c : Connection} {s s' : Session}
    (hs : p.sessions[c]? = some s) (hs' : q.sessions[c]? = some s') {bodies : List Bytes}
    {t : ExactRead.Session Reading UnitT Effect} (hm : Mirrors p c s bodies t) :
    Goes q c s' (arrival c a) (bodies ++ triggered c p a) t := by
  have htokens := hone.one c s hs
  rw [← hone.jobs] at hlt
  have hstay : arrival c a = [] → triggered c p a = [] → Mirrors q c s' bodies t →
      Goes q c s' (arrival c a) (bodies ++ triggered c p a) t := by
    intro harrival hnone hsame
    rw [harrival, hnone, List.append_nil]
    exact hsame.stay
  obtain ⟨s'', hs'', hstep⟩ := sessionStep h hs
  rw [hs'] at hs''
  cases hs''
  cases hstep with
  | stays a other jobs =>
    obtain ⟨harrival, hnone⟩ := quiet_of_other other p
    exact hstay harrival hnone (hm.congr rfl rfl (List.Perm.refl _) rfl jobs.pending rfl)
  | arrive chunk jobs =>
    have hcome : arrival c (.arrive c chunk) = chunk := if_pos rfl
    have hnone : bodies ++ triggered c p (.arrive c chunk) = bodies := List.append_nil _
    rw [hcome, hnone]
    exact hm.arrive chunk jobs.pending
  | complete i r outstanding size jobs =>
    have htriggered : triggered c p (.complete c i) = s.triggerBody i := by
      rw [triggered, if_pos rfl, held_eq hs]
    rw [htriggered]
    exact hm.complete htokens outstanding size jobs.pending
  | fail i r outstanding jobs =>
    have hnone : bodies ++ triggered c p (.fail c i) = bodies := List.append_nil _
    rw [hnone]
    exact hm.fail htokens outstanding jobs.pending
  | next k randomSalt sequence op ops code performed =>
    exact hstay rfl rfl (hm.next htokens code performed hlt)
  | topics a out step jobs =>
    exact hstay rfl rfl (hm.congr rfl rfl (List.Perm.refl _) rfl jobs.pending rfl)
  | callback a done owner owners completions =>
    have hfresh := callee_fresh (callees_append completions) honce
    have hnone : bodies ++ triggered c p (.launcher a) = bodies := List.append_nil _
    rw [hnone]
    exact hm.callback htokens (mem_pending.mpr ⟨owner, hfresh⟩) done.pack

/-! ## Runs -/

/-- Every connection is the reader, after some steps in which the bytes of its client come in. -/
structure Mirrored (as : List Action) (p : Process) : Prop where
  there : ∀ (c : Connection) (s : Session), p.sessions[c]? = some s →
    Goes p c s (received c as) (triggers c as) (ExactRead.Session.start .header)
  absent : ∀ c : Connection, p.sessions[c]? = none → received c as = [] ∧ triggers c as = []

/-- Nothing comes in, and nothing is read, on a connection that is not there. -/
theorem absent_of_step {p q : Process} {a : Action} (h : p.step a = some q) {c : Connection}
    (hnone : p.sessions[c]? = none) : arrival c a = [] ∧ triggered c p a = [] := by
  cases step_cases h with
  | arrive c₀ chunk s found =>
    refine ⟨if_neg ?_, rfl⟩
    rintro rfl
    rw [hnone] at found
    cases found
  | complete c₀ i s found =>
    refine ⟨rfl, if_neg ?_⟩
    rintro rfl
    rw [hnone] at found
    cases found
  | _ => exact ⟨rfl, rfl⟩

theorem mirrors_accepted (p : Process) (c : Connection) :
    Mirrors p c Session.accepted [] (ExactRead.Session.start .header) := by
  refine ⟨.read .header (List.mem_singleton_self _), rfl, rfl, rfl, ?_⟩
  intro n pack hbody
  rcases hbody with hread | hop
  · cases List.mem_singleton.mp hread
  · cases hop

theorem Mirrored.step {as : List Action} {p q : Process} {a : Action} (hi : Mirrored as p)
    (hrun : run step init as = some p) (h : p.step a = some q) (hone : OneReader p)
    (hlt : ∀ j ∈ p.launcher.callees, j < p.launcher.jobs.length)
    (honce : q.launcher.callees.Nodup) : Mirrored (as ++ [a]) q := by
  have htriggers : ∀ c, triggers c (as ++ [a]) = triggers c as ++ triggered c p a :=
    fun c => trace_concat hrun a
  constructor
  · intro c s' hs'
    rw [received_concat, htriggers]
    cases hs : p.sessions[c]? with
    | some s =>
      obtain ⟨bs, t, hbs, harrived, hm⟩ := hi.there c s hs
      obtain ⟨cs, u, hcs, hcome, hu⟩ := hm.step h hone hlt honce hs hs'
      refine ⟨bs ++ cs, u, ?_, ?_, hu⟩
      · rw [run_append, hbs]
        exact hcs
      · rw [ExactRead.arrived_append, harrived, hcome]
    | none =>
      obtain ⟨rfl, rfl⟩ := accepted_of_step h hs hs'
      obtain ⟨hreceived, hnone⟩ := hi.absent c hs
      rw [hreceived, hnone]
      exact (mirrors_accepted q c).stay
  · intro c hnone
    have habsent : p.sessions[c]? = none := by
      cases hs : p.sessions[c]? with
      | none => rfl
      | some s =>
        obtain ⟨s', hs', -⟩ := session_of_step h hs
        rw [hnone] at hs'
        cases hs'
    obtain ⟨hreceived, hold⟩ := hi.absent c habsent
    obtain ⟨harrival, hnew⟩ := absent_of_step h habsent
    rw [received_concat, htriggers, hreceived, hold, harrival, hnew]
    exact ⟨rfl, rfl⟩

theorem run_mirrored {as : List Action} {p : Process} (hrun : run step init as = some p)
    (hanswers : Guarded step (OnLauncher Launcher.Answers) init as)
    (hother : Guarded step (OnLauncher Launcher.FindsNoOther) init as) : Mirrored as p := by
  revert hanswers hother
  refine run_induction (P := fun as p => Guarded step (OnLauncher Launcher.Answers) init as →
    Guarded step (OnLauncher Launcher.FindsNoOther) init as → Mirrored as p) ?_ ?_ as p hrun
  · intro _ _
    refine ⟨?_, fun c _ => ⟨rfl, rfl⟩⟩
    intro c s hs
    cases hs
  intro as p a q hp ih hq hanswers hother
  have hone := run_oneReader hp hanswers.prefix hother.prefix
  have hlt := (run_callees hp hanswers.prefix hother.prefix).2
  have honce := (run_callees (run_concat hp hq) hanswers hother).1
  exact (ih hanswers.prefix hother.prefix).step hp hq hone hlt honce

/-- The connection waits for bytes that have not come, or its socket was given away. -/
def Session.AtEnd (s : Session) : Prop :=
  s.moved = true ∨ ∃ r ∈ s.loop.reads, s.loop.buffer.length < r.size

/-- What a connection has done are the first commands of the bytes of its client. -/
theorem run_commands {as : List Action} {p : Process} (hrun : run step init as = some p)
    (hanswers : Guarded step (OnLauncher Launcher.Answers) init as)
    (hother : Guarded step (OnLauncher Launcher.FindsNoOther) init as) {c : Connection}
    {s : Session} (hs : p.sessions[c]? = some s) : ∃ done,
      done <+: commands .header (received c as) ∧
      s.requests = requestsOf done ∧ triggers c as = done.filterMap posted? ∧
      (s.AtEnd → done = commands .header (received c as)) := by
  have hone := (run_oneReader hrun hanswers hother).one c s hs
  obtain ⟨bs, t, hbs, harrived, hm⟩ := (run_mirrored hrun hanswers hother).there c s hs
  obtain ⟨hfirst, hall⟩ := ExactRead.run_follow productive counts hbs
  rw [harrived] at hfirst hall
  refine ⟨t.counted Effect.command?, hfirst, hm.requests, hm.bodies, ?_⟩
  intro hend
  apply hall
  rcases hend with hmoved | ⟨r, hr, hshort⟩
  · rw [ExactRead.Settled, hm.state.of_moved hone hmoved]
    trivial
  · obtain ⟨hstate, -⟩ := hm.state.of_read hone hr
    have hwait : reader.wait t.state = .read r.size := by
      rw [hstate]
      exact wait_reading r
    rw [ExactRead.Settled, hwait, hm.buffer]
    exact hshort

/-- What a connection does is what the bytes of its client ask for, in order, however they come
in and however the handlers of the server interleave: its requests with their bodies, and the
bodies of its triggers, are those of the first commands of the bytes, and of all of them when it
waits for bytes that have not come. This holds in runs in which the headers of jobs differ in key or
salt and workers answer what they were given. -/
theorem follows_stream {as : List Action} {p : Process} (hrun : run step init as = some p)
    (hanswers : Guarded step (OnLauncher Launcher.Answers) init as)
    (hnodup : p.launcher.topics.Nodup) :
    ∀ (c : Connection) (s : Session), p.sessions[c]? = some s → ∃ done,
      done <+: commands .header (received c as) ∧
      s.requests = requestsOf done ∧ triggers c as = done.filterMap posted? ∧
      (s.AtEnd → done = commands .header (received c as)) :=
  fun _ _ hs => run_commands hrun hanswers (findsNoOther_of_run hrun hnodup) hs

theorem follows_stream_differentSalts : ∃ p s done,
    run step init (triggersRun 4 (callbackRun 0 2 ++ callbackRun 1 2)) = some p ∧
    p.sessions[0]? = some s ∧ s.loop.reads = [.header] ∧
    triggers 0 (triggersRun 4 (callbackRun 0 2 ++ callbackRun 1 2)) = done.filterMap posted? ∧
    (s.AtEnd → done = commands .header
      (received 0 (triggersRun 4 (callbackRun 0 2 ++ callbackRun 1 2)))) := by
  obtain ⟨p, hp, hend⟩ := Option.map_eq_some_iff.mp answeredRun_end
  obtain ⟨hnodup, -⟩ := Prod.mk.inj hend
  obtain ⟨p', hp', hreads⟩ := Option.map_eq_some_iff.mp differentSalts_end
  rw [hp] at hp'
  cases hp'
  obtain ⟨hclient, -⟩ := Prod.mk.inj hreads
  obtain ⟨s, hs, hreads⟩ := Option.map_eq_some_iff.mp hclient
  have hanswers := triggersRun_answers (c := 1) (k := 2) (Or.inr rfl)
  obtain ⟨done, -, -, hdone, hall⟩ :=
    follows_stream hp hanswers (of_decide_eq_true hnodup) 0 s hs
  exact ⟨p, s, done, hp, hs, hreads, hdone, hall⟩

end CppSerializer.Process
