import CppSerializer.Library.ReadLoop
import CppSerializer.Connection.Reader

/-!
# Workers that are listened to

`df::worker` with its handlers operation by operation, and with as many reads outstanding as
they have started. `got_eq_apply` says that a handler in one piece is what `Worker.reader` does.
While `valid_` is true a read is outstanding or a handler runs, until a body cannot be read, or
a header has a type without a name: `listened_iff` says that there is no other way for a valid
worker to go deaf.
-/

namespace CppSerializer

open Pack ReadLoop Transition

namespace Worker

/-- An `async_read` of `start_read_header`, or of `start_read_body` with the packet. -/
inductive Read
  | header
  | body (pack : Packet)
  deriving DecidableEq

/-- The operations of the handlers. -/
inductive Op
  | effect (e : Effect)
  | invalidate
  | startReadHeader
  | startReadBody (pack : Packet)
  deriving DecidableEq

/-- The switch of `start_read_header`. -/
def headerCode (pack : Packet) : List Op :=
  match pack.header.type with
  | .workerDereg => [.invalidate, .startReadHeader]
  | .workerResponse => [.startReadBody pack]
  | .ack => [.effect (.onWorkerAck pack), .startReadHeader]
  | .err | .put | .get | .workerReg | .workerPushRequest | .trigger => [.startReadHeader]
  | .unnamed _ => []

def Read.size : Read → Nat
  | .header => PacketHeader.bytesize
  | .body pack => pack.header.datasize.toNat

/-- The handler of a read that is complete. -/
def Read.got (r : Read) (buf : Bytes) : List Op :=
  match r with
  | .header =>
    match PacketHeader.parse buf 0 with
    | some h => headerCode ⟨h, ⟨[]⟩⟩
    | none => []
  | .body pack =>
    match PacketData.parse (BitVec.ofNat (8 * 4) buf.length) buf 0 with
    | some data => [.effect (.onWorkerResponse { pack with data := data }), .startReadHeader]
    | none => []

/-- The handler of a read that has failed. -/
def Read.failed : Read → List Op
  | .header => [.invalidate]
  | .body _ => []

def Op.start : Op → Option Read
  | .startReadHeader => some .header
  | .startReadBody pack => some (.body pack)
  | .effect _ | .invalidate => none

def program : Program Read Op UnitT := ⟨Read.size, Read.got, Read.failed, Op.start⟩

/-! ## Handlers in one piece -/

/-- What an operation does to the state of `Worker.reader`. -/
def Op.apply (r : State × List Effect) : Op → State × List Effect
  | .effect e => (r.1, r.2 ++ [e])
  | .invalidate => ({ r.1 with valid := false }, r.2)
  | .startReadHeader => ({ r.1 with reading := .header }, r.2)
  | .startReadBody pack => ({ r.1 with reading := .body pack }, r.2)

def Read.reading : Read → Reading
  | .header => .header
  | .body pack => .body pack

/-- `Worker.reader` performs the whole handler in one step. -/
theorem got_eq_apply (valid : Bool) (r : Read) (buf : Bytes) :
    (Worker.got ⟨valid, r.reading⟩ buf).1 =
      ((r.got buf).foldl Op.apply (⟨valid, .stopped⟩, [])).1 ∧
    (Worker.got ⟨valid, r.reading⟩ buf).2.filter (fun e => (Effect.parsed? e).isNone) =
      ((r.got buf).foldl Op.apply (⟨valid, .stopped⟩, [])).2 := by
  cases r with
  | header =>
    simp only [Read.reading, Worker.got, Read.got]
    cases PacketHeader.parse buf 0 with
    | none => exact ⟨rfl, rfl⟩
    | some h =>
      obtain ⟨type, key, datasize, sequence, randomSalt⟩ := h
      cases type <;> exact ⟨rfl, rfl⟩
  | body pack =>
    simp only [Read.reading, Worker.got, Read.got]
    cases PacketData.parse (BitVec.ofNat (8 * 4) buf.length) buf 0 with
    | none => exact ⟨rfl, rfl⟩
    | some data => exact ⟨rfl, rfl⟩

theorem failed_eq_apply (valid : Bool) (r : Read) :
    Worker.failed ⟨valid, r.reading⟩ = r.failed.foldl Op.apply (⟨valid, .stopped⟩, []) := by
  cases r <;> rfl

/-! ## Runs -/

/-- The part of `df::worker` that its handlers change, with its reads and handlers. -/
structure Session where
  valid : Bool
  loop : Loop Read Op UnitT

namespace Session

/-- Bytes come in, read `i` is complete or has failed, handler `k` performs its next
operation. -/
inductive Action
  | arrive (chunk : Bytes)
  | complete (i : Nat)
  | fail (i : Nat)
  | next (k : Nat)
  deriving DecidableEq

/-- `add_worker` has called `start_read_header`. -/
def init : Session := ⟨true, .listening .header⟩

def step (s : Session) : Action → Option Session
  | .arrive chunk => some { s with loop := s.loop.arrive chunk }
  | .complete i => (s.loop.complete program i).map fun loop => { s with loop := loop }
  | .fail i => (s.loop.fail program i).map fun loop => { s with loop := loop }
  | .next k => (s.loop.next program k).map fun r =>
    { valid := s.valid && r.1 != .invalidate, loop := r.2 }

end Session

open Session

/-- A worker that counts as valid has one read outstanding, or is in one handler. -/
def Session.Listened (s : Session) : Prop :=
  s.valid = true → (∃ r, s.loop.Listens r) ∨ ∃ op ops, s.loop.Handles (op :: ops)

/-- The condition on the state before a read ends: if the worker is valid, it is not a body that
fails, and not a header of a type without a name. -/
def Session.KeepsListening (s : Session) (a : Action) : Prop :=
  s.valid = true → (∀ i pack, a = .fail i → s.loop.reads[i]? ≠ some (.body pack)) ∧
    ∀ i h, a = .complete i → s.loop.reads[i]? = some .header →
      PacketHeader.parse (s.loop.buffer.take PacketHeader.bytesize) 0 = some h →
        h.type.IsEnumerator

/-! ## The code of the handlers -/

/-- What a handler can have left to do: a read is its last operation, or it makes the worker
invalid. -/
inductive Code : List Op → Prop
  | done : Code []
  | start (op : Op) (r : Read) (reads : op.start = some r) : Code [op]
  | before (op op' : Op) (r : Read) (silent : op.start = none) (reads : op'.start = some r) :
      Code [op, op']
  | invalidate : Code [.invalidate]

theorem code_header (pack : Packet) : Code (headerCode pack) := by
  obtain ⟨⟨type, key, datasize, sequence, randomSalt⟩, data⟩ := pack
  cases type with
  | workerDereg | ack => exact .before _ _ .header rfl rfl
  | workerResponse => exact .start _ _ rfl
  | unnamed b => exact .done
  | _ => exact .start _ .header rfl

theorem code_got (r : Read) (buf : Bytes) : Code (r.got buf) := by
  cases r with
  | header =>
    simp only [Read.got]
    split
    · exact code_header _
    · exact .done
  | body pack =>
    simp only [Read.got]
    split
    · exact .before _ _ .header rfl rfl
    · exact .done

theorem code_failed (r : Read) : Code r.failed := by
  cases r with
  | header => exact .invalidate
  | body pack => exact .done

theorem headerCode_ne_nil {pack : Packet} (h : pack.header.type.IsEnumerator) :
    headerCode pack ≠ [] := by
  obtain ⟨⟨type, key, datasize, sequence, randomSalt⟩, data⟩ := pack
  cases type with
  | unnamed b => exact absurd h id
  | _ => exact List.cons_ne_nil _ _

/-- The handler of a read that is complete has something to do, unless the type of its header
has no name. -/
theorem got_ne_nil {r : Read} {buf : Bytes} (hbuf : r.size = buf.length)
    (hheader : r = .header → ∀ h, PacketHeader.parse buf 0 = some h → h.type.IsEnumerator) :
    r.got buf ≠ [] := by
  cases r with
  | header =>
    obtain ⟨h, hparse⟩ := Option.isSome_iff_exists.mp
      (PacketHeader.parse_isSome (Nat.le_of_eq hbuf))
    simp only [Read.got, hparse]
    exact headerCode_ne_nil (hheader rfl h hparse)
  | body pack =>
    simp only [Read.got, parse_body hbuf.symm]
    exact List.cons_ne_nil _ _

/-! ## The invariant -/

/-- The worker listens, or one handler runs, which is done only in an invalid worker. -/
def Session.Alive (s : Session) : Prop :=
  (∃ r, s.loop.Listens r) ∨
    ∃ ops, s.loop.Handles ops ∧ Code ops ∧ (s.valid = true → ops ≠ [])

theorem Session.Alive.listened {s : Session} (h : s.Alive) : s.Listened := by
  intro hvalid
  rcases h with hlistens | ⟨ops, hhandles, -, hne⟩
  · exact Or.inl hlistens
  · cases ops with
    | nil => exact absurd rfl (hne hvalid)
    | cons op ops => exact Or.inr ⟨op, ops, hhandles⟩

theorem alive_next {s t : Session} {k : Nat} (h : s.Alive) (hstep : s.step (.next k) = some t) :
    t.Alive := by
  obtain ⟨⟨op, loop⟩, hnext, rfl⟩ := Option.map_eq_some_iff.mp hstep
  rcases h with ⟨r, hlistens⟩ | ⟨ops, hhandles, hcode, hne⟩
  · rw [hlistens.next] at hnext
    cases hnext
  · obtain ⟨rest, rfl, hreads, honly⟩ := hhandles.next hnext
    change loop.reads = op.start.toList at hreads
    cases hcode with
    | start _ r hstart =>
      rw [hstart] at hreads
      exact Or.inl ⟨r, hreads, honly⟩
    | before _ op' r hsilent hstart =>
      rw [hsilent] at hreads
      exact Or.inr ⟨[op'], ⟨hreads, honly⟩, .start op' r hstart, fun _ => List.cons_ne_nil _ _⟩
    | invalidate =>
      refine Or.inr ⟨[], ⟨hreads, honly⟩, .done, ?_⟩
      intro hvalid
      simp at hvalid

theorem alive_step {s t : Session} {a : Action} (h : s.Alive) (hguard : s.KeepsListening a)
    (hstep : s.step a = some t) : t.Alive := by
  cases a with
  | arrive chunk =>
    cases hstep
    rcases h with ⟨r, hlistens⟩ | ⟨ops, hhandles, hcode⟩
    · exact Or.inl ⟨r, hlistens.arrive chunk⟩
    · exact Or.inr ⟨ops, hhandles.arrive chunk, hcode⟩
  | complete i =>
    obtain ⟨loop, hcomplete, rfl⟩ := Option.map_eq_some_iff.mp hstep
    rcases h with ⟨r, hlistens⟩ | ⟨ops, hhandles, -⟩
    · obtain ⟨hsize, hafter⟩ := hlistens.complete hcomplete
      refine Or.inr ⟨_, hafter, code_got r _, ?_⟩
      intro hvalid
      apply got_ne_nil
      · exact (List.length_take_of_le hsize).symm
      · rintro rfl h hparse
        obtain ⟨r', hr, -⟩ := Loop.complete_some hcomplete
        obtain ⟨rfl, -⟩ := Loop.erase_of_listens hlistens hr
        exact (hguard hvalid).2 i h rfl hr hparse
    · rw [hhandles.complete] at hcomplete
      cases hcomplete
  | fail i =>
    obtain ⟨loop, hfail, rfl⟩ := Option.map_eq_some_iff.mp hstep
    rcases h with ⟨r, hlistens⟩ | ⟨ops, hhandles, -⟩
    · refine Or.inr ⟨_, hlistens.fail hfail, code_failed r, ?_⟩
      intro hvalid
      obtain ⟨r', hr, -⟩ := Loop.fail_some hfail
      obtain ⟨rfl, -⟩ := Loop.erase_of_listens hlistens hr
      cases r' with
      | header => exact List.cons_ne_nil _ _
      | body pack => exact absurd hr ((hguard hvalid).1 i pack rfl)
    · rw [hhandles.fail] at hfail
      cases hfail
  | next k => exact alive_next h hstep

theorem run_alive {as : List Action} {s : Session}
    (hrun : run Session.step Session.init as = some s)
    (hguard : Guarded Session.step KeepsListening Session.init as) : s.Alive := by
  refine run_guarded (I := Session.Alive) ?_ ?_ hrun hguard
  · exact Or.inl ⟨Read.header, Loop.listens_listening Read.header⟩
  · intro s a t hs hG ht
    exact alive_step hs hG ht

/-- A read that ends the loop of a valid worker leaves it deaf. -/
theorem keepsListening_of_listened {s t : Session} {a : Action} (hs : s.Listened)
    (hstep : s.step a = some t) (ht : t.Listened) : s.KeepsListening a := by
  intro hvalid
  have hdeaf : ∀ loop, t = { s with loop := loop } → loop.Handles [] → False := by
    rintro loop rfl hhandles
    rcases ht hvalid with ⟨r, hlistens⟩ | ⟨op, ops, hhandles'⟩
    · have hnone : [r] = [] := hlistens.1.symm.trans hhandles.1
      cases hnone
    · have hnone := OnlyLeft.nil_iff.mp hhandles.2
      obtain ⟨i, handler, hi, he⟩ := hhandles'.2.exists_entry (List.cons_ne_nil op ops)
      rw [hnone handler (List.mem_of_getElem? hi)] at he
      cases he
  refine ⟨?_, ?_⟩
  · rintro i pack rfl hr
    obtain ⟨loop, hfail, hloop⟩ := Option.map_eq_some_iff.mp hstep
    rcases hs hvalid with ⟨r, hlistens⟩ | ⟨op, ops, hhandles⟩
    · obtain ⟨rfl, -⟩ := Loop.erase_of_listens hlistens hr
      exact hdeaf loop hloop.symm (hlistens.fail hfail)
    · rw [hhandles.fail] at hfail
      cases hfail
  · rintro i h rfl hr hparse
    obtain ⟨loop, hcomplete, hloop⟩ := Option.map_eq_some_iff.mp hstep
    rcases hs hvalid with ⟨r, hlistens⟩ | ⟨op, ops, hhandles⟩
    · obtain ⟨rfl, -⟩ := Loop.erase_of_listens hlistens hr
      obtain ⟨-, hafter⟩ := hlistens.complete hcomplete
      change loop.Handles (Read.got .header (s.loop.buffer.take PacketHeader.bytesize)) at hafter
      simp only [Read.got, hparse] at hafter
      obtain ⟨type, key, datasize, sequence, randomSalt⟩ := h
      cases type with
      | unnamed b => exact hdeaf loop hloop.symm hafter
      | _ => trivial
    · rw [hhandles.complete] at hcomplete
      cases hcomplete

/-- In a run the worker is listened to whenever it is valid exactly if, while it is, no body
fails to be read and every header has a type with a name. -/
theorem listened_iff {as : List Action} {s : Session}
    (hrun : run Session.step Session.init as = some s) :
    (∀ pre t, pre <+: as → run Session.step Session.init pre = some t → t.Listened) ↔
      Guarded Session.step KeepsListening Session.init as := by
  constructor
  · intro hall pre a post t has ht
    rw [has, run_append, ht, Option.bind_some, run_cons] at hrun
    obtain ⟨u, hu, -⟩ := Option.bind_eq_some_iff.mp hrun
    refine keepsListening_of_listened ?_ hu ?_
    · exact hall pre t ⟨a :: post, has.symm⟩ ht
    · exact hall _ u ⟨post, by rw [has]; simp⟩ (run_concat ht hu)
  · rintro hguard pre t ⟨post, rfl⟩ ht
    exact (run_alive ht hguard.prefix).listened

/-! ## A body that cannot be read -/

/-- The header of a response with two bytes, for no job in particular. -/
def responseHeader : PacketHeader :=
  { type := .workerResponse, key := List.Vector.replicate 32 0, datasize := 2
    sequence := List.Vector.replicate 4 2, randomSalt := List.Vector.replicate 4 1 }

/-- The header comes in and is handled; the socket fails before the body comes. -/
def deafRun : List Action :=
  [.arrive responseHeader.bytes, .complete 0, .next 0, .fail 0]

theorem deafRun_end : ((run Session.step Session.init deafRun).map fun s =>
    (s.valid, s.loop.reads, s.loop.handlers)) = some (true, [], [[], []]) := by
  decide +kernel

theorem deaf_worker : ¬ ∀ as s, run Session.step Session.init as = some s → s.Listened := by
  intro hall
  obtain ⟨s, hs, hend⟩ := Option.map_eq_some_iff.mp deafRun_end
  simp only [Prod.mk.injEq] at hend
  obtain ⟨hvalid, hreads, hhandlers⟩ := hend
  rcases hall _ s hs hvalid with ⟨r, hlistens⟩ | ⟨op, ops, hhandles⟩
  · rw [Loop.Listens, hreads] at hlistens
    cases hlistens.1
  · rw [Loop.Handles, hhandlers] at hhandles
    cases hhandles.2

theorem listened_iff_deafRun : ∃ s, run Session.step Session.init deafRun = some s ∧
    ((∀ pre t, pre <+: deafRun → run Session.step Session.init pre = some t → t.Listened) ↔
      Guarded Session.step KeepsListening Session.init deafRun) := by
  obtain ⟨s, hs, -⟩ := Option.map_eq_some_iff.mp deafRun_end
  exact ⟨s, hs, listened_iff hs⟩

end Worker

end CppSerializer
