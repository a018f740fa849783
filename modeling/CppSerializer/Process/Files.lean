import CppSerializer.Jsre.Request
import CppSerializer.Process.Calls

/-!
# File requests, from the client to the workers

The loops of `slsfs-client.cpp` send triggers whose bodies are file requests. The server does not
look into a body: a worker is given each of them once, as it was sent, and reads its uuid and its
data out of it; it has no means to read the type and the operation, and the position and the size
were lost by `to_network_format` before it was sent (`requests_given`).
-/

namespace CppSerializer

open Pack Bucket ByteString ReadLoop TcpConnection Transition
open Launcher (JobId)

/-! ## The client -/

namespace SlsfsClient

/-- What a pass of a loop draws for `gen`, and the bytes that stand between the members of its
struct. -/
structure Draw where
  randomSalt : List.Vector UnitT 4
  sequence : List.Vector UnitT 4
  padding : Jsre.Padding

/-- A pass of a loop: its `jsre::request`, what is copied behind it, and what it draws. -/
structure FileRequest where
  request : Jsre.Request
  payload : Bytes
  draw : Draw

namespace FileRequest

/-- The `buf` of the packet. -/
def body (r : FileRequest) : Bytes := r.request.toPayload r.draw.padding r.payload

/-- The packet after `gen`. The uuid of the request is its key. -/
def packet (r : FileRequest) : Packet :=
  let header : PacketHeader := {
    type := .trigger, key := r.request.uuid, datasize := 0
    sequence := List.Vector.replicate 4 0, randomSalt := List.Vector.replicate 4 0 }
  { header := header.gen r.draw.randomSalt r.draw.sequence, data := ⟨r.body⟩ }

/-- The packet can be serialized. -/
def Fits (r : FileRequest) : Prop :=
  PacketHeader.bytesize + Jsre.sizeofRequest + r.payload.length < 2 ^ 32

/-- The body is that of the request, and this is what a worker reads out of it, with a
`request_parser` of a const `CharType` for the data. -/
structure Seen (r : FileRequest) (body : Bytes) : Prop where
  eq : body = r.body
  type : Jsre.RequestParser.type body = none
  operation : Jsre.RequestParser.operation body = none
  uuid : Jsre.RequestParser.uuid body = some r.request.uuid
  position : Jsre.RequestParser.position body = some (-1)
  size : Jsre.RequestParser.size body = some (-1)
  data : Jsre.RequestParser.data true body = some r.payload

theorem seen_body (r : FileRequest) : r.Seen r.body where
  eq := rfl
  type := Jsre.RequestParser.type_eq_none _
  operation := Jsre.RequestParser.operation_eq_none _
  uuid := Jsre.RequestParser.uuid_toPayload ..
  position := Jsre.RequestParser.position_toPayload ..
  size := Jsre.RequestParser.size_toPayload ..
  data := Jsre.RequestParser.data_toPayload ..

end FileRequest

/-- The keys of the two loops differ in the last byte. -/
def key (last : UnitT) : KeyT :=
  ⟨[7, 8, 7, 8, 7, 8, 7, 8, 7, 8, 7, 8, 7, 8, 7, 8, 7, 8, 7, 8, 7, 8, 7, 8, 7, 8, 7, 8, 7, 8, 7,
    last], rfl⟩

/-- The request of a pass; the position is an `int`. -/
def request (uuid : KeyT) (operation : Jsre.OperationT) (position : UIntN 4) (bufsize : Nat) :
    Jsre.Request where
  type := .file
  operation := operation
  uuid := uuid
  position := position.signExtend 64
  size := BitVec.ofNat 64 bufsize

/-- The requests of `readtest`. -/
def readtest (times bufsize : Nat) (genpos : Nat → UIntN 4) (draw : Nat → Draw) :
    List FileRequest :=
  (List.range times).map fun i => ⟨request (key 9) .read (genpos i) bufsize, [], draw i⟩

/-- The requests of `writetest`. -/
def writetest (times bufsize : Nat) (genpos : Nat → UIntN 4) (draw : Nat → Draw) :
    List FileRequest :=
  (List.range times).map fun i =>
    ⟨request (key 8) .write (genpos i) bufsize, List.replicate bufsize 'A'.toUInt8, draw i⟩

theorem FileRequest.length_body (r : FileRequest) :
    r.body.length = Jsre.sizeofRequest + r.payload.length := by
  rw [FileRequest.body, Jsre.Request.toPayload, List.length_append, Jsre.Request.length_bytes]

theorem fits_readtest {times bufsize : Nat} (genpos : Nat → UIntN 4) (draw : Nat → Draw) :
    ∀ r ∈ readtest times bufsize genpos draw, r.Fits := by
  intro r hr
  obtain ⟨i, -, rfl⟩ := List.mem_map.mp hr
  show PacketHeader.bytesize + Jsre.sizeofRequest + 0 < 2 ^ 32
  decide

theorem fits_writetest {times bufsize : Nat} (genpos : Nat → UIntN 4) (draw : Nat → Draw)
    (hsize : PacketHeader.bytesize + Jsre.sizeofRequest + bufsize < 2 ^ 32) :
    ∀ r ∈ writetest times bufsize genpos draw, r.Fits := by
  intro r hr
  obtain ⟨i, -, rfl⟩ := List.mem_map.mp hr
  rw [FileRequest.Fits, List.length_replicate]
  exact hsize

theorem bodies_packets (requests : List FileRequest) :
    (requests.map FileRequest.packet).map (fun pack => pack.data.buf) =
      requests.map FileRequest.body := by
  rw [List.map_map]
  rfl

theorem triggers_packets {requests : List FileRequest} (hfits : ∀ r ∈ requests, r.Fits) :
    Process.Triggers (requests.map FileRequest.packet) where
  type := by
    intro pack hpack
    obtain ⟨r, -, rfl⟩ := List.mem_map.mp hpack
    rfl
  size := by
    intro pack hpack
    obtain ⟨r, hr, rfl⟩ := List.mem_map.mp hpack
    show PacketHeader.bytesize + r.body.length < 2 ^ 32
    rw [r.length_body, ← Nat.add_assoc]
    exact hfits r hr

end SlsfsClient

/-! ## The workers -/

namespace Process

open SlsfsClient

variable {p : Process} {as : List Action} {c : Connection} {s : Session}

/-- A connection that has handed its token on is about to submit nothing. -/
theorem left_of_passing (h : s.passing = []) : s.left bodyOf = [] := by
  rw [Session.passing, List.flatMap_eq_nil_iff] at h
  rw [Session.left, List.flatMap_eq_nil_iff]
  intro code hcode
  rw [List.flatMap_eq_nil_iff]
  intro op hop
  have hnot := List.filter_eq_nil_iff.mp (h code hcode) op hop
  cases op with
  | effect request e =>
    cases e with
    | startTriggerPost body => exact absurd rfl hnot
    | _ => rfl
  | _ => rfl

/-- A job whose callback was called is with a worker. -/
theorem posted_of_callee (hrun : run step init as = some p)
    (hanswers : Guarded step (OnLauncher Launcher.Answers) init as)
    (hother : Guarded step (OnLauncher Launcher.FindsNoOther) init as) {j : JobId}
    (hj : j ∈ p.launcher.callees) : j ∈ p.launcher.allPosted.map Prod.fst := by
  obtain ⟨ls, hls, hall, hnone⟩ :=
    run_launcher_other (fun l a => answers_of_call l) hrun hanswers hother
  have hecho := hall.mono fun _ _ h => h.1
  obtain ⟨done, hdone, rfl⟩ := List.mem_map.mp hj
  have hreceived := Launcher.run_callees hls hecho hnone done hdone
  obtain ⟨w, pack, worker, hworker, hgiven⟩ :=
    Launcher.pushed_of_received hls hecho (List.mem_of_getElem? hreceived)
  exact List.mem_map_of_mem (f := Prod.fst)
    (Launcher.mem_allPosted.mpr ⟨worker, List.mem_of_getElem? hworker, hgiven⟩)

/-- When no callback is outstanding, no body is left in the queue or with a loop of
`start_jobs`. -/
theorem undelivered_eq_nil (hrun : run step init as = some p)
    (hanswers : Guarded step (OnLauncher Launcher.Answers) init as)
    (hother : Guarded step (OnLauncher Launcher.FindsNoOther) init as)
    (hpending : p.pending c = []) : (p.launcher.registeredJobs ++
      p.launcher.calls.flatMap Launcher.Call.popped).flatMap (p.jobBody c) = [] := by
  rw [List.flatMap_eq_nil_iff]
  intro j hj
  rw [jobBody]
  split
  · rename_i howner
    exfalso
    have hcallee : j ∈ p.launcher.callees := by
      by_contra hnot
      have hmem := mem_pending.mpr ⟨howner, hnot⟩
      rw [hpending] at hmem
      cases hmem
    obtain ⟨ls, hls, -⟩ := run_launcher (G := fun _ _ => True) (fun _ _ _ => trivial) hrun
      fun _ _ _ _ _ _ _ _ => trivial
    -- every job is in one place only
    have hnodup := (places_perm hls).nodup_iff.mpr List.nodup_range
    exact (List.nodup_append.mp hnodup).2.2 j hj j
      (posted_of_callee hrun hanswers hother hcallee) rfl
  · rfl

/-- Of the file requests of a client, each worker is given some, each as it was sent and once in
all; when all have come and the connection waits for more, every one was given to a worker. Out of
what it was given a worker reads the uuid and the data of the request, and `-1` for its position and
for its size; its type and its operation it cannot read. This holds in runs in which the headers of
jobs differ in key or salt and workers answer what they were given. -/
theorem requests_given (hrun : run step init as = some p)
    (hanswers : Guarded step (OnLauncher Launcher.Answers) init as)
    (hnodup : p.launcher.topics.Nodup) (hs : p.sessions[c]? = some s) {requests : List FileRequest}
    (hfits : ∀ r ∈ requests, r.Fits)
    (hcome : received c as <+: stream (requests.map FileRequest.packet)) :
    (p.given c).Subperm (requests.map FileRequest.body) ∧
      (received c as = stream (requests.map FileRequest.packet) → s.AtEnd →
        (p.given c).Perm (requests.map FileRequest.body)) ∧
      ∀ body ∈ p.given c, ∃ r ∈ requests, r.Seen body := by
  have hother := findsNoOther_of_run hrun hnodup
  obtain ⟨ls, hls, -⟩ := run_launcher (G := fun _ _ => True) (fun _ _ _ => trivial) hrun
    fun _ _ _ _ _ _ _ _ => trivial
  have hplaces := bodies_perm hrun hls hs
  obtain ⟨-, hfirst, hall⟩ :=
    triggers_of_packets hrun hanswers hother hs (triggers_packets hfits) hcome
  rw [bodies_packets] at hfirst hall
  have hgiven : (p.given c).Subperm (requests.map FileRequest.body) :=
    ((List.sublist_append_right _ _).subperm.trans hplaces.subperm).trans hfirst.sublist.subperm
  refine ⟨hgiven, ?_, ?_⟩
  · intro hcomplete hend
    have hone := run_oneReader hrun hanswers hother
    have hquiet := quiet_of_atEnd (hone.one c s hs) hend
    have hleft := left_of_passing (s := s) (List.length_eq_zero_iff.mp (by omega))
    have hnone := undelivered_eq_nil (c := c) hrun hanswers hother
      (List.length_eq_zero_iff.mp (by omega))
    rw [List.flatMap_append] at hnone
    rw [hall hcomplete hend, hleft, List.nil_append, hnone, List.nil_append] at hplaces
    exact hplaces
  · intro body hbody
    obtain ⟨r, hr, rfl⟩ := List.mem_map.mp (hgiven.subset hbody)
    exact ⟨r, hr, r.seen_body⟩

/-- A write of three bytes. -/
def threeBytes : List FileRequest :=
  writetest 1 3 (fun _ => 5)
    fun _ => ⟨List.Vector.replicate 4 1, List.Vector.replicate 4 1, List.Vector.replicate 6 0⟩

/-- It comes in in two pieces, and a worker registers and is given it. -/
def threeBytesRun : List Action :=
  let draw := List.Vector.replicate 4 2
  let bytes := stream (threeBytes.map FileRequest.packet)
  [.accept, .accept, .arrive 0 (bytes.take 50), .complete 0 0, .next 0 0 draw draw,
    .arrive 0 (bytes.drop 50), .complete 0 0, .next 0 1 draw draw,
    .arrive 1 (requestHeader .workerReg 0).bytes, .complete 1 0, .next 1 0 draw draw] ++
  [.call 0 .emplace, .call 0 (.tryPop), .call 0 (.look 0), .call 0 .startPost].map Action.launcher

theorem threeBytesRun_end : ((run step init threeBytesRun).map fun p =>
    (decide p.launcher.topics.Nodup, p.sessions.length, p.given 0)) =
      some (true, 2, threeBytes.map FileRequest.body) := by
  decide +kernel

theorem requests_given_threeBytesRun : ∃ p, run step init threeBytesRun = some p ∧
    p.given 0 = threeBytes.map FileRequest.body ∧
    (p.given 0).Subperm (threeBytes.map FileRequest.body) ∧
    ∀ body ∈ p.given 0, ∃ r ∈ threeBytes, r.Seen body := by
  obtain ⟨p, hp, hend⟩ := Option.map_eq_some_iff.mp threeBytesRun_end
  simp only [Prod.mk.injEq, decide_eq_true_eq] at hend
  obtain ⟨hnodup, hsessions, hgiven⟩ := hend
  have hs : p.sessions[0]? = some p.sessions[0] := List.getElem?_eq_getElem (by omega)
  have hanswers : Guarded step (OnLauncher Launcher.Answers) init threeBytesRun := by
    apply guarded_of_forall
    intro a ha q l hl
    subst hl
    apply Launcher.answers_of_ne
    rintro w origin pack rfl
    simp [threeBytesRun] at ha
  have hcome : received 0 threeBytesRun = stream (threeBytes.map FileRequest.packet) := by
    decide +kernel
  have hfits : ∀ r ∈ threeBytes, r.Fits := fits_writetest _ _ (by decide)
  have hstart : received 0 threeBytesRun <+: stream (threeBytes.map FileRequest.packet) := by
    rw [hcome]
  obtain ⟨hsub, -, hseen⟩ := requests_given hp hanswers hnodup hs hfits hstart
  exact ⟨p, hp, hgiven, hsub, hseen⟩

end Process

end CppSerializer
