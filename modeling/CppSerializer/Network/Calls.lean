import CppSerializer.Network.Sockets
import CppSerializer.Process.Clients

/-!
# Triggers, from socket to socket

What a client gets for a trigger is on the socket of a worker: the response to the packet that was
made of the body of that trigger and pushed to that worker (`triggers_on_wire`). Both ends are the
bytes on the sockets, so nothing is assumed of how they are cut or when they are read; of the
workers it is assumed that they respond to what they were given, each time once.
-/

namespace CppSerializer.Network

open Pack Bucket ReadLoop TcpConnection Transition
open Launcher (JobId WorkerId)

variable {n : Network} {as : List Action}

/-- A worker that has told something is there. -/
theorem exists_worker (hrun : run step init as = some n) {w : WorkerId} {m : Worker.Message}
    (hm : m ∈ told w as) : ∃ ws, n.workers[w]? = some ws := by
  by_contra hnone
  have hlength : n.workers.length ≤ w := by
    apply List.getElem?_eq_none_iff.mp
    rw [Option.eq_none_iff_forall_ne_some]
    exact fun ws hws => hnone ⟨ws, hws⟩
  have habsent : told w as = [] := ((run_heard hrun).absent w hlength).2
  rw [habsent] at hm
  cases hm

theorem pushed_of_run {p q : Process} {bs : List Process.Action}
    (hrun : run Process.step p bs = some q) {w : WorkerId} {x : JobId × Packet}
    (hx : p.launcher.Pushed w x) : q.launcher.Pushed w x := by
  refine run_induction (P := fun _ q => q.launcher.Pushed w x) hx ?_ bs q hrun
  intro _ q a r _ ih hr
  rcases Process.launcher_of_step hr with hsame | ⟨l, hl, -⟩
  · rw [hsame]
    exact ih
  · exact ih.step hl

/-- The result was sent by a worker: it is that of a response on the socket of a worker that was
given the body, with the header of the packet that it was given in. -/
def OnWire (n : Network) (as : List Action) (body result : Bytes) : Prop :=
  ∃ w ws j given pack, n.workers[w]? = some ws ∧ n.process.launcher.Pushed w (j, given) ∧
    given.data.buf = body ∧
    pack.header =
      { given.header with type := .workerResponse, datasize := pack.header.datasize } ∧
    .response pack ∈ Worker.messages (leaves (received ws.connection as)) ∧
    pack.data.buf = result

/-- The responses that come in in a run are on the sockets of the workers at its end. -/
theorem onWire_of_respond (hrun : run step init as = some n)
    (hanswers : Guarded Process.step (Process.OnLauncher Launcher.Answers) Process.init
      (processRun as))
    (hother : Guarded Process.step (Process.OnLauncher Launcher.FindsNoOther) Process.init
      (processRun as)) {w : WorkerId} {origin : Option JobId} {pack : Packet}
    (hsaid : .launcher (.respond w origin pack) ∈ processRun as) {j : JobId} {given : Packet}
    (hgiven : n.process.launcher.Pushed w (j, given))
    (hheader : pack.header =
      { given.header with type := .workerResponse, datasize := pack.header.datasize }) :
    OnWire n as given.data.buf pack.data.buf := by
  have htold : .response pack ∈ told w as := by
    refine List.mem_filterMap.mpr ⟨_, hsaid, ?_⟩
    rw [toldBy, if_pos rfl]
  obtain ⟨ws, hws⟩ := exists_worker hrun htold
  have hleft := workers_follow hrun hanswers hother hws []
  rw [List.append_nil, List.append_nil] at hleft
  refine ⟨w, ws, j, given, pack, hws, hgiven, rfl, hheader, ?_, rfl⟩
  rw [hleft]
  exact (run_told hrun hws).1.subset htold

/-- So what workers compute is what is on their sockets. -/
theorem computes_onWire (hrun : run step init as = some n)
    (hanswers : Guarded Process.step (Process.OnLauncher Launcher.Answers) Process.init
      (processRun as))
    (hother : Guarded Process.step (Process.OnLauncher Launcher.FindsNoOther) Process.init
      (processRun as)) :
    Guarded Process.step (Process.OnLauncher (Launcher.Computes (OnWire n as))) Process.init
      (processRun as) := by
  rintro pre a post p hsplit hp l rfl
  have hlast : Launcher.Answers p.launcher l := hanswers pre _ post p hsplit hp l rfl
  refine ⟨hlast, ?_⟩
  rintro w j pack rfl worker given hworker hgiven
  obtain ⟨j', given', worker', hj, hworker', hgiven', hheader⟩ := hlast.1 w (some j) pack rfl
  cases hj
  rw [hworker] at hworker'
  cases hworker'
  -- a job has one packet, however often it was pushed
  have hsame : given = given' := by
    obtain ⟨ls, hls, -⟩ := Process.run_launcher (G := fun _ _ => True) (fun _ _ _ => trivial) hp
      fun _ _ _ _ _ _ _ _ => trivial
    have hpacket := Launcher.run_given hls
    have hposted : ∀ x ∈ worker.posted, x ∈ p.launcher.allPosted := fun x hx =>
      Launcher.mem_allPosted.mpr ⟨worker, List.mem_of_getElem? hworker, hx⟩
    have hfirst := hpacket _ (hposted _ hgiven)
    rw [hpacket _ (hposted _ hgiven')] at hfirst
    exact (Option.some.inj hfirst).symm
  subst hsame
  have hrest : run Process.step p (.launcher (.respond w (some j) pack) :: post) =
      some n.process := by
    obtain ⟨p', hp', hrest⟩ := run_append_some (hsplit ▸ run_process hrun)
    rw [hp] at hp'
    cases hp'
    exact hrest
  have hsaid : .launcher (.respond w (some j) pack) ∈ processRun as := by
    rw [hsplit]
    exact List.mem_append_right _ List.mem_cons_self
  exact onWire_of_respond hrun hanswers hother hsaid
    (pushed_of_run hrest ⟨worker, hworker, hgiven⟩) hheader

/-- A client that sends triggers is sent, in order, one reply for each, each with the payload of a
response that is on the socket of a worker, to the packet with the body of that trigger that the
worker was given. One trigger at most that was read has no reply yet, and all have one when all
have come and the connection waits for more. This holds in runs in which the headers of jobs differ
in key or salt and workers answer what they were given. -/
theorem triggers_on_wire (hrun : run step init as = some n)
    (hanswers : Guarded Process.step (Process.OnLauncher Launcher.Answers) Process.init
      (processRun as)) (hnodup : n.process.launcher.topics.Nodup) {c : Connection}
    {s : Process.Session} (hs : n.process.sessions[c]? = some s) {packets : List Packet}
    (hpackets : Process.Triggers packets) (hcome : received c as <+: stream packets) :
    ∃ answered waiting, Process.triggers c (processRun as) = answered ++ waiting ∧
      answered ++ waiting <+: packets.map (fun pack => pack.data.buf) ∧
      List.Forall₂ (Process.IsReply (OnWire n as)) answered (s.writes.map Process.Write.pack) ∧
      waiting.length ≤ 1 ∧
      (received c as = stream packets →
        (∃ r ∈ s.loop.reads, s.loop.buffer.length < r.size) →
          answered = packets.map fun pack => pack.data.buf) := by
  have hprocess := run_process hrun
  have hother := Process.findsNoOther_of_run hprocess hnodup
  have hsockets := run_sockets hrun hanswers hother
  obtain ⟨answered, waiting, hsplit, hfirst, hanswered, hwaiting, hall⟩ :=
    Process.answered_of_triggers hprocess (computes_onWire hrun hanswers hother) hother hs hpackets
      ((hsockets.process_first c).trans hcome)
  refine ⟨answered, waiting, hsplit, hfirst, hanswered, hwaiting, ?_⟩
  rintro hcomplete ⟨r, hr, hshort⟩
  have hmoved : s.moved = false := by
    have htokens := (Process.run_oneReader hprocess hanswers hother).one c s hs
    have hpos := List.length_pos_of_mem hr
    rw [Process.tokens] at htokens
    exact Bool.toNat_eq_zero.mp (by omega)
  refine hall ?_ (Or.inr ⟨r, hr, hshort⟩)
  rw [← hcomplete]
  exact (hsockets.here c s hs hmoved).1.symm

theorem wireRun_client : ((run step init wireRun).map fun n =>
    (decide n.process.launcher.topics.Nodup, n.process.sessions[0]?.map fun s =>
      (s.loop.reads, s.loop.buffer))) = some (true, some ([.header], [])) := by
  decide +kernel

theorem triggers_on_wire_wireRun : ∃ n s, run step init wireRun = some n ∧
    n.process.sessions[0]? = some s ∧
    List.Forall₂ (Process.IsReply (OnWire n wireRun)) [[65]]
      (s.writes.map Process.Write.pack) := by
  obtain ⟨n, hn, hclient⟩ := Option.map_eq_some_iff.mp wireRun_client
  obtain ⟨hnodup, hclient⟩ := Prod.mk.inj hclient
  obtain ⟨s, hs, hclient⟩ := Option.map_eq_some_iff.mp hclient
  obtain ⟨hreads, hbuffer⟩ := Prod.mk.inj hclient
  have hpackets : Process.Triggers [⟨Process.requestHeader .trigger 1, ⟨[65]⟩⟩] := by
    constructor <;> decide
  have hcome : received 0 wireRun = stream [⟨Process.requestHeader .trigger 1, ⟨[65]⟩⟩] := by
    decide +kernel
  have hend : ∃ r ∈ s.loop.reads, s.loop.buffer.length < r.size := by
    refine ⟨.header, ?_, ?_⟩
    · rw [hreads]
      exact List.mem_singleton_self _
    · rw [hbuffer]
      decide
  obtain ⟨answered, waiting, -, -, hanswered, -, hall⟩ := triggers_on_wire hn answers_wireRun
    (of_decide_eq_true hnodup) hs hpackets (hcome ▸ List.prefix_rfl)
  obtain rfl := hall hcome hend
  exact ⟨n, s, hn, hs, hanswered⟩

end CppSerializer.Network
