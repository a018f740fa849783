import CppSerializer.Server.Round

/-!
# A sequential client reads its own write

Every client repeats its round, and no two rounds use the same key and salt, so the bucket of
a round is used by one client only and the step of one client's part of the system leaves the
parts of the others alone (`Inv.of_local`). What the packets read by a client are, what is on
the wire for it, and that the server does not stop with a request unanswered
(`read_your_write`), follows from the situations of a round and holds for every order of the
steps.
-/

namespace CppSerializer

open Pack AsyncWrite Bucket Transition

/-- Every round has a topic of its own, and it is not that of a trigger. -/
structure OwnTopics (rounds : Connection → List Round) : Prop where
  nodup : ∀ c, ((rounds c).map Round.topic).Nodup
  disjoint : ∀ c d r r', r ∈ rounds c → r' ∈ rounds d → r.topic = r'.topic → c = d
  notTrigger : ∀ c, ∀ r ∈ rounds c, ¬ IsTriggerTopic r.topic

/-! ## The part of one client -/

/-- The client rests after its last round, or is in the first of the rounds to do, and the
buckets of the others are not used yet. -/
def Current (c : Connection) (client : Client) (conn : TcpConnection) (buckets : Topic → Bucket) :
    List Round → Prop
  | [] => Rests client conn
  | r :: later => InRound c r client conn (buckets r.topic) ∧
    ∀ r' ∈ later, buckets r'.topic = Bucket.empty

structure ClientInv (c : Connection) (rounds : List Round) (client : Client)
    (conn : TcpConnection) (buckets : Topic → Bucket) : Prop where
  rounds_eq : client.replies.map Prod.fst ++ client.todo = rounds
  acks : ∀ x ∈ client.acks, x.2 = x.1.ackHeader
  replies : ∀ x ∈ client.replies, x.1.IsReply x.2
  finished : ∀ r ∈ client.replies.map Prod.fst, r.BucketAt c .delivered (buckets r.topic)
  current : Current c client conn buckets client.todo

variable {c : Connection} {r : Round} {rounds later : List Round} {client : Client}
  {conn conn' : TcpConnection} {buckets buckets' : Topic → Bucket} {b' : Bucket}

theorem topic_ne {before after : List Round} (h : ((before ++ after).map Round.topic).Nodup)
    {r r' : Round} (hr : r ∈ before) (hr' : r' ∈ after) : r.topic ≠ r'.topic := by
  rw [List.map_append, List.nodup_append] at h
  exact h.2.2 _ (List.mem_map_of_mem hr) _ (List.mem_map_of_mem hr')

theorem Current.congr {todo : List Round} (h : Current c client conn buckets todo)
    (hbuckets : ∀ r ∈ todo, buckets' r.topic = buckets r.topic) :
    Current c client conn buckets' todo := by
  cases todo with
  | nil => exact h
  | cons r later =>
    refine ⟨?_, fun r' hr' => ?_⟩
    · rw [hbuckets r List.mem_cons_self]
      exact h.1
    · rw [hbuckets r' (List.mem_cons_of_mem r hr')]
      exact h.2 r' hr'

theorem current_of_rests (h : Rests client conn) {todo : List Round}
    (hempty : ∀ r ∈ todo, buckets r.topic = Bucket.empty) : Current c client conn buckets todo := by
  cases todo with
  | nil => exact h
  | cons r later =>
    refine ⟨?_, fun r' hr' => hempty r' (List.mem_cons_of_mem r hr')⟩
    rw [hempty r List.mem_cons_self]
    exact h.inRound c r

namespace ClientInv

/-- Only the buckets of the rounds of the client matter. -/
theorem congr (h : ClientInv c rounds client conn buckets)
    (hbuckets : ∀ r ∈ rounds, buckets' r.topic = buckets r.topic) :
    ClientInv c rounds client conn buckets' := by
  have hmem := h.rounds_eq
  refine ⟨h.rounds_eq, h.acks, h.replies, ?_, ?_⟩
  · intro r hr
    rw [hbuckets r (hmem ▸ List.mem_append_left _ hr)]
    exact h.finished r hr
  · exact h.current.congr fun r hr => hbuckets r (hmem ▸ List.mem_append_right _ hr)

/-- The connection and the bucket of the current round have changed. -/
theorem update (h : ClientInv c rounds client conn buckets)
    (hnodup : (rounds.map Round.topic).Nodup) (htodo : client.todo = r :: later)
    (hinRound : InRound c r client conn' b') :
    ClientInv c rounds client conn' (Function.update buckets r.topic b') := by
  have hrounds := h.rounds_eq
  have hcurrent := h.current
  rw [htodo] at hrounds hcurrent
  refine ⟨h.rounds_eq, h.acks, h.replies, ?_, ?_⟩
  · intro r' hr'
    rw [Function.update_of_ne (topic_ne (hrounds ▸ hnodup) hr' List.mem_cons_self)]
    exact h.finished r' hr'
  · rw [htodo]
    refine ⟨by rwa [Function.update_self], fun r' hr' => ?_⟩
    have hne : r.topic ≠ r'.topic := by
      rw [← hrounds, List.append_cons] at hnodup
      exact topic_ne hnodup (List.mem_append_right _ List.mem_cons_self) hr'
    rw [Function.update_of_ne hne.symm]
    exact hcurrent.2 r' hr'

/-- The bucket of a finished round has changed. -/
theorem update_finished (h : ClientInv c rounds client conn buckets)
    (hnodup : (rounds.map Round.topic).Nodup) (hr : r ∈ client.replies.map Prod.fst)
    (hb : r.BucketAt c .delivered b') :
    ClientInv c rounds client conn (Function.update buckets r.topic b') := by
  have hrounds := h.rounds_eq
  refine ⟨h.rounds_eq, h.acks, h.replies, ?_, ?_⟩
  · intro r' hr'
    by_cases htopic : r'.topic = r.topic
    · have hsame : r' = r := List.inj_on_of_nodup_map hnodup
        (hrounds ▸ List.mem_append_left _ hr') (hrounds ▸ List.mem_append_left _ hr) htopic
      rw [hsame, Function.update_self]
      exact hb
    · rw [Function.update_of_ne htopic]
      exact h.finished r' hr'
  · exact h.current.congr fun r' hr' =>
      Function.update_of_ne (topic_ne (hrounds ▸ hnodup) hr hr').symm _ _

/-- A step of the client. -/
theorem step_client {client' : Client} {buf : Bytes} (h : ClientInv c rounds client conn buckets)
    (hstep : client.step (conn.socket.wire.drop client.taken) = some (client', buf)) :
    ClientInv c rounds client' { conn with underway := conn.underway ++ buf } buckets := by
  have hcurrent := h.current
  have hrounds := h.rounds_eq
  cases htodo : client.todo with
  | nil =>
    rw [Client.step, htodo] at hstep
    cases hstep
  | cons r later =>
    rw [htodo] at hcurrent hrounds
    obtain ⟨hinRound, hlater⟩ := hcurrent
    cases hinRound.client htodo hstep with
    | goesOn htodo' hreplies hacks hinRound' =>
      refine ⟨by rw [hreplies, htodo', h.rounds_eq], ?_, hreplies ▸ h.replies,
        hreplies ▸ h.finished, ?_⟩
      · rcases hacks with hacks | hacks
        · exact hacks ▸ h.acks
        · rw [hacks]
          intro x hx
          rcases List.mem_append.mp hx with hx | hx
          · exact h.acks x hx
          · rw [List.mem_singleton.mp hx]
      · rw [htodo', htodo]
        exact ⟨hinRound', hlater⟩
    | ends pack htodo' hacks hreplies hpack hrests hbucket =>
      refine ⟨?_, hacks ▸ h.acks, ?_, ?_, ?_⟩
      · rw [hreplies, htodo', ← hrounds]
        simp
      · rw [hreplies]
        intro x hx
        rcases List.mem_append.mp hx with hx | hx
        · exact h.replies x hx
        · rw [List.mem_singleton.mp hx]
          exact hpack
      · rw [hreplies, List.map_append]
        intro r' hr'
        rcases List.mem_append.mp hr' with hr' | hr'
        · exact h.finished r' hr'
        · rw [List.mem_singleton.mp hr']
          exact hbucket
      · rw [htodo']
        exact current_of_rests hrests hlater

/-- A step of the connection that leaves its client in the current situation. -/
theorem connection (h : ClientInv c rounds client conn buckets)
    (hinRound : ∀ r b, InRound c r client conn b → InRound c r client conn' b)
    (hrests : Rests client conn → Rests client conn') :
    ClientInv c rounds client conn' buckets := by
  refine ⟨h.rounds_eq, h.acks, h.replies, h.finished, ?_⟩
  have hcurrent := h.current
  cases hcase : client.todo with
  | nil =>
    rw [hcase] at hcurrent
    exact hrests hcurrent
  | cons r later =>
    rw [hcase] at hcurrent
    exact ⟨hinRound r _ hcurrent.1, hcurrent.2⟩

end ClientInv

/-! ## The invariant of the system -/

namespace System

structure Inv (rounds : Connection → List Round) (s : System) : Prop where
  clients : ∀ c, ClientInv c (rounds c) (s.clients c) (s.connections c) s.buckets
  unused : ∀ topic, (∀ c, ∀ r ∈ rounds c, r.topic ≠ topic) → s.buckets topic = Bucket.empty
  routed : ∀ topic, Routed topic (s.buckets topic)
  supplied : ∀ topic, Supplied (s.buckets topic)

theorem inv_init (rounds : Connection → List Round) : Inv rounds (init rounds) := by
  refine ⟨fun c => ?_, fun _ _ => rfl, fun topic => routed_empty topic, fun _ => supplied_empty⟩
  have hrests : Rests ((init rounds).clients c) ((init rounds).connections c) :=
    ⟨rfl, rfl, rfl, Socket.Pending.start⟩
  exact ⟨rfl, by simp [init], by simp [init], by simp [init],
    current_of_rests hrests fun _ _ => rfl⟩

variable {rounds : Connection → List Round} {s s' : System}

/-- A step that changes the client, the connection and the buckets of the rounds of `c` only. -/
theorem Inv.of_local (hown : OwnTopics rounds) (h : Inv rounds s) (c : Connection)
    (hothers : ∀ d, d ≠ c → s'.clients d = s.clients d ∧ s'.connections d = s.connections d)
    (hbuckets : ∀ topic, (∀ r ∈ rounds c, r.topic ≠ topic) → s'.buckets topic = s.buckets topic)
    (hc : ClientInv c (rounds c) (s'.clients c) (s'.connections c) s'.buckets)
    (hrouted : ∀ topic, Routed topic (s'.buckets topic))
    (hsupplied : ∀ topic, Supplied (s'.buckets topic)) : Inv rounds s' := by
  refine ⟨fun d => ?_, ?_, hrouted, hsupplied⟩
  · by_cases hd : d = c
    · rw [hd]
      exact hc
    · rw [(hothers d hd).1, (hothers d hd).2]
      refine (h.clients d).congr fun r hr => hbuckets r.topic fun r' hr' htopic => ?_
      exact hd (hown.disjoint d c r r' hr hr' htopic.symm)
  · intro topic hunused
    rw [hbuckets topic (hunused c)]
    exact h.unused topic hunused

/-! ## Steps of clients and connections -/

theorem Inv.stepClient (hown : OwnTopics rounds) (h : Inv rounds s) {c : Connection}
    (hstep : s.stepClient c = some s') : Inv rounds s' := by
  simp only [System.stepClient, Option.bind_eq_bind, Option.bind_eq_some_iff, Option.pure_def,
    Option.some.injEq, Prod.exists] at hstep
  obtain ⟨client', buf, hclient, rfl⟩ := hstep
  refine h.of_local hown c (fun d hd => ⟨?_, ?_⟩) (fun _ _ => rfl) ?_ h.routed h.supplied
  · exact Function.update_of_ne hd _ _
  · exact Function.update_of_ne hd _ _
  · simpa only [setConnection, Function.update_self] using (h.clients c).step_client hclient

/-- A step that changes a connection only. -/
theorem Inv.setConnection (hown : OwnTopics rounds) (h : Inv rounds s) {c : Connection}
    {conn : TcpConnection} (hinRound : ∀ r b, InRound c r (s.clients c) (s.connections c) b →
      InRound c r (s.clients c) conn b)
    (hrests : Rests (s.clients c) (s.connections c) → Rests (s.clients c) conn) :
    Inv rounds (s.setConnection c conn) := by
  refine h.of_local hown c (fun d hd => ⟨rfl, ?_⟩) (fun _ _ => rfl) ?_ h.routed h.supplied
  · exact Function.update_of_ne hd _ _
  · simpa only [System.setConnection, Function.update_self] using
      (h.clients c).connection hinRound hrests

theorem Inv.arrive (hown : OwnTopics rounds) (h : Inv rounds s) {c : Connection} {n : Nat}
    (hstep : s.arrive c n = some s') : Inv rounds s' := by
  simp only [System.arrive] at hstep
  split at hstep
  · cases hstep
    refine h.setConnection hown (fun _ _ hr => hr.arrive n) fun hr =>
      ⟨hr.stage, hr.reading, ?_, hr.reply⟩
    rw [List.append_assoc, List.take_append_drop, hr.request]
  · cases hstep

theorem Inv.send (hown : OwnTopics rounds) (h : Inv rounds s) {c : Connection} {i n : Nat}
    (hstep : s.send c i n = some s') : Inv rounds s' := by
  obtain ⟨socket, hsend, rfl⟩ := Option.map_eq_some_iff.mp hstep
  exact h.setConnection hown (fun _ _ hr => hr.send hsend) fun hr =>
    ⟨hr.stage, hr.reading, hr.request, hr.reply.send hsend⟩

/-! ## Reads and steps of buckets -/

@[simp] theorem setConnection_self (s : System) (c : Connection) :
    s.setConnection c (s.connections c) = s := by
  rw [System.setConnection, Function.update_eq_self]

/-- A step that changes a connection and the bucket of a round of its client. -/
theorem Inv.update (hown : OwnTopics rounds) (h : Inv rounds s) {c : Connection} {r : Round}
    {conn : TcpConnection} {b : Bucket} (hr : r ∈ rounds c)
    (hc : ClientInv c (rounds c) (s.clients c) conn (Function.update s.buckets r.topic b))
    (hrouted : Routed r.topic b) (hsupplied : Supplied b) :
    Inv rounds
      ({ s with buckets := Function.update s.buckets r.topic b }.setConnection c conn) := by
  refine h.of_local hown c (fun d hd => ⟨rfl, ?_⟩) ?_ ?_ ?_ ?_
  · exact Function.update_of_ne hd _ _
  · intro topic hne
    exact Function.update_of_ne (hne r hr).symm _ _
  · simpa only [System.setConnection, Function.update_self] using hc
  · intro topic
    by_cases htopic : topic = r.topic
    · subst htopic
      simpa only [System.setConnection, Function.update_self] using hrouted
    · simpa only [System.setConnection, Function.update_of_ne htopic] using h.routed topic
  · intro topic
    by_cases htopic : topic = r.topic
    · subst htopic
      simpa only [System.setConnection, Function.update_self] using hsupplied
    · simpa only [System.setConnection, Function.update_of_ne htopic] using h.supplied topic

theorem Inv.mem_rounds (h : Inv rounds s) {c : Connection} {r : Round} {later : List Round}
    (htodo : (s.clients c).todo = r :: later) : r ∈ rounds c := by
  rw [← (h.clients c).rounds_eq, htodo]
  exact List.mem_append_right _ List.mem_cons_self

theorem Inv.inRound (h : Inv rounds s) {c : Connection} {r : Round} {later : List Round}
    (htodo : (s.clients c).todo = r :: later) :
    InRound c r (s.clients c) (s.connections c) (s.buckets r.topic) ∧
      ∀ r' ∈ later, s.buckets r'.topic = Bucket.empty := by
  have hcurrent := (h.clients c).current
  rwa [htodo] at hcurrent

theorem Inv.rests (h : Inv rounds s) {c : Connection} (htodo : (s.clients c).todo = []) :
    Rests (s.clients c) (s.connections c) := by
  have hcurrent := (h.clients c).current
  rwa [htodo] at hcurrent

/-- The handler of the reader posts its task to the bucket of the round. -/
theorem effects_eq {c : Connection} {r : Round} {events : List TcpConnection.Effect} {b : Bucket}
    (hstarts : Starts c r (s.buckets r.topic) events b) :
    events.foldlM (fun s e => s.effect c e) s =
        some { s with buckets := Function.update s.buckets r.topic b } ∧
      (Routed r.topic (s.buckets r.topic) → Routed r.topic b) ∧
      (Supplied (s.buckets r.topic) → Supplied b) := by
  cases hstarts with
  | nothing header =>
    refine ⟨?_, id, id⟩
    rw [Function.update_eq_self]
    rfl
  | store =>
    have hstep : (s.buckets r.topic).step r.topic (.put c r.put.header r.put.data.buf) =
        some ((s.buckets r.topic).post (startStore c r.put), []) := if_pos rfl
    refine ⟨?_, fun hr => hr.step hstep, fun hs => hs.step hstep⟩
    have htopic : r.put.header.topic = r.topic := rfl
    simp only [List.foldlM_cons, List.foldlM_nil, effect, htopic, stepBucket, hstep,
      Option.bind_eq_bind, Option.bind_some, Option.pure_def]
  | load header =>
    have hstep : (s.buckets r.topic).step r.topic (.get c r.get.header) =
        some ((s.buckets r.topic).post (startLoad c r.get), []) := if_pos rfl
    refine ⟨?_, fun hr => hr.step hstep, fun hs => hs.step hstep⟩
    have htopic : r.get.header.topic = r.topic := rfl
    simp only [List.foldlM_cons, List.foldlM_nil, effect, htopic, stepBucket, hstep,
      Option.bind_eq_bind, Option.bind_some, Option.pure_def]

/-- A complete read in a round: its handler has an effect on the bucket of the round. -/
theorem Inv.read_eq (h : Inv rounds s) {c : Connection} {r : Round} {later : List Round}
    {session : ExactRead.Session TcpConnection.Reading UnitT TcpConnection.Effect}
    (htodo : (s.clients c).todo = r :: later)
    (hread : ExactRead.step TcpConnection.reader
      ⟨(s.connections c).reading, (s.connections c).buffer, []⟩ .read = some session) :
    ∃ conn b, s.read c =
        some ({ s with buckets := Function.update s.buckets r.topic b }.setConnection c conn) ∧
      InRound c r (s.clients c) conn b ∧ Routed r.topic b ∧ Supplied b := by
  obtain ⟨b, hstarts, hinRound⟩ := (h.inRound htodo).1.read hread
  obtain ⟨hevents, hrouted, hsupplied⟩ := effects_eq
    (s := s.setConnection c { s.connections c with
      reading := session.state, buffer := session.buffer }) hstarts
  refine ⟨_, b, ?_, hinRound, hrouted (h.routed r.topic), hsupplied (h.supplied r.topic)⟩
  simp only [System.read, hread, Option.bind_eq_bind, Option.bind_some]
  exact hevents

theorem Inv.read (hown : OwnTopics rounds) (h : Inv rounds s) {c : Connection}
    (hstep : s.read c = some s') : Inv rounds s' := by
  obtain ⟨session, hread, -⟩ := Option.bind_eq_some_iff.mp hstep
  cases htodo : (s.clients c).todo with
  | nil =>
    -- a client that rests has sent nothing to be read
    have hrests := h.rests htodo
    have hwait : TcpConnection.wait (s.connections c).reading = .read PacketHeader.bytesize := by
      rw [hrests.reading]
      rfl
    exact absurd (read_pending hrests.request hwait hread).1 (by decide)
  | cons r later =>
    obtain ⟨conn, b, heq, hinRound, hrouted, hsupplied⟩ := h.read_eq htodo hread
    rw [hstep] at heq
    cases heq
    exact h.update hown (h.mem_rounds htodo)
      ((h.clients c).update (hown.nodup c) htodo hinRound) hrouted hsupplied

/-- A step of the bucket of a current round: what leaves it is written by the connection. -/
theorem Inv.stepBucket_eq (hown : OwnTopics rounds) (h : Inv rounds s) {c : Connection} {r : Round}
    {later : List Round} {a : Bucket.Action} {b : Bucket} {out : List Output}
    (htodo : (s.clients c).todo = r :: later) (ha : ¬ a.IsPost)
    (hstep : (s.buckets r.topic).step r.topic a = some (b, out)) :
    ∃ conn, s.stepBucket r.topic a =
        some ({ s with buckets := Function.update s.buckets r.topic b }.setConnection c conn) ∧
      InRound c r (s.clients c) conn b := by
  have htrigger := hown.notTrigger c r (h.mem_rounds htodo)
  rcases (h.inRound htodo).1.bucket htrigger (h.routed r.topic) ha hstep with
    ⟨rfl, hinRound⟩ | ⟨pack, socket, hsends, hwrite, hinRound⟩
  · refine ⟨s.connections c, ?_, hinRound⟩
    simp only [stepBucket, hstep, Option.bind_eq_bind, Option.bind_some, List.foldlM_nil,
      Option.pure_def]
    exact congrArg some (setConnection_self _ c).symm
  · refine ⟨_, ?_, hinRound⟩
    cases hsends with
    | write =>
      simp only [stepBucket, hstep, Option.bind_eq_bind, Option.bind_some, List.foldlM_cons,
        List.foldlM_nil, output, startWrite, hwrite, Option.map_some, Option.pure_def]
    | call slot =>
      simp only [stepBucket, hstep, Option.bind_eq_bind, Option.bind_some, List.foldlM_cons,
        List.foldlM_nil, output, startWrite, hwrite, Option.map_some, Option.pure_def]

theorem Inv.stepBucket (hown : OwnTopics rounds) (h : Inv rounds s) {topic : Topic}
    {a : Bucket.Action} (ha : ¬ a.IsPost) (hstep : s.stepBucket topic a = some s') :
    Inv rounds s' := by
  have hbucket := hstep
  simp only [System.stepBucket, Option.bind_eq_bind, Option.bind_eq_some_iff,
    Prod.exists] at hbucket
  obtain ⟨b, out, hb, hout⟩ := hbucket
  have hnotEmpty : s.buckets topic ≠ Bucket.empty := by
    intro hempty
    rw [hempty, empty_stuck topic a ha] at hb
    cases hb
  have hrouted := (h.routed topic).step hb
  have hsupplied := (h.supplied topic).step hb
  by_cases hused : ∃ c, ∃ r ∈ rounds c, r.topic = topic
  · obtain ⟨c, r, hr, rfl⟩ := hused
    have hmem := hr
    rw [← (h.clients c).rounds_eq] at hmem
    rcases List.mem_append.mp hmem with hfinished | htodo
    · obtain ⟨hb', rfl⟩ := ((h.clients c).finished r hfinished).delivered_step
        (hown.notTrigger c r hr) (h.routed r.topic) ha hb
      cases hout
      have hc := (h.clients c).update_finished (hown.nodup c) hfinished hb'
      have hinv := h.update hown hr hc hrouted hsupplied
      rwa [setConnection_self { s with buckets := Function.update s.buckets r.topic b } c] at hinv
    · cases hcase : (s.clients c).todo with
      | nil =>
        rw [hcase] at htodo
        cases htodo
      | cons r₀ later =>
        rw [hcase] at htodo
        rcases List.mem_cons.mp htodo with rfl | hlater
        · obtain ⟨conn, heq, hinRound⟩ := h.stepBucket_eq hown hcase ha hb
          rw [hstep] at heq
          cases heq
          exact h.update hown hr ((h.clients c).update (hown.nodup c) hcase hinRound) hrouted
            hsupplied
        · exact absurd ((h.inRound hcase).2 r hlater) hnotEmpty
  · refine absurd (h.unused topic fun c r hr htopic => hused ⟨c, r, hr, htopic⟩) hnotEmpty

theorem Inv.step (hown : OwnTopics rounds) (h : Inv rounds s) {a : Action}
    (hstep : s.step a = some s') : Inv rounds s' := by
  cases a with
  | client c => exact h.stepClient hown hstep
  | arrive c n => exact h.arrive hown hstep
  | read c => exact h.read hown hstep
  | bucket topic a =>
    rw [System.step] at hstep
    split at hstep
    · cases hstep
    · exact h.stepBucket hown ‹_› hstep
  | send c i n => exact h.send hown hstep

/-! ## Reading one's own write -/

/-- No step of the server is enabled. -/
def Settled (s : System) : Prop := ∀ a : Action, a.IsServer → s.step a = none

/-- Nothing of what serves the round can go on. -/
theorem Inv.idle_of_none (hown : OwnTopics rounds) (h : Inv rounds s) {c : Connection} {r : Round}
    {later : List Round} (htodo : (s.clients c).todo = r :: later) (hread : s.read c = none)
    (hsend : ∀ i n, s.send c i n = none) (hbucket : ∀ a, s.step (.bucket r.topic a) = none) :
    Idle r (s.connections c) (s.buckets r.topic) := by
  refine ⟨?_, ?_, ?_⟩
  · refine Option.eq_none_iff_forall_ne_some.mpr fun session hsession => ?_
    obtain ⟨conn, b, heq, -⟩ := h.read_eq htodo hsession
    rw [hread] at heq
    cases heq
  · intro i n
    exact Option.map_eq_none_iff.mp (hsend i n)
  · intro a ha
    refine Option.eq_none_iff_forall_ne_some.mpr fun ⟨b, out⟩ hb => ?_
    obtain ⟨conn, heq, -⟩ := h.stepBucket_eq hown htodo ha hb
    have hnone := hbucket a
    rw [System.step, if_neg ha, heq] at hnone
    cases hnone

theorem Inv.idle (hown : OwnTopics rounds) (h : Inv rounds s) (hsettled : s.Settled)
    {c : Connection} {r : Round} {later : List Round} (htodo : (s.clients c).todo = r :: later) :
    Idle r (s.connections c) (s.buckets r.topic) :=
  h.idle_of_none hown htodo (hsettled (.read c) trivial)
    (fun i n => hsettled (.send c i n) trivial) fun a => hsettled (.bucket r.topic a) trivial

/-- In every reachable state, for every client: what it has read after a put is the ack of that
put; what it has read after a get is an ack of the topic with the payload of the round; what was
sent and is not read begins the rest of the one reply it waits for; and when its request has come
in full and the server has no step to take, all of that reply has been sent. -/
theorem read_your_write (hown : OwnTopics rounds) (h : Reachable step (init rounds) s)
    (c : Connection) :
    (∀ x ∈ (s.clients c).acks, x.2 = x.1.ackHeader) ∧
    (∀ x ∈ (s.clients c).replies, x.1.IsReply x.2) ∧
    (s.clients c).replies.map Prod.fst ++ (s.clients c).todo = rounds c ∧
    ∃ rest, (s.clients c).Awaits rest ∧ s.unread c <+: rest ∧
      (s.Settled → (s.connections c).underway = [] → s.unread c = rest) := by
  have hinv : Inv rounds s := h.invariant (inv_init rounds) fun _ _ _ hs ht => hs.step hown ht
  have hc := hinv.clients c
  refine ⟨hc.acks, hc.replies, hc.rounds_eq, ?_⟩
  cases htodo : (s.clients c).todo with
  | nil =>
    have hunread := (hinv.rests htodo).reply.unread_prefix
    refine ⟨[], ?_, hunread, fun _ _ => List.prefix_nil.mp hunread⟩
    simp only [Client.Awaits, htodo]
  | cons r later =>
    obtain ⟨rest, hawaits, hprefix, hall⟩ := (hinv.inRound htodo).1.awaits htodo
    exact ⟨rest, hawaits, hprefix, fun hsettled hunderway =>
      hall (hinv.supplied r.topic) (hinv.idle hown hsettled htodo) hunderway⟩

/-! ## Two clients -/

def roundOf (b : UnitT) : Round where
  key := List.Vector.replicate 32 b
  salt := List.Vector.replicate 4 1
  putSequence := List.Vector.replicate 4 2
  getSequence := List.Vector.replicate 4 3
  payload := [b, 5, 6]

/-- Two clients with a round each, and no others. -/
def twoRounds : Connection → List Round
  | 0 => [roundOf 7]
  | 1 => [roundOf 8]
  | _ + 2 => []

theorem ownTopics_twoRounds : OwnTopics twoRounds := by
  refine ⟨?_, ?_, ?_⟩
  · rintro (_ | _ | c)
    · decide
    · decide
    · exact List.nodup_nil
  · rintro (_ | _ | c) (_ | _ | d) r r' hr hr' htopic
    · rfl
    · rw [List.mem_singleton.mp hr, List.mem_singleton.mp hr'] at htopic
      exact absurd htopic (by decide)
    · cases hr'
    · rw [List.mem_singleton.mp hr, List.mem_singleton.mp hr'] at htopic
      exact absurd htopic (by decide)
    · rfl
    · cases hr'
    · cases hr
    · cases hr
    · cases hr
  · rintro (_ | _ | c) r hr
    · rw [List.mem_singleton.mp hr]
      show ¬ (1 : UnitT) = 0
      decide
    · rw [List.mem_singleton.mp hr]
      show ¬ (1 : UnitT) = 0
      decide
    · cases hr

/-- The handler of the put of the first client finds the listener of its get; the ack of the
second client is sent, and not read. -/
def twoRoundsRun : List Action :=
  let first := (roundOf 7).topic
  let second := (roundOf 8).topic
  [.client 0, .arrive 0 10, .client 1, .arrive 0 38, .read 0, .arrive 1 48, .read 1, .read 0,
    .bucket first (.task 0 .contains), .bucket first (.task 0 .emplace), .read 1,
    .bucket first (.task 0 .at), .bucket second (.task 0 .contains),
    .bucket first (.task 0 .pushMessage), .bucket first (.task 0 .startHandleEvents),
    .bucket first (.task 0 .startWrite), .send 0 0 20, .bucket second (.task 0 .emplace),
    .send 0 0 25, .client 0, .client 0, .arrive 0 45, .read 0,
    .bucket first (.task 1 .contains), .bucket first (.task 1 .at),
    .bucket first (.task 1 .getConnect), .bucket first (.begin 0),
    .bucket first (.handler .listenerEmpty), .bucket second (.task 0 .at),
    .bucket first (.handler .queueEmpty), .bucket first (.task 1 .contains),
    .bucket first (.handler .tryPop), .bucket first (.handler .emit), .send 0 1 48, .client 0,
    .bucket first (.handler .tryPop), .bucket first (.handler .disconnectAllSlots), .client 0,
    .bucket second (.task 0 .pushMessage), .bucket second (.task 0 .startHandleEvents),
    .bucket second (.task 0 .startWrite), .send 1 0 45]

theorem twoRoundsRun_end : (run step (init twoRounds) twoRoundsRun).map (fun s =>
    ((s.clients 0).replies.map fun x => x.2.data.buf, s.unread 1)) =
      some ([(roundOf 7).payload], (roundOf 8).ackHeader.bytes) := by
  decide +kernel

theorem read_your_write_twoRoundsRun : ∃ s, run step (init twoRounds) twoRoundsRun = some s ∧
    ∀ c, (∀ x ∈ (s.clients c).acks, x.2 = x.1.ackHeader) ∧
      (∀ x ∈ (s.clients c).replies, x.1.IsReply x.2) ∧
      (s.clients c).replies.map Prod.fst ++ (s.clients c).todo = twoRounds c ∧
      ∃ rest, (s.clients c).Awaits rest ∧ s.unread c <+: rest ∧
        (s.Settled → (s.connections c).underway = [] → s.unread c = rest) := by
  obtain ⟨s, hs, -⟩ := Option.map_eq_some_iff.mp twoRoundsRun_end
  exact ⟨s, hs, read_your_write ownTopics_twoRounds ⟨twoRoundsRun, hs⟩⟩

end System

end CppSerializer
