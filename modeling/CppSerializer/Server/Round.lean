import CppSerializer.Bucket.OneRound
import CppSerializer.Server.Model

/-!
# One round of a client

`Situation` lists the situations of a client in a round, with the part of the server that serves
it: what its connection waits for, what of the request has not been read, what of the reply
the client has not read, and how far the bucket of the round is. `InRound` is the invariant. A
step of the client, a read, a step of the bucket and a send each lead from one situation of
the list to another, or to the end of the round, whichever of them is next.
-/

namespace CppSerializer

open Pack AsyncWrite Bucket

/-! ## The packets of a round -/

namespace Round

/-- The put as it is serialized, and as the server has it. -/
def put (r : Round) : Packet := r.putPacket.sized

def get (r : Round) : Packet := (r.getPacket r.putPacket.sized).sized

/-- The header of the ack of the put. -/
def ackHeader (r : Round) : PacketHeader := {
  type := .ack, key := r.key, datasize := 0, sequence := r.putSequence, randomSalt := r.salt }

/-- The packet answers the get: an ack of the topic with the payload of the round. -/
structure IsReply (r : Round) (pack : Packet) : Prop where
  type : pack.header.type = .ack
  topic : pack.header.topic = r.topic
  datasize : pack.header.datasize.toNat = r.payload.length
  data : pack.data.buf = r.payload

/-- The put can be serialized. -/
def Fits (r : Round) : Prop := PacketHeader.bytesize + r.payload.length < 2 ^ 32

theorem bytes_put (r : Round) : r.put.bytes = r.put.header.bytes ++ r.payload := rfl

theorem bytes_get (r : Round) : r.get.bytes = r.get.header.bytes := List.append_nil _

theorem bytes_ack (r : Round) : (response r.put .ack).sized.bytes = r.ackHeader.bytes :=
  List.append_nil _

theorem datasize_put {r : Round} (h : r.Fits) :
    r.put.header.datasize.toNat = r.payload.length := by
  unfold Fits at h
  exact Packet.sized_datasize (by change r.payload.length < 2 ^ 32; omega)

theorem isReply_sized {r : Round} {resp : Packet} (h : r.Fits) (hack : IsAck r.topic resp)
    (hdata : resp.data = r.put.data) : r.IsReply resp.sized := by
  have hbuf : resp.data.buf = r.payload := congrArg PacketData.buf hdata
  unfold Fits at h
  refine ⟨hack.1, hack.2, ?_, hbuf⟩
  rw [Packet.sized_datasize, hbuf]
  rw [hbuf]
  omega

theorem IsReply.bytes_eq {r : Round} {pack : Packet} (h : r.IsReply pack) :
    pack.bytes = pack.header.bytes ++ r.payload := by
  rw [Packet.bytes, h.data]

theorem serialize_put {r : Round} {ptr : Packet} {buf : Bytes}
    (h : r.putPacket.serialize = some (ptr, buf)) : r.Fits ∧ buf = r.put.bytes :=
  ⟨(Packet.serialize_some h).1, (Packet.serialize_some h).2.2⟩

theorem serialize_get {r : Round} {ptr : Packet} {buf : Bytes}
    (h : (r.getPacket r.putPacket.sized).serialize = some (ptr, buf)) : buf = r.get.bytes :=
  (Packet.serialize_some h).2.2

/-- The bucket of the round has come that far. -/
def BucketAt (r : Round) (c : Connection) (p : Progress) (b : Bucket) : Prop :=
  Holds r.topic c r.put r.get p b

end Round

/-! ## The situations in a round -/

/-- The stage of the client, what the connection reads next, what it has not read of the
request, what the client has not read of the reply, and the bucket. -/
inductive Situation (c : Connection) (r : Round) :
    Stage → TcpConnection.Reading → Bytes → Bytes → Bucket → Prop
  | put : Situation c r .put .header [] [] Bucket.empty
  | putSent : Situation c r .ack .header r.put.bytes [] Bucket.empty
  | putRead : Situation c r .ack (.body ⟨r.put.header, ⟨[]⟩⟩) r.payload [] Bucket.empty
  | storing (b : Bucket) (h : r.BucketAt c .storing b) : Situation c r .ack .header [] [] b
  | acked (b : Bucket) (h : r.BucketAt c .stored b) :
      Situation c r .ack .header [] r.ackHeader.bytes b
  | get (b : Bucket) (h : r.BucketAt c .stored b) : Situation c r .get .header [] [] b
  | getSent (b : Bucket) (h : r.BucketAt c .stored b) :
      Situation c r .header .header r.get.bytes [] b
  | loading (b : Bucket) (p : Progress) (hp : p = .loading ∨ p = .connected ∨ p = .popped)
      (h : r.BucketAt c p b) : Situation c r .header .header [] [] b
  | replied (b : Bucket) (pack : Packet) (hreply : r.IsReply pack)
      (h : r.BucketAt c .delivered b) : Situation c r .header .header [] pack.bytes b
  | body (b : Bucket) (header : PacketHeader) (hreply : r.IsReply ⟨header, ⟨r.payload⟩⟩)
      (h : r.BucketAt c .delivered b) : Situation c r (.body header) .header [] r.payload b

/-- The client is in the round, in one of the situations. -/
structure InRound (c : Connection) (r : Round) (client : Client) (conn : TcpConnection)
    (b : Bucket) : Prop where
  fits : client.stage ≠ .put → r.Fits
  situation : ∃ request reply, Situation c r client.stage conn.reading request reply b ∧
    conn.buffer ++ conn.underway = request ∧ conn.socket.Pending client.taken reply

/-- Between two rounds nothing is sent and nothing is to be read. -/
structure Rests (client : Client) (conn : TcpConnection) : Prop where
  stage : client.stage = .put
  reading : conn.reading = .header
  request : conn.buffer ++ conn.underway = []
  reply : conn.socket.Pending client.taken []

theorem Rests.inRound {client : Client} {conn : TcpConnection} (h : Rests client conn)
    (c : Connection) (r : Round) : InRound c r client conn Bucket.empty := by
  refine ⟨fun hput => absurd h.stage hput, [], [], ?_, h.request, h.reply⟩
  rw [h.stage, h.reading]
  exact .put

/-! ## Steps of the client -/

/-- What the client reads comes from the reply it waits for. -/
theorem readExact_pending {socket : Wire} {taken n : Nat} {reply front rest : Bytes}
    (h : socket.Pending taken reply)
    (hread : readExact (socket.wire.drop taken) n = some (front, rest)) :
    n ≤ reply.length ∧ front = reply.take n ∧ socket.Pending (taken + n) (reply.drop n) := by
  obtain ⟨hsplit, rfl⟩ := readExact_some hread
  obtain ⟨unsent, hunsent⟩ := h.unread_prefix
  rw [hsplit] at hunsent
  refine ⟨?_, ?_, h.read (by simp [hsplit])⟩
  · rw [← hunsent]
    simp
  · rw [← hunsent, List.append_assoc, List.take_left]

/-- The client reads a header that stands at the beginning of the reply. -/
theorem read_header_pending {socket : Wire} {taken : Nat} {h header : PacketHeader}
    {rest front left : Bytes} (hp : socket.Pending taken (h.bytes ++ rest))
    (hread : readExact (socket.wire.drop taken) PacketHeader.bytesize = some (front, left))
    (hparse : PacketHeader.parse front 0 = some header) :
    header = h ∧ socket.Pending (taken + PacketHeader.bytesize) rest := by
  obtain ⟨-, rfl, hp'⟩ := readExact_pending hp hread
  rw [List.take_left' h.length_bytes, parse_header_bytes] at hparse
  rw [List.drop_left' h.length_bytes] at hp'
  exact ⟨(Option.some.inj hparse).symm, hp'⟩

/-- What a step of the client in a round does: it goes on in the round, and what it may have
read is the ack; or it has read the reply, and rests. -/
inductive ClientStep (c : Connection) (r : Round) (later : List Round) (client client' : Client)
    (conn : TcpConnection) (b : Bucket) : Prop
  | goesOn (todo : client'.todo = client.todo) (replies : client'.replies = client.replies)
      (acks : client'.acks = client.acks ∨ client'.acks = client.acks ++ [(r, r.ackHeader)])
      (inRound : InRound c r client' conn b)
  | ends (pack : Packet) (todo : client'.todo = later) (acks : client'.acks = client.acks)
      (replies : client'.replies = client.replies ++ [(r, pack)]) (isReply : r.IsReply pack)
      (rests : Rests client' conn) (bucketAt : r.BucketAt c .delivered b)

theorem InRound.client {c : Connection} {r : Round} {later : List Round}
    {client client' : Client} {conn : TcpConnection} {b : Bucket} {buf : Bytes}
    (h : InRound c r client conn b) (htodo : client.todo = r :: later)
    (hstep : client.step (conn.socket.wire.drop client.taken) = some (client', buf)) :
    ClientStep c r later client client' { conn with underway := conn.underway ++ buf } b := by
  obtain ⟨todo, stage, taken, acks, replies⟩ := client
  obtain ⟨reading, buffer, underway, socket⟩ := conn
  obtain ⟨hfits, request, reply, hsituation, hrequest, hreply⟩ := h
  simp only at htodo hfits hsituation hrequest hreply hstep
  subst htodo
  cases hsituation with
  | put =>
    simp only [Client.step, Option.bind_eq_bind, Option.bind_eq_some_iff, Option.pure_def,
      Option.some.injEq, Prod.mk.injEq, Prod.exists] at hstep
    obtain ⟨ptr, out, hserialize, rfl, rfl⟩ := hstep
    obtain ⟨hfits', rfl⟩ := Round.serialize_put hserialize
    refine .goesOn rfl rfl (Or.inl rfl) ⟨fun _ => hfits', _, _, .putSent, ?_, hreply⟩
    rw [← List.append_assoc, hrequest, List.nil_append]
  | get =>
    simp only [Client.step, Option.bind_eq_bind, Option.bind_eq_some_iff, Option.pure_def,
      Option.some.injEq, Prod.mk.injEq, Prod.exists] at hstep
    obtain ⟨ptr, out, hserialize, rfl, rfl⟩ := hstep
    obtain rfl := Round.serialize_get hserialize
    refine .goesOn rfl rfl (Or.inl rfl) ⟨fun _ => hfits (by simp), _, _, .getSent b ‹_›, ?_, hreply⟩
    rw [← List.append_assoc, hrequest, List.nil_append]
  | putSent | putRead | storing | getSent | loading =>
    -- nothing of the reply is there yet
    simp only [Client.step, Option.bind_eq_bind, Option.bind_eq_some_iff, Prod.exists] at hstep
    obtain ⟨front, rest, hread, -⟩ := hstep
    exact absurd (readExact_pending hreply hread).1 (by decide)
  | acked _ hb =>
    simp only [Client.step, Option.bind_eq_bind, Option.bind_eq_some_iff, Option.pure_def,
      Option.some.injEq, Prod.mk.injEq, Prod.exists] at hstep
    obtain ⟨front, rest, hread, header, hparse, rfl, rfl⟩ := hstep
    rw [← List.append_nil r.ackHeader.bytes] at hreply
    obtain ⟨rfl, hreply'⟩ := read_header_pending hreply hread hparse
    refine .goesOn rfl rfl (Or.inr rfl) ⟨fun _ => hfits (by simp), _, _, .get b hb, ?_, hreply'⟩
    simpa using hrequest
  | replied _ pack hpack hb =>
    simp only [Client.step, Option.bind_eq_bind, Option.bind_eq_some_iff, Option.pure_def,
      Option.some.injEq, Prod.mk.injEq, Prod.exists] at hstep
    obtain ⟨front, rest, hread, header, hparse, rfl, rfl⟩ := hstep
    rw [hpack.bytes_eq] at hreply
    obtain ⟨rfl, hreply'⟩ := read_header_pending hreply hread hparse
    refine .goesOn rfl rfl (Or.inl rfl) ⟨fun _ => hfits (by simp), _, _,
      .body b pack.header ⟨hpack.type, hpack.topic, hpack.datasize, rfl⟩ hb, ?_, hreply'⟩
    simpa using hrequest
  | body _ header hpack hb =>
    simp only [Client.step, Option.bind_eq_bind, Option.bind_eq_some_iff, Option.pure_def,
      Option.some.injEq, Prod.mk.injEq, Prod.exists] at hstep
    obtain ⟨front, rest, hread, data, hparse, rfl, rfl⟩ := hstep
    obtain ⟨-, rfl, hreply'⟩ := readExact_pending hreply hread
    rw [hpack.datasize, List.take_length, PacketData.parse_eq hpack.datasize.symm] at hparse
    cases hparse
    rw [hpack.datasize, List.drop_length] at hreply'
    refine .ends _ rfl rfl rfl hpack ⟨rfl, rfl, ?_, ?_⟩ hb
    · simpa using hrequest
    · simpa only [hpack.datasize] using hreply'

/-! ## Steps of the server -/

theorem InRound.arrive {c : Connection} {r : Round} {client : Client} {conn : TcpConnection}
    {b : Bucket} (h : InRound c r client conn b) (n : Nat) :
    InRound c r client { conn with
      buffer := conn.buffer ++ conn.underway.take n, underway := conn.underway.drop n } b := by
  obtain ⟨hfits, request, reply, hsituation, hrequest, hreply⟩ := h
  refine ⟨hfits, request, reply, hsituation, ?_, hreply⟩
  rw [List.append_assoc, List.take_append_drop, hrequest]

theorem InRound.send {c : Connection} {r : Round} {client : Client} {conn : TcpConnection}
    {b : Bucket} {socket : Wire} {i n : Nat} (h : InRound c r client conn b)
    (hsend : conn.socket.send i n = some socket) :
    InRound c r client { conn with socket := socket } b := by
  obtain ⟨hfits, request, reply, hsituation, hrequest, hreply⟩ := h
  exact ⟨hfits, request, reply, hsituation, hrequest, hreply.send hsend⟩

/-- A handler of the reader starts nothing, or the task of the put, or that of the get. -/
inductive Starts (c : Connection) (r : Round) (b : Bucket) :
    List TcpConnection.Effect → Bucket → Prop
  | nothing (header : PacketHeader) : Starts c r b [.parsed header] b
  | store : Starts c r b [.startStore r.put] (b.post (startStore c r.put))
  | load (header : PacketHeader) :
      Starts c r b [.parsed header, .startLoad r.get] (b.post (startLoad c r.get))

/-- The reader waits for the request: it takes what it waits for from its beginning. -/
theorem read_pending {conn : TcpConnection} {request : Bytes} {n : Nat}
    {session : ExactRead.Session TcpConnection.Reading UnitT TcpConnection.Effect}
    (hrequest : conn.buffer ++ conn.underway = request)
    (hwait : TcpConnection.wait conn.reading = .read n)
    (hread : ExactRead.step TcpConnection.reader ⟨conn.reading, conn.buffer, []⟩ .read =
      some session) :
    n ≤ request.length ∧ session.buffer ++ conn.underway = request.drop n ∧
      (session.state, session.events) = TcpConnection.got conn.reading (request.take n) := by
  obtain ⟨m, hm, hle, rfl⟩ := ExactRead.step_read_some hread
  have hmn : m = n := by
    have := hm.symm.trans hwait
    simpa using this
  subst hmn hrequest
  simp only at hle
  refine ⟨?_, ?_, ?_⟩
  · rw [List.length_append]
    omega
  · exact (List.drop_append_of_le_length hle).symm
  · rw [List.take_append_of_le_length hle]
    rfl

theorem InRound.read {c : Connection} {r : Round} {client : Client} {conn : TcpConnection}
    {b : Bucket} {session : ExactRead.Session TcpConnection.Reading UnitT TcpConnection.Effect}
    (h : InRound c r client conn b)
    (hread : ExactRead.step TcpConnection.reader ⟨conn.reading, conn.buffer, []⟩ .read =
      some session) :
    ∃ b', Starts c r b session.events b' ∧ InRound c r client
      { conn with reading := session.state, buffer := session.buffer } b' := by
  obtain ⟨todo, stage, taken, acks, replies⟩ := client
  obtain ⟨reading, buffer, underway, socket⟩ := conn
  obtain ⟨state, buffer', events⟩ := session
  obtain ⟨hfits, request, reply, hsituation, hrequest, hreply⟩ := h
  simp only at hfits hsituation hrequest hreply
  cases hsituation with
  | put | storing | acked | get | loading | replied | body =>
    exact absurd (read_pending hrequest rfl hread).1 (by decide)
  | putSent =>
    obtain ⟨-, hrequest', hgot⟩ := read_pending hrequest rfl hread
    rw [r.bytes_put, List.drop_left' r.put.header.length_bytes] at hrequest'
    rw [r.bytes_put, List.take_left' r.put.header.length_bytes, TcpConnection.got,
      parse_header_bytes] at hgot
    cases hgot
    exact ⟨_, .nothing _, hfits, _, _, .putRead, hrequest', hreply⟩
  | putRead =>
    have hdatasize := Round.datasize_put (hfits (by simp))
    obtain ⟨-, hrequest', hgot⟩ := read_pending hrequest rfl hread
    rw [hdatasize, List.drop_length] at hrequest'
    rw [hdatasize, List.take_length, TcpConnection.got, parse_body hdatasize.symm] at hgot
    cases hgot
    have hstoring : r.BucketAt c .storing (Bucket.empty.post (startStore c r.put)) :=
      .storing _ (storing_post c r.put)
    exact ⟨_, .store, hfits, _, _, .storing _ hstoring, hrequest', hreply⟩
  | getSent _ hb =>
    obtain ⟨-, hrequest', hgot⟩ := read_pending hrequest rfl hread
    rw [r.bytes_get, List.drop_eq_nil_of_le (Nat.le_of_eq r.get.header.length_bytes)] at hrequest'
    rw [r.bytes_get, List.take_of_length_le (Nat.le_of_eq r.get.header.length_bytes),
      TcpConnection.got, parse_header_bytes] at hgot
    cases hgot
    cases hb with
    | stored _ hb =>
      exact ⟨_, .load _, hfits, _, _, .loading _ .loading (Or.inl rfl) (.loading _ (hb.post r.get)),
        hrequest', hreply⟩

/-- The outputs are one packet for the connection to write. -/
inductive Sends (c : Connection) (pack : Packet) : List Output → Prop
  | write : Sends c pack [.write c pack]
  | call (slot : Nat) : Sends c pack [.call ⟨slot, c⟩ pack]

theorem startWrite_eq (socket : Wire) (pack : Packet)
    (h : PacketHeader.bytesize + pack.data.buf.length < 2 ^ 32) :
    TcpConnection.startWrite socket pack = some (socket.asyncWrite pack.sized.bytes) := by
  rw [TcpConnection.startWrite, Packet.serialize_eq h]
  rfl

/-- A step of the bucket has no output, or it starts the write of the reply. -/
theorem InRound.bucket {c : Connection} {r : Round} {client : Client} {conn : TcpConnection}
    {b b' : Bucket} {a : Bucket.Action} {out : List Output} (h : InRound c r client conn b)
    (htopic : ¬ IsTriggerTopic r.topic) (hr : Routed r.topic b) (ha : ¬ a.IsPost)
    (hstep : b.step r.topic a = some (b', out)) :
    out = [] ∧ InRound c r client conn b' ∨
      ∃ pack socket, Sends c pack out ∧ TcpConnection.startWrite conn.socket pack = some socket ∧
        InRound c r client { conn with socket := socket } b' := by
  obtain ⟨todo, stage, taken, acks, replies⟩ := client
  obtain ⟨reading, buffer, underway, socket⟩ := conn
  obtain ⟨hfits, request, reply, hsituation, hrequest, hreply⟩ := h
  simp only at hfits hsituation hrequest hreply
  cases hsituation with
  | put | putSent | putRead =>
    rw [empty_stuck r.topic a ha] at hstep
    cases hstep
  | storing _ hb =>
    obtain ⟨p', hb', hadvance⟩ := hb.step htopic hr ha hstep
    cases hadvance with
    | stay => exact Or.inl ⟨rfl, hfits, _, _, .storing b' hb', hrequest, hreply⟩
    | acknowledge =>
      have hwrite := startWrite_eq socket (response r.put .ack)
        (by change PacketHeader.bytesize + 0 < 2 ^ 32; decide)
      refine Or.inr ⟨_, _, .write, hwrite, hfits, _, _, .acked b' hb', hrequest, ?_⟩
      rw [← r.bytes_ack]
      exact hreply.asyncWrite _
  | acked _ hb =>
    obtain ⟨p', hb', hadvance⟩ := hb.step htopic hr ha hstep
    cases hadvance
    exact Or.inl ⟨rfl, hfits, _, _, .acked b' hb', hrequest, hreply⟩
  | get _ hb =>
    obtain ⟨p', hb', hadvance⟩ := hb.step htopic hr ha hstep
    cases hadvance
    exact Or.inl ⟨rfl, hfits, _, _, .get b' hb', hrequest, hreply⟩
  | getSent _ hb =>
    obtain ⟨p', hb', hadvance⟩ := hb.step htopic hr ha hstep
    cases hadvance
    exact Or.inl ⟨rfl, hfits, _, _, .getSent b' hb', hrequest, hreply⟩
  | loading _ p hp hb =>
    obtain ⟨p', hb', hadvance⟩ := hb.step htopic hr ha hstep
    cases hadvance with
    | stay => exact Or.inl ⟨rfl, hfits, _, _, .loading b' p hp hb', hrequest, hreply⟩
    | acknowledge => simp at hp
    | connect =>
      exact Or.inl ⟨rfl, hfits, _, _, .loading b' _ (Or.inr (Or.inl rfl)) hb', hrequest, hreply⟩
    | pop =>
      exact Or.inl ⟨rfl, hfits, _, _, .loading b' _ (Or.inr (Or.inr rfl)) hb', hrequest, hreply⟩
    | deliver slot resp hack hdata =>
      have hfits' := hfits (by simp)
      have hwrite := startWrite_eq socket resp (by rw [hdata]; exact hfits')
      exact Or.inr ⟨resp, _, .call slot, hwrite, hfits, _, _,
        .replied b' _ (Round.isReply_sized hfits' hack hdata) hb', hrequest, hreply.asyncWrite _⟩
  | replied _ pack hpack hb =>
    obtain ⟨p', hb', hadvance⟩ := hb.step htopic hr ha hstep
    cases hadvance
    exact Or.inl ⟨rfl, hfits, _, _, .replied b' pack hpack hb', hrequest, hreply⟩
  | body _ header hpack hb =>
    obtain ⟨p', hb', hadvance⟩ := hb.step htopic hr ha hstep
    cases hadvance
    exact Or.inl ⟨rfl, hfits, _, _, .body b' header hpack hb', hrequest, hreply⟩

/-- A finished round has no output any more. -/
theorem Round.BucketAt.delivered_step {c : Connection} {r : Round} {b b' : Bucket}
    {a : Bucket.Action} {out : List Output} (h : r.BucketAt c .delivered b)
    (htopic : ¬ IsTriggerTopic r.topic) (hr : Routed r.topic b) (ha : ¬ a.IsPost)
    (hstep : b.step r.topic a = some (b', out)) : r.BucketAt c .delivered b' ∧ out = [] := by
  obtain ⟨p', hb', hadvance⟩ := h.step htopic hr ha hstep
  cases hadvance
  exact ⟨hb', rfl⟩

/-! ## What the client waits for -/

/-- `rest` is what the client has still to read of the reply to its last request, if it waits
for one. -/
def Client.Awaits (client : Client) (rest : Bytes) : Prop :=
  match client.todo, client.stage with
  | [], _ | _, .put | _, .get => rest = []
  | r :: _, .ack => rest = r.ackHeader.bytes
  | r :: _, .header => ∃ pack, r.IsReply pack ∧ rest = pack.bytes
  | r :: _, .body header => ∃ pack, r.IsReply pack ∧ pack.header = header ∧ rest = pack.data.buf

theorem Round.exists_isReply {r : Round} (h : r.Fits) : ∃ pack, r.IsReply pack :=
  ⟨Packet.sized { response r.put .ack with data := r.put.data }, isReply_sized h ⟨rfl, rfl⟩ rfl⟩

/-- The server has nothing to do for the connection: the reader waits for bytes that have not
come, no write can send, and the bucket has no steps. -/
structure Idle (r : Round) (conn : TcpConnection) (b : Bucket) : Prop where
  read : ExactRead.step TcpConnection.reader ⟨conn.reading, conn.buffer, []⟩ .read = none
  send : ∀ i n, conn.socket.send i n = none
  bucket : Stuck r.topic b

/-- A request that has come is read. -/
theorem Idle.length_lt {r : Round} {conn : TcpConnection} {b : Bucket} {request : Bytes} {n : Nat}
    (h : Idle r conn b) (hrequest : conn.buffer ++ conn.underway = request)
    (hunderway : conn.underway = []) (hwait : TcpConnection.wait conn.reading = .read n) :
    request.length < n := by
  rw [hunderway, List.append_nil] at hrequest
  by_contra hlt
  have hle : n ≤ conn.buffer.length := hrequest ▸ Nat.le_of_not_lt hlt
  have hread := ExactRead.step_read (R := TcpConnection.reader)
    (s := ⟨conn.reading, conn.buffer, []⟩) hwait hle
  rw [h.read] at hread
  cases hread

/-- What the client has not read belongs to the reply it waits for; and when the request has
come and the server has nothing to do, it is all of that reply. -/
theorem InRound.awaits {c : Connection} {r : Round} {later : List Round} {client : Client}
    {conn : TcpConnection} {b : Bucket} (h : InRound c r client conn b)
    (htodo : client.todo = r :: later) :
    ∃ rest, client.Awaits rest ∧ conn.socket.wire.drop client.taken <+: rest ∧
      (Supplied b → Idle r conn b → conn.underway = [] →
        conn.socket.wire.drop client.taken = rest) := by
  obtain ⟨todo, stage, taken, acks, replies⟩ := client
  obtain ⟨reading, buffer, underway, socket⟩ := conn
  obtain ⟨hfits, request, reply, hsituation, hrequest, hreply⟩ := h
  simp only at htodo hfits hsituation hrequest hreply ⊢
  subst htodo
  have hunread := hreply.unread_prefix
  have hnothing : reply = [] → socket.wire.drop taken = [] := by
    rintro rfl
    exact List.prefix_nil.mp hunread
  cases hsituation with
  | put => exact ⟨[], rfl, hunread, fun _ hidle _ => hreply.unread_eq hidle.send⟩
  | get => exact ⟨[], rfl, hunread, fun _ hidle _ => hreply.unread_eq hidle.send⟩
  | putSent =>
    refine ⟨_, rfl, hnothing rfl ▸ List.nil_prefix, fun _ hidle hunderway => ?_⟩
    have hlt := hidle.length_lt hrequest hunderway rfl
    rw [Packet.length_bytes] at hlt
    omega
  | putRead =>
    refine ⟨_, rfl, hnothing rfl ▸ List.nil_prefix, fun _ hidle hunderway => ?_⟩
    have hlt := hidle.length_lt hrequest hunderway rfl
    rw [Round.datasize_put (hfits (by simp))] at hlt
    omega
  | storing _ hb =>
    refine ⟨_, rfl, hnothing rfl ▸ List.nil_prefix, fun hs hidle _ => ?_⟩
    have hdone := hb.stuck hs hidle.bucket
    simp at hdone
  | acked => exact ⟨_, rfl, hunread, fun _ hidle _ => hreply.unread_eq hidle.send⟩
  | getSent =>
    obtain ⟨pack, hpack⟩ := Round.exists_isReply (hfits (by simp))
    refine ⟨_, ⟨pack, hpack, rfl⟩, hnothing rfl ▸ List.nil_prefix, fun _ hidle hunderway => ?_⟩
    have hlt := hidle.length_lt hrequest hunderway rfl
    rw [Packet.length_bytes] at hlt
    omega
  | loading _ p hp hb =>
    obtain ⟨pack, hpack⟩ := Round.exists_isReply (hfits (by simp))
    refine ⟨_, ⟨pack, hpack, rfl⟩, hnothing rfl ▸ List.nil_prefix, fun hs hidle _ => ?_⟩
    have hdone := hb.stuck hs hidle.bucket
    rcases hp with rfl | rfl | rfl <;> simp at hdone
  | replied _ pack hpack =>
    exact ⟨_, ⟨pack, hpack, rfl⟩, hunread, fun _ hidle _ => hreply.unread_eq hidle.send⟩
  | body _ header hpack =>
    exact ⟨_, ⟨_, hpack, rfl, rfl⟩, hunread, fun _ hidle _ => hreply.unread_eq hidle.send⟩

end CppSerializer
