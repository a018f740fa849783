import CppSerializer.Bucket.Model
import CppSerializer.Connection.Reader
import CppSerializer.Connection.Wire

/-!
# The server and its clients

The server of `main.cpp` with any number of clients that repeat the round of `client.cpp`. A
client writes and reads with the blocking calls of asio; the server has a reader and a socket
for each connection and a bucket for each topic, and what a handler starts takes effect there.

A step is one of a client, some bytes coming in, a complete read of the server, a step of a
task or of a handler of a bucket, or a write sending some bytes. Sockets do not fail, and the
launcher is not followed: no put or get of a topic that is not a trigger reaches it.
-/

namespace CppSerializer

open Pack AsyncWrite Bucket

/-! ## Clients -/

/-- One pass of the loop of `client.cpp`: the key and the payload, and what `gen` and
`gen_sequence` draw. -/
structure Round where
  key : KeyT
  salt : List.Vector UnitT 4
  putSequence : List.Vector UnitT 4
  getSequence : List.Vector UnitT 4
  payload : Bytes
  deriving DecidableEq

namespace Round

def topic (r : Round) : Topic := (r.key, r.salt)

/-- `ptr` after `gen`. -/
def putPacket (r : Round) : Packet :=
  let header : PacketHeader := {
    type := .put, key := r.key, datasize := 0
    sequence := List.Vector.replicate 4 0, randomSalt := List.Vector.replicate 4 0 }
  { header := header.gen r.salt r.putSequence, data := ⟨r.payload⟩ }

/-- `rptr`, made from the header of `ptr`. -/
def getPacket (r : Round) (ptr : Packet) : Packet :=
  { header := { ptr.header with sequence := r.getSequence, type := .get }, data := ⟨[]⟩ }

end Round

/-- The next blocking call of a client: it writes the put, reads the ack, writes the get, reads
a header, or reads the body that the header announces. -/
inductive Stage
  | put
  | ack
  | get
  | header
  | body (header : PacketHeader)
  deriving DecidableEq

/-- A client: its rounds from the current one on, how many bytes it has read, and the packets
it has read after its puts and after its gets, each with the round. -/
structure Client where
  todo : List Round
  stage : Stage
  taken : Nat
  acks : List (Round × PacketHeader)
  replies : List (Round × Packet)
  deriving DecidableEq

/-- The next call returns: the client afterwards, and the bytes written. `unread` is what the
server has sent and the client has not read. -/
def Client.step (client : Client) (unread : Bytes) : Option (Client × Bytes) :=
  match client.todo with
  | [] => none
  | r :: later =>
    match client.stage with
    | .put => do
      let (_, buf) ← r.putPacket.serialize
      return ({ client with stage := .ack }, buf)
    | .ack => do
      let (headerbuf, _) ← readExact unread PacketHeader.bytesize
      let header ← PacketHeader.parse headerbuf 0
      return ({ client with
        stage := .get
        taken := client.taken + PacketHeader.bytesize
        acks := client.acks ++ [(r, header)] }, [])
    | .get => do
      -- `serialize` has written the size of the data into the header of `ptr`
      let (_, buf) ← (r.getPacket r.putPacket.sized).serialize
      return ({ client with stage := .header }, buf)
    | .header => do
      let (headerbuf, _) ← readExact unread PacketHeader.bytesize
      let header ← PacketHeader.parse headerbuf 0
      return ({ client with
        stage := .body header
        taken := client.taken + PacketHeader.bytesize }, [])
    | .body header => do
      let (bodybuf, _) ← readExact unread header.datasize.toNat
      let data ← PacketData.parse header.datasize bodybuf 0
      return ({ client with
        todo := later
        stage := .put
        taken := client.taken + header.datasize.toNat
        replies := client.replies ++ [(r, { header, data })] }, [])

/-! ## The system -/

/-- `tcp_connection`, with the bytes that the client has written: `buffer` has come and is not
read, `underway` has not come. -/
structure TcpConnection where
  reading : TcpConnection.Reading
  buffer : Bytes
  underway : Bytes
  socket : Wire
  deriving DecidableEq

/-- A connection that was just accepted. -/
def TcpConnection.accepted : TcpConnection := ⟨.header, [], [], Socket.empty⟩

structure System where
  clients : Connection → Client
  connections : Connection → TcpConnection
  buckets : Topic → Bucket

namespace System

inductive Action
  | client (c : Connection)
  | arrive (c : Connection) (n : Nat)
  | read (c : Connection)
  | bucket (topic : Topic) (a : Bucket.Action)
  | send (c : Connection) (i n : Nat)
  deriving DecidableEq

/-- The steps of the server. -/
def Action.IsServer : Action → Prop
  | .read _ | .bucket _ _ | .send _ _ _ => True
  | .client _ | .arrive _ _ => False

/-- The clients are connected, and have their rounds before them. -/
def init (rounds : Connection → List Round) : System where
  clients c := ⟨rounds c, .put, 0, [], []⟩
  connections _ := .accepted
  buckets _ := Bucket.empty

def setConnection (s : System) (c : Connection) (conn : TcpConnection) : System :=
  { s with connections := Function.update s.connections c conn }

/-- The bytes that were sent to a client and that it has not read. -/
def unread (s : System) (c : Connection) : Bytes :=
  (s.connections c).socket.wire.drop (s.clients c).taken

def stepClient (s : System) (c : Connection) : Option System := do
  let (client, buf) ← (s.clients c).step (s.unread c)
  let conn := s.connections c
  return { s with clients := Function.update s.clients c client }.setConnection c
    { conn with underway := conn.underway ++ buf }

/-- The next `n` bytes of a client come in. -/
def arrive (s : System) (c : Connection) (n : Nat) : Option System :=
  let conn := s.connections c
  if 0 < n ∧ n ≤ conn.underway.length then
    some (s.setConnection c { conn with
      buffer := conn.buffer ++ conn.underway.take n
      underway := conn.underway.drop n })
  else none

def send (s : System) (c : Connection) (i n : Nat) : Option System :=
  let conn := s.connections c
  (conn.socket.send i n).map fun socket => s.setConnection c { conn with socket := socket }

/-- `start_write` of a connection. -/
def startWrite (s : System) (c : Connection) (pack : Packet) : Option System :=
  let conn := s.connections c
  (TcpConnection.startWrite conn.socket pack).map fun socket =>
    s.setConnection c { conn with socket := socket }

/-- What leaves a bucket is written by a connection. -/
def output (s : System) : Bucket.Output → Option System
  | .write self pack => s.startWrite self pack
  | .call listener pack => s.startWrite listener.connection pack
  | .post _ => some s

def stepBucket (s : System) (topic : Topic) (a : Bucket.Action) : Option System := do
  let (b, out) ← (s.buckets topic).step topic a
  out.foldlM output { s with buckets := Function.update s.buckets topic b }

/-- What a handler of the reader starts. -/
def effect (s : System) (c : Connection) : TcpConnection.Effect → Option System
  | .startStore pack => s.stepBucket pack.header.topic (.put c pack.header pack.data.buf)
  | .startLoad pack => s.stepBucket pack.header.topic (.get c pack.header)
  | .startWrite pack => s.startWrite c pack
  | .parsed _ | .startTriggerPost _ | .addWorker _ | .startJobs => some s

/-- A read of the connection is complete, and its handler runs. -/
def read (s : System) (c : Connection) : Option System := do
  let conn := s.connections c
  let session ← ExactRead.step TcpConnection.reader ⟨conn.reading, conn.buffer, []⟩ .read
  session.events.foldlM (fun s e => s.effect c e)
    (s.setConnection c { conn with reading := session.state, buffer := session.buffer })

def step (s : System) : Action → Option System
  | .client c => s.stepClient c
  | .arrive c n => s.arrive c n
  | .read c => s.read c
  -- the tasks of puts and gets are posted by `read`
  | .bucket topic a => if a.IsPost then none else s.stepBucket topic a
  | .send c i n => s.send c i n

end System

end CppSerializer
