import CppSerializer.Connection.Reader

/-!
# Readers that stay in step

A branch that reads no body leaves the body in the stream, and its bytes are parsed as the
next header. The headers parsed are those of the packets exactly if, at every position that
the reader has then, the stream has the header that it should have, and too little for another
header remains at the end (`InStep`). When no body is left in the stream this is so
(`inStep_of_consumed`); a get with a body of one byte and a put behind it are enough to lose
the step (`get_with_body`).
-/

namespace CppSerializer

open Pack ExactRead Transition

/-! ## Positions in a stream -/

/-- The outputs of `serialize`, one behind the other. -/
def stream (packets : List Packet) : Bytes := packets.flatMap fun p => p.sized.bytes

/-- The bytes that the branch of a packet takes from the stream. -/
def consumed (branch : MsgT → Branch) (p : Packet) : Nat :=
  PacketHeader.bytesize + if branch p.header.type = .body then p.data.buf.length else 0

/-- Where the reader is after these packets. -/
def position (branch : MsgT → Branch) : List Packet → Nat
  | [] => 0
  | p :: ps => consumed branch p + position branch ps

/-- No packet gives the socket away. -/
def Kept (branch : MsgT → Branch) (packets : List Packet) : Prop :=
  ∀ p ∈ packets, branch p.header.type ≠ .handOver

/-- The packets up to and including the first that gives the socket away. -/
def upTo (branch : MsgT → Branch) : List Packet → List Packet
  | [] => []
  | p :: ps => if branch p.header.type = .handOver then [p] else p :: upTo branch ps

variable {branch : MsgT → Branch}

theorem stream_append (ps qs : List Packet) : stream (ps ++ qs) = stream ps ++ stream qs :=
  List.flatMap_append

theorem stream_cons (p : Packet) (ps : List Packet) :
    stream (p :: ps) = p.sized.bytes ++ stream ps := rfl

theorem position_concat (ps : List Packet) (p : Packet) :
    position branch (ps ++ [p]) = position branch ps + consumed branch p := by
  induction ps with
  | nil => exact Nat.add_comm _ _
  | cons q ps ih => rw [List.cons_append, position, ih, position, Nat.add_assoc]

theorem position_le (branch : MsgT → Branch) (ps : List Packet) :
    position branch ps ≤ (stream ps).length := by
  induction ps with
  | nil => exact Nat.le_refl _
  | cons p ps ih =>
    have hp : consumed branch p ≤ p.sized.bytes.length := by
      rw [Packet.length_bytes, consumed, Packet.sized_data]
      split <;> omega
    have hsum : position branch (p :: ps) = consumed branch p + position branch ps := rfl
    rw [stream_cons, List.length_append, hsum]
    omega

/-- In front of a packet the stream is long enough for what its branch takes. -/
theorem le_length_stream (branch : MsgT → Branch) {packets pre post : List Packet} {p : Packet}
    (hsplit : packets = pre ++ p :: post) :
    position branch pre + PacketHeader.bytesize + p.data.buf.length ≤ (stream packets).length := by
  have := position_le branch pre
  rw [hsplit, stream_append, stream_cons, List.length_append, List.length_append,
    Packet.length_bytes, Packet.sized_data]
  omega

theorem upTo_append {pre : List Packet} (hkept : Kept branch pre) (post : List Packet) :
    upTo branch (pre ++ post) = pre ++ upTo branch post := by
  induction pre with
  | nil => rfl
  | cons p pre ih =>
    have hp := hkept p List.mem_cons_self
    have hrest := ih fun q hq => hkept q (List.mem_cons_of_mem p hq)
    rw [List.cons_append, upTo, if_neg hp, hrest]
    rfl

theorem upTo_kept {packets : List Packet} (hkept : Kept branch packets) :
    upTo branch packets = packets := by
  have := upTo_append hkept []
  rwa [List.append_nil, upTo, List.append_nil] at this

theorem upTo_cons (branch : MsgT → Branch) (p : Packet) (ps : List Packet) :
    ∃ rest, upTo branch (p :: ps) = p :: rest := by
  rw [upTo]
  split
  · exact ⟨[], rfl⟩
  · exact ⟨upTo branch ps, rfl⟩

theorem kept_concat {pre : List Packet} {p : Packet} (hkept : Kept branch pre)
    (hp : branch p.header.type ≠ .handOver) : Kept branch (pre ++ [p]) := by
  intro q hq
  rcases List.mem_append.mp hq with hq | hq
  · exact hkept q hq
  · rw [List.mem_singleton.mp hq]
    exact hp

theorem kept_or_first (branch : MsgT → Branch) (packets : List Packet) : Kept branch packets ∨
    ∃ pre p post, packets = pre ++ p :: post ∧ Kept branch pre ∧
      branch p.header.type = .handOver := by
  induction packets with
  | nil => exact Or.inl fun p hp => by cases hp
  | cons p ps ih =>
    by_cases hp : branch p.header.type = .handOver
    · refine Or.inr ⟨[], p, ps, rfl, ?_, hp⟩
      intro q hq
      cases hq
    · rcases ih with hkept | ⟨pre, q, post, rfl, hkept, hq⟩
      · refine Or.inl fun q hq => ?_
        rcases List.mem_cons.mp hq with rfl | hq
        · exact hp
        · exact hkept q hq
      · refine Or.inr ⟨p :: pre, q, post, rfl, ?_, hq⟩
        intro q' hq'
        rcases List.mem_cons.mp hq' with rfl | hq'
        · exact hp
        · exact hkept q' hq'

/-! ## The property and the condition -/

section Readers

variable {σ ε : Type*}

/-- The headers that a session has parsed. -/
def headers (parsed : ε → Option PacketHeader) (s : Session σ UnitT ε) : List PacketHeader :=
  s.events.filterMap parsed

def headersOf (packets : List Packet) : List PacketHeader := packets.map fun p => p.sized.header

/-- The headers parsed are always the first ones of the packets, and all of them, up to one
that gives the socket away, when everything has come and the reader has come to an end; and
it can come to an end. -/
structure StaysInStep (R : Reader σ UnitT Packet ε) (parsed : ε → Option PacketHeader)
    (branch : MsgT → Branch) (start : σ) (packets : List Packet) : Prop where
  inOrder : ∀ as s, run (step R) (Session.start start) as = some s →
    arrived as <+: stream packets → headers parsed s <+: headersOf (upTo branch packets)
  settled : ∀ as s, run (step R) (Session.start start) as = some s →
    arrived as = stream packets → Settled R s →
    headers parsed s = headersOf (upTo branch packets)
  reached : ∃ as s, run (step R) (Session.start start) as = some s ∧
    arrived as = stream packets ∧ Settled R s

/-- Where the reader is after the packets before it, a packet's header stands in the stream,
for every packet up to the first that gives the socket away; and at the end, if none does,
fewer bytes than a header has remain. -/
structure InStep (branch : MsgT → Branch) (packets : List Packet) : Prop where
  header : ∀ pre p post, packets = pre ++ p :: post → Kept branch pre →
    ((stream packets).drop (position branch pre)).take PacketHeader.bytesize =
      p.sized.header.bytes
  rest : Kept branch packets →
    (stream packets).length < position branch packets + PacketHeader.bytesize

variable {R : Reader σ UnitT Packet ε} {parsed : ε → Option PacketHeader} {atHeader : σ → Prop}
  {start : σ} {packets : List Packet}

theorem headers_after (s : Session σ UnitT ε) (buffer : Bytes) (r : σ × List ε) :
    headers parsed (s.after buffer r) = headers parsed s ++ r.2.filterMap parsed :=
  List.filterMap_append

theorem headersOf_concat (pre : List Packet) (p : Packet) :
    headersOf (pre ++ [p]) = headersOf pre ++ [p.sized.header] := List.map_append

/-! ## Reading packet after packet -/

/-- Everything has come, and the reader is about to read the header behind `pre`. -/
structure At (R : Reader σ UnitT Packet ε) (parsed : ε → Option PacketHeader)
    (branch : MsgT → Branch) (atHeader : σ → Prop) (start : σ) (packets pre : List Packet)
    (as : List (Action UnitT Packet)) (s : Session σ UnitT ε) : Prop where
  steps : run (step R) (Session.start start) as = some s
  complete : arrived as = stream packets
  reading : atHeader s.state
  unread : s.buffer = (stream packets).drop (position branch pre)
  log : headers parsed s = headersOf pre

theorem At.read (hR : ReadsPackets R parsed branch atHeader) {pre : List Packet}
    {as : List (Action UnitT Packet)} {s : Session σ UnitT ε}
    (h : At R parsed branch atHeader start packets pre as s)
    (hlen : position branch pre + PacketHeader.bytesize ≤ (stream packets).length) :
    run (step R) (Session.start start) (as ++ [.read]) =
      some (s.after ((stream packets).drop (position branch pre + PacketHeader.bytesize))
        (R.got s.state (((stream packets).drop (position branch pre)).take
          PacketHeader.bytesize))) := by
  have hn : PacketHeader.bytesize ≤ s.buffer.length := by
    rw [h.unread, List.length_drop]
    omega
  have hstep := step_read (hR.wait_header _ h.reading) hn
  rw [h.unread, List.drop_drop] at hstep
  exact run_concat h.steps hstep

theorem arrived_read (as : List (Action UnitT Packet)) :
    arrived (as ++ [.read]) = arrived as := by
  rw [arrived_append]
  exact List.append_nil _

theorem At.come_read {pre : List Packet} {as : List (Action UnitT Packet)}
    {s : Session σ UnitT ε} (h : At R parsed branch atHeader start packets pre as s) :
    ExactRead.arrived (as ++ [.read]) <+: stream packets := by
  have hcome := arrived_read as
  rw [h.complete] at hcome
  exact hcome ▸ List.prefix_rfl

/-- When the header of the next packet stands at the position, the packet is read. -/
theorem At.next (hR : ReadsPackets R parsed branch atHeader) {pre post : List Packet} {p : Packet}
    {as : List (Action UnitT Packet)} {s : Session σ UnitT ε}
    (h : At R parsed branch atHeader start packets pre as s) (hsplit : packets = pre ++ p :: post)
    (henum : p.header.type.IsEnumerator)
    (hsize : PacketHeader.bytesize + p.data.buf.length < 2 ^ 32)
    (hheader : ((stream packets).drop (position branch pre)).take PacketHeader.bytesize =
      p.sized.header.bytes)
    (hkept : branch p.header.type ≠ .handOver) :
    ∃ as' s', At R parsed branch atHeader start packets (pre ++ [p]) as' s' := by
  have hlen := le_length_stream branch hsplit
  have hread := h.read hR (by omega)
  rw [hheader] at hread
  have hparsed := hR.parsed_header s.state p.sized.header h.reading
  cases hbranch : branch p.header.type with
  | handOver => exact absurd hbranch hkept
  | skip =>
    refine ⟨_, _, hread, by rw [arrived_read, h.complete], hR.skip _ _ h.reading henum hbranch,
      ?_, ?_⟩
    · rw [position_concat, consumed, hbranch]
      rfl
    · rw [headers_after, h.log, hparsed, headersOf_concat]
  | body =>
    obtain ⟨hwait, hbody⟩ := hR.body s.state p.sized.header h.reading hbranch
    have hdata : p.sized.header.datasize.toNat = p.data.buf.length :=
      Packet.sized_datasize (by omega)
    rw [hdata] at hwait hbody
    generalize hafter : s.after ((stream packets).drop
      (position branch pre + PacketHeader.bytesize)) (R.got s.state p.sized.header.bytes) = s₁
      at hread
    have hstate : s₁.state = (R.got s.state p.sized.header.bytes).1 := by rw [← hafter]; rfl
    have hbuffer : s₁.buffer =
        (stream packets).drop (position branch pre + PacketHeader.bytesize) := by
      rw [← hafter]
      rfl
    have hn : p.data.buf.length ≤ s₁.buffer.length := by
      rw [hbuffer, List.length_drop]
      omega
    have hbuf : (s₁.buffer.take p.data.buf.length).length = p.data.buf.length :=
      List.length_take_of_le hn
    have hread₂ := run_concat hread (step_read (hstate ▸ hwait) hn)
    obtain ⟨hsilent, hnext⟩ := hbody _ hbuf
    rw [← hstate] at hsilent hnext
    have hheaders : headers parsed (s₁.after (s₁.buffer.drop p.data.buf.length)
        (R.got s₁.state (s₁.buffer.take p.data.buf.length))) = headersOf (pre ++ [p]) := by
      rw [headers_after, hsilent, List.append_nil, ← hafter, headers_after, h.log, hparsed,
        headersOf_concat]
    have hdrop : s₁.buffer.drop p.data.buf.length =
        (stream packets).drop (position branch (pre ++ [p])) := by
      rw [hbuffer, List.drop_drop, position_concat, consumed, if_pos hbranch, Nat.add_assoc]
    have harrived : arrived (as ++ [.read] ++ [.read]) = stream packets := by
      rw [arrived_read, arrived_read, h.complete]
    rcases hnext with hnext | hnext
    · exact ⟨_, _, hread₂, harrived, hnext, hdrop, hheaders⟩
    · obtain ⟨hnext', hsilent'⟩ := hR.resumed _ p hnext
      refine ⟨_, _, run_concat hread₂ (step_resume hnext p), ?_, hnext', hdrop, ?_⟩
      · rw [arrived_append, harrived]
        exact List.append_nil _
      · rw [headers_after]
        exact (congrArg (headers parsed _ ++ ·) hsilent').trans
          ((List.append_nil _).trans hheaders)

/-- The reader gets behind any packets before the first that gives the socket away, if at
every position that it reaches the header of the next packet stands. -/
theorem exists_at (hR : ReadsPackets R parsed branch atHeader) (hstart : atHeader start)
    (hpackets : ∀ p ∈ packets, p.header.type.IsEnumerator ∧
      PacketHeader.bytesize + p.data.buf.length < 2 ^ 32)
    (hheader : ∀ pre p post as s, packets = pre ++ p :: post → Kept branch pre →
      At R parsed branch atHeader start packets pre as s →
      ((stream packets).drop (position branch pre)).take PacketHeader.bytesize =
        p.sized.header.bytes) :
    ∀ pre post, packets = pre ++ post → Kept branch pre →
      ∃ as s, At R parsed branch atHeader start packets pre as s := by
  intro pre
  induction pre using List.reverseRecOn with
  | nil =>
    intro post _ _
    refine ⟨[.arrive (stream packets)], ⟨start, stream packets, []⟩, rfl, ?_, hstart, rfl, rfl⟩
    exact List.append_nil _
  | append_singleton pre p ih =>
    intro post hsplit hkept
    have hsplit' : packets = pre ++ p :: post := by rw [hsplit]; simp
    have hkept' : Kept branch pre := fun q hq => hkept q (List.mem_append_left _ hq)
    obtain ⟨as, s, hat⟩ := ih (p :: post) hsplit' hkept'
    have hp : p ∈ packets := by rw [hsplit']; simp
    exact hat.next hR hsplit' (hpackets p hp).1 (hpackets p hp).2
      (hheader pre p post as s hsplit' hkept' hat)
      (hkept p (List.mem_append_right _ (List.mem_singleton_self p)))

/-! ## Staying in step needs the condition -/

theorem header_of_stays (hR : ReadsPackets R parsed branch atHeader)
    (hstays : StaysInStep R parsed branch start packets) {pre post : List Packet} {p : Packet}
    {as : List (Action UnitT Packet)} {s : Session σ UnitT ε}
    (h : At R parsed branch atHeader start packets pre as s) (hsplit : packets = pre ++ p :: post)
    (hkept : Kept branch pre) :
    ((stream packets).drop (position branch pre)).take PacketHeader.bytesize =
      p.sized.header.bytes := by
  have hlen := le_length_stream branch hsplit
  generalize hbuf : ((stream packets).drop (position branch pre)).take PacketHeader.bytesize = buf
  have hbuflen : buf.length = PacketHeader.bytesize := by
    rw [← hbuf, List.length_take, List.length_drop]
    omega
  have hsome : (PacketHeader.parse buf 0).isSome := PacketHeader.parse_isSome (by omega)
  obtain ⟨header, hparse⟩ := Option.isSome_iff_exists.mp hsome
  have hbytes := (PacketHeader.parse_eq_some_iff hbuflen).mp hparse
  have hread := h.read hR (by omega)
  rw [hbuf, hbytes] at hread
  have horder := hstays.inOrder _ _ hread h.come_read
  rw [headers_after, h.log, hR.parsed_header _ _ h.reading, hsplit, upTo_append hkept] at horder
  obtain ⟨rest, hrest⟩ := upTo_cons branch p post
  rw [hrest, headersOf, headersOf, List.map_append, List.prefix_append_right_inj,
    List.map_cons, List.cons_prefix_cons] at horder
  rw [hbytes, horder.1]

theorem inStep_of_stays (hR : ReadsPackets R parsed branch atHeader) (hstart : atHeader start)
    (hpackets : ∀ p ∈ packets, p.header.type.IsEnumerator ∧
      PacketHeader.bytesize + p.data.buf.length < 2 ^ 32)
    (hstays : StaysInStep R parsed branch start packets) : InStep branch packets := by
  have hat := exists_at hR hstart hpackets fun pre p post as s hsplit hkept h =>
    header_of_stays hR hstays h hsplit hkept
  constructor
  · intro pre p post hsplit hkept
    obtain ⟨as, s, h⟩ := hat pre (p :: post) hsplit hkept
    exact header_of_stays hR hstays h hsplit hkept
  · intro hkept
    obtain ⟨as, s, h⟩ := hat packets [] (List.append_nil _).symm hkept
    by_contra hlarge
    -- otherwise one more header is parsed
    have hread := h.read hR (by omega)
    generalize hbuf : ((stream packets).drop (position branch packets)).take
      PacketHeader.bytesize = buf at hread
    have hbuflen : buf.length = PacketHeader.bytesize := by
      rw [← hbuf, List.length_take, List.length_drop]
      omega
    have hsome : (PacketHeader.parse buf 0).isSome := PacketHeader.parse_isSome (by omega)
    obtain ⟨header, hparse⟩ := Option.isSome_iff_exists.mp hsome
    rw [(PacketHeader.parse_eq_some_iff hbuflen).mp hparse] at hread
    have horder := hstays.inOrder _ _ hread h.come_read
    rw [headers_after, h.log, hR.parsed_header _ _ h.reading, upTo_kept hkept] at horder
    have hle := horder.length_le
    rw [List.length_append, List.length_singleton] at hle
    omega

/-! ## The condition is enough -/

/-- Where the reader can be when the headers of `pre` have been parsed and `pos` bytes have
been read. -/
inductive Phase (R : Reader σ UnitT Packet ε) (parsed : ε → Option PacketHeader)
    (branch : MsgT → Branch) (atHeader : σ → Prop) (packets : List Packet) :
    List Packet → σ → Nat → Prop
  | header {pre post : List Packet} {s : σ} (split : packets = pre ++ post)
      (kept : Kept branch pre) (reading : atHeader s) :
      Phase R parsed branch atHeader packets pre s (position branch pre)
  | signal {pre post : List Packet} {s : σ} (split : packets = pre ++ post)
      (kept : Kept branch pre) (wait : R.wait s = .signal) :
      Phase R parsed branch atHeader packets pre s (position branch pre)
  | body {pre post : List Packet} {s : σ} {n pos : Nat} (split : packets = pre ++ post)
      (kept : Kept branch pre) (reading : InBody R parsed atHeader s n)
      (next : pos + n = position branch pre) :
      Phase R parsed branch atHeader packets pre s pos
  | handedOver {pre post : List Packet} {p : Packet} {s : σ} {pos : Nat}
      (split : packets = pre ++ p :: post) (kept : Kept branch pre)
      (last : branch p.header.type = .handOver) (wait : R.wait s = .handedOver) :
      Phase R parsed branch atHeader packets (pre ++ [p]) s pos
  | dead {pre : List Packet} {s : σ} {pos : Nat} (order : pre <+: upTo branch packets)
      (wait : R.wait s = .dead) : Phase R parsed branch atHeader packets pre s pos

/-- What holds in a run on a stream that is in step. -/
structure Following (R : Reader σ UnitT Packet ε) (parsed : ε → Option PacketHeader)
    (branch : MsgT → Branch) (atHeader : σ → Prop) (packets : List Packet)
    (come : Bytes) (s : Session σ UnitT ε) (pre : List Packet) (pos : Nat) : Prop where
  log : headers parsed s = headersOf pre
  pos_le : pos ≤ come.length
  unread : s.buffer = come.drop pos
  phase : Phase R parsed branch atHeader packets pre s.state pos

theorem Phase.order {pre : List Packet} {s : σ} {pos : Nat}
    (h : Phase R parsed branch atHeader packets pre s pos) : pre <+: upTo branch packets := by
  cases h with
  | header split kept | signal split kept | body split kept =>
    rw [split, upTo_append kept]
    exact List.prefix_append _ _
  | handedOver split kept last wait =>
    refine ⟨[], ?_⟩
    rw [split, upTo_append kept, upTo, if_pos last, List.append_nil]
  | dead order wait => exact order

/-- The read of a header. -/
theorem Following.readHeader (hR : ReadsPackets R parsed branch atHeader)
    (hpackets : ∀ p ∈ packets, p.header.type.IsEnumerator ∧
      PacketHeader.bytesize + p.data.buf.length < 2 ^ 32)
    (hin : InStep branch packets) {come : Bytes} {s : Session σ UnitT ε} {pre post : List Packet}
    (hcome : come <+: stream packets) (hsplit : packets = pre ++ post) (hkept : Kept branch pre)
    (hreading : atHeader s.state) (hlog : headers parsed s = headersOf pre)
    (hunread : s.buffer = come.drop (position branch pre))
    (hn : PacketHeader.bytesize ≤ s.buffer.length) :
    ∃ pre', Following R parsed branch atHeader packets come
      (s.after (s.buffer.drop PacketHeader.bytesize)
        (R.got s.state (s.buffer.take PacketHeader.bytesize))) pre'
      (position branch pre + PacketHeader.bytesize) := by
  have hlen : position branch pre + PacketHeader.bytesize ≤ come.length := by
    rw [hunread, List.length_drop] at hn
    have : 0 < PacketHeader.bytesize := by decide
    omega
  have hlong := hcome.length_le
  cases post with
  | nil =>
    rw [List.append_nil] at hsplit
    subst hsplit
    have := hin.rest hkept
    omega
  | cons p post =>
    have hheader := hin.header pre p post hsplit hkept
    -- what has come agrees with the stream as far as it reaches
    have hbuf : s.buffer.take PacketHeader.bytesize = p.sized.header.bytes := by
      rw [hunread, ← hheader]
      obtain ⟨more, hmore⟩ := hcome
      rw [← hmore, List.drop_append_of_le_length (by omega),
        List.take_append_of_le_length (by rw [List.length_drop]; omega)]
    rw [hbuf]
    have hmem : p ∈ packets := by rw [hsplit]; simp
    obtain ⟨henum, hsize⟩ := hpackets p hmem
    have hlog' : headers parsed (s.after (s.buffer.drop PacketHeader.bytesize)
        (R.got s.state p.sized.header.bytes)) = headersOf (pre ++ [p]) := by
      rw [headers_after, hlog, hR.parsed_header _ _ hreading, headersOf_concat]
    have hunread' : s.buffer.drop PacketHeader.bytesize =
        come.drop (position branch pre + PacketHeader.bytesize) := by
      rw [hunread, List.drop_drop]
    have hsplit' : packets = (pre ++ [p]) ++ post := by rw [hsplit]; simp
    refine ⟨pre ++ [p], hlog', hlen, hunread', ?_⟩
    cases hbranch : branch p.header.type with
    | skip =>
      have hpos : position branch pre + PacketHeader.bytesize = position branch (pre ++ [p]) := by
        rw [position_concat, consumed, hbranch]
        rfl
      rw [hpos]
      exact .header hsplit' (kept_concat hkept (by rw [hbranch]; decide))
        (hR.skip _ _ hreading henum hbranch)
    | body =>
      have hdata : p.sized.header.datasize.toNat = p.data.buf.length :=
        Packet.sized_datasize (by omega)
      have hbody := hR.body s.state p.sized.header hreading hbranch
      rw [hdata] at hbody
      refine .body hsplit' (kept_concat hkept (by rw [hbranch]; decide)) hbody ?_
      rw [position_concat, consumed, if_pos hbranch, Nat.add_assoc]
    | handOver => exact .handedOver hsplit hkept hbranch (hR.handOver _ _ hreading hbranch)

theorem Following.step (hR : ReadsPackets R parsed branch atHeader)
    (hpackets : ∀ p ∈ packets, p.header.type.IsEnumerator ∧
      PacketHeader.bytesize + p.data.buf.length < 2 ^ 32)
    (hin : InStep branch packets) {come : Bytes} {s t : Session σ UnitT ε} {pre : List Packet}
    {pos : Nat} {a : Action UnitT Packet}
    (h : Following R parsed branch atHeader packets come s pre pos)
    (hcome : come ++ a.chunk <+: stream packets) (ht : ExactRead.step R s a = some t) :
    ∃ pre' pos', Following R parsed branch atHeader packets (come ++ a.chunk) t pre' pos' := by
  cases a with
  | arrive chunk =>
    cases ht
    refine ⟨pre, pos, h.log, ?_, ?_, h.phase⟩
    · rw [List.length_append]
      exact Nat.le_add_right_of_le h.pos_le
    · rw [Action.chunk, List.drop_append_of_le_length h.pos_le, h.unread]
  | read =>
    rw [Action.chunk, List.append_nil] at hcome ⊢
    obtain ⟨n, hwait, hn, rfl⟩ := step_read_some ht
    obtain ⟨hlog, hpos, hunread, hphase⟩ := h
    cases hphase with
    | header split kept reading =>
      rw [hR.wait_header _ reading] at hwait
      cases hwait
      obtain ⟨pre', hpre'⟩ := Following.readHeader hR hpackets hin hcome split kept reading hlog
        hunread hn
      exact ⟨pre', _, hpre'⟩
    | signal split kept wait =>
      rw [wait] at hwait
      cases hwait
    | @body _ post _ m _ split kept reading next =>
      rw [reading.1] at hwait
      cases hwait
      obtain ⟨hsilent, hnext⟩ := reading.2 (s.buffer.take n) (List.length_take_of_le hn)
      have hlog' : headers parsed (s.after (s.buffer.drop n) (R.got s.state (s.buffer.take n))) =
          headersOf pre := by
        rw [headers_after, hsilent, List.append_nil, hlog]
      have hle : position branch pre ≤ come.length := by
        rw [hunread, List.length_drop] at hn
        omega
      have hunread' : s.buffer.drop n = come.drop (position branch pre) := by
        rw [hunread, List.drop_drop, next]
      rcases hnext with hnext | hnext
      · exact ⟨pre, _, hlog', hle, hunread', .header split kept hnext⟩
      · exact ⟨pre, _, hlog', hle, hunread', .signal split kept hnext⟩
    | handedOver split kept last wait =>
      rw [wait] at hwait
      cases hwait
    | dead order wait =>
      rw [wait] at hwait
      cases hwait
  | resume r =>
    rw [Action.chunk, List.append_nil] at hcome ⊢
    simp only [ExactRead.step] at ht
    split at ht
    · rename_i hsignal
      cases ht
      obtain ⟨hreading, hsilent⟩ := hR.resumed _ r hsignal
      obtain ⟨hlog, hpos, hunread, hphase⟩ := h
      have hlog' : headers parsed (s.after s.buffer (R.resumed s.state r)) = headersOf pre := by
        rw [headers_after, hsilent, List.append_nil, hlog]
      cases hphase with
      | signal split kept wait => exact ⟨pre, _, hlog', hpos, hunread, .header split kept hreading⟩
      | header split kept reading =>
        rw [hR.wait_header _ reading] at hsignal
        cases hsignal
      | body split kept reading next =>
        rw [reading.1] at hsignal
        cases hsignal
      | handedOver split kept last wait =>
        rw [wait] at hsignal
        cases hsignal
      | dead order wait =>
        rw [wait] at hsignal
        cases hsignal
    · cases ht
  | fail =>
    rw [Action.chunk, List.append_nil] at hcome ⊢
    obtain ⟨hdead, hsilent⟩ := hR.failed s.state
    rw [step_fail_some ht]
    refine ⟨pre, pos, ?_, h.pos_le, h.unread, .dead h.phase.order hdead⟩
    rw [headers_after, hsilent, List.append_nil, h.log]

theorem run_following (hR : ReadsPackets R parsed branch atHeader) (hstart : atHeader start)
    (hpackets : ∀ p ∈ packets, p.header.type.IsEnumerator ∧
      PacketHeader.bytesize + p.data.buf.length < 2 ^ 32)
    (hin : InStep branch packets) {as : List (Action UnitT Packet)} {s : Session σ UnitT ε}
    (hrun : run (ExactRead.step R) (Session.start start) as = some s)
    (hcome : arrived as <+: stream packets) :
    ∃ pre pos, Following R parsed branch atHeader packets (arrived as) s pre pos := by
  revert hcome
  refine run_induction (P := fun as s => arrived as <+: stream packets →
    ∃ pre pos, Following R parsed branch atHeader packets (arrived as) s pre pos) ?_ ?_ as s hrun
  · intro _
    exact ⟨[], 0, rfl, Nat.le_refl _, rfl, .header rfl (fun q hq => (by cases hq)) hstart⟩
  intro as s a t _ ih ht hcome
  have hsingle : arrived (as ++ [a]) = arrived as ++ a.chunk := by
    rw [arrived_append]
    exact congrArg _ (List.append_nil _)
  rw [hsingle] at hcome ⊢
  obtain ⟨pre, pos, h⟩ := ih ((List.prefix_append _ _).trans hcome)
  exact h.step hR hpackets hin hcome ht

/-- When everything has come and the reader has come to an end, it has parsed all headers. -/
theorem Following.settled (hR : ReadsPackets R parsed branch atHeader) {s : Session σ UnitT ε}
    {pre : List Packet} {pos : Nat}
    (h : Following R parsed branch atHeader packets (stream packets) s pre pos)
    (hsettled : Settled R s) : headers parsed s = headersOf (upTo branch packets) := by
  rw [h.log]
  have hunread := h.unread
  unfold Settled at hsettled
  cases h.phase with
  | @header _ post _ split kept reading =>
    rw [hR.wait_header _ reading] at hsettled
    cases post with
    | nil =>
      rw [List.append_nil] at split
      subst split
      rw [upTo_kept kept]
    | cons p post =>
      have hlen := le_length_stream branch split
      simp only [hunread, List.length_drop] at hsettled
      omega
  | signal split kept wait => rw [wait] at hsettled; exact hsettled.elim
  | body split kept reading next =>
    rw [reading.1] at hsettled
    have hle := position_le branch pre
    have hlen : (stream pre).length ≤ (stream packets).length := by
      rw [split, stream_append, List.length_append]
      exact Nat.le_add_right _ _
    simp only [hunread, List.length_drop] at hsettled
    omega
  | handedOver split kept last wait => rw [split, upTo_append kept, upTo, if_pos last]
  | dead order wait => rw [wait] at hsettled; exact hsettled.elim

theorem stays_of_inStep (hR : ReadsPackets R parsed branch atHeader) (hstart : atHeader start)
    (hpackets : ∀ p ∈ packets, p.header.type.IsEnumerator ∧
      PacketHeader.bytesize + p.data.buf.length < 2 ^ 32)
    (hin : InStep branch packets) : StaysInStep R parsed branch start packets := by
  refine ⟨?_, ?_, ?_⟩
  · intro as s hrun hcome
    obtain ⟨pre, pos, h⟩ := run_following hR hstart hpackets hin hrun hcome
    rw [h.log]
    exact h.phase.order.map _
  · intro as s hrun hcome hsettled
    obtain ⟨pre, pos, h⟩ := run_following hR hstart hpackets hin hrun (hcome ▸ List.prefix_rfl)
    rw [hcome] at h
    exact h.settled hR hsettled
  · have hat := exists_at hR hstart hpackets
      fun pre p post as s hsplit hkept _ => hin.header pre p post hsplit hkept
    rcases kept_or_first branch packets with hkept | ⟨pre, p, post, hsplit, hkept, hp⟩
    · obtain ⟨as, s, h⟩ := hat packets [] (List.append_nil _).symm hkept
      refine ⟨as, s, h.steps, h.complete, ?_⟩
      have hrest := hin.rest hkept
      have hpos : 0 < PacketHeader.bytesize := by decide
      unfold Settled
      rw [hR.wait_header _ h.reading]
      simp only [h.unread, List.length_drop]
      omega
    · obtain ⟨as, s, h⟩ := hat pre (p :: post) hsplit hkept
      have hlen := le_length_stream branch hsplit
      have hread := h.read hR (by omega)
      rw [hin.header pre p post hsplit hkept] at hread
      refine ⟨_, _, hread, by rw [arrived_read, h.complete], ?_⟩
      unfold Settled
      have hwait := hR.handOver s.state p.sized.header h.reading hp
      simp only [Session.after, hwait]

end Readers

/-! ## Bodies that are left in the stream -/

theorem size_of_serializeAll {packets : List Packet} {bytes : Bytes}
    (h : serializeAll packets = some bytes) :
    ∀ p ∈ packets, PacketHeader.bytesize + p.data.buf.length < 2 ^ 32 := by
  obtain ⟨outputs, houtputs, -⟩ := Option.map_eq_some_iff.mp h
  clear h
  induction packets generalizing outputs with
  | nil =>
    intro p hp
    cases hp
  | cons q packets ih =>
    simp only [List.mapM_cons, Option.bind_eq_bind, Option.bind_eq_some_iff] at houtputs
    obtain ⟨out, hout, rest, hrest, -⟩ := houtputs
    intro p hp
    rcases List.mem_cons.mp hp with rfl | hp
    · rw [← Packet.serialize_isSome_iff, ← Option.isSome_map (f := Prod.snd), hout]
      rfl
    · exact ih rest hrest p hp

/-- No body is left in the stream. -/
def Consumed (branch : MsgT → Branch) (packets : List Packet) : Prop :=
  ∀ p ∈ packets, branch p.header.type = .skip → p.data.buf = []

theorem position_of_consumed {packets : List Packet} (hkept : Kept branch packets)
    (h : Consumed branch packets) : position branch packets = (stream packets).length := by
  induction packets with
  | nil => rfl
  | cons p packets ih =>
    have hrest := ih (fun q hq => hkept q (List.mem_cons_of_mem p hq))
      (fun q hq => h q (List.mem_cons_of_mem p hq))
    have hp : consumed branch p = p.sized.bytes.length := by
      rw [consumed, Packet.length_bytes, Packet.sized_data]
      cases hbranch : branch p.header.type with
      | skip => simp [h p List.mem_cons_self hbranch]
      | body => rfl
      | handOver => exact absurd hbranch (hkept p List.mem_cons_self)
    have hsum : position branch (p :: packets) = consumed branch p + position branch packets := rfl
    rw [hsum, hrest, hp, stream_cons, List.length_append]

theorem inStep_of_consumed {packets : List Packet} (h : Consumed branch packets) :
    InStep branch packets := by
  constructor
  · intro pre p post hsplit hkept
    have hpre : Consumed branch pre := by
      intro q hq
      exact h q (by rw [hsplit]; exact List.mem_append_left _ hq)
    rw [position_of_consumed hkept hpre, hsplit, stream_append, List.drop_left, stream_cons,
      Packet.bytes, List.append_assoc, ← p.sized.header.length_bytes, List.take_left]
  · intro hkept
    have hpos : 0 < PacketHeader.bytesize := by decide
    rw [position_of_consumed hkept h]
    omega

/-- The header of a type, with nothing else in it. -/
def bareHeader (type : MsgT) : PacketHeader :=
  { type := type, key := List.Vector.replicate 32 0, datasize := 0
    sequence := List.Vector.replicate 4 0, randomSalt := List.Vector.replicate 4 0 }

/-- Any byte that is left in the stream makes the reader lose the step at some next packet. -/
theorem exists_next_lost {packets : List Packet} (hkept : Kept branch packets)
    (hleft : position branch packets < (stream packets).length) :
    ∃ p, p.header.type.IsEnumerator ∧ p.data.buf = [] ∧ ¬ InStep branch (packets ++ [p]) := by
  have hlost : ∀ type : MsgT, type.toByte ≠ (stream packets)[position branch packets] →
      ¬ InStep branch (packets ++ [⟨bareHeader type, ⟨[]⟩⟩]) := by
    intro type htype hin
    have hheader := hin.header packets _ [] rfl hkept
    have hhead := congrArg List.head? hheader
    rw [stream_append, List.drop_append_of_le_length (Nat.le_of_lt hleft),
      List.drop_eq_getElem_cons hleft, List.cons_append, PacketHeader.bytesize, List.take_succ_cons,
      List.head?_cons] at hhead
    exact htype (Option.some.inj hhead).symm
  by_cases hput : (stream packets)[position branch packets] = MsgT.put.toByte
  · refine ⟨⟨bareHeader .get, ⟨[]⟩⟩, trivial, rfl, hlost .get ?_⟩
    rw [hput]
    decide
  · exact ⟨⟨bareHeader .put, ⟨[]⟩⟩, trivial, rfl, hlost .put fun he => hput he.symm⟩

/-! ## Both sides of the server -/

/-- On the connection of a client, and on the socket of a worker, the headers parsed are those
of the packets sent exactly if they stand where the branches of the packets before leave the
reader. -/
theorem in_step_iff {packets : List Packet}
    (henum : ∀ p ∈ packets, p.header.type.IsEnumerator)
    (hserialize : serializeAll packets = some (stream packets)) :
    (StaysInStep TcpConnection.reader TcpConnection.Effect.parsed? TcpConnection.branch .header
      packets ↔ InStep TcpConnection.branch packets) ∧
    ∀ valid, StaysInStep Worker.reader Worker.Effect.parsed? Worker.branch ⟨valid, .header⟩
      packets ↔ InStep Worker.branch packets := by
  have hsize := size_of_serializeAll hserialize
  have hpackets : ∀ p ∈ packets, p.header.type.IsEnumerator ∧
      PacketHeader.bytesize + p.data.buf.length < 2 ^ 32 := fun p hp => ⟨henum p hp, hsize p hp⟩
  constructor
  · exact ⟨inStep_of_stays TcpConnection.readsPackets rfl hpackets,
      stays_of_inStep TcpConnection.readsPackets rfl hpackets⟩
  · intro valid
    exact ⟨inStep_of_stays Worker.readsPackets rfl hpackets,
      stays_of_inStep Worker.readsPackets rfl hpackets⟩

/-- A get that carries a byte, and a put behind it. -/
def getWithBody : List Packet :=
  [⟨bareHeader .get, ⟨[9]⟩⟩, ⟨bareHeader .put, ⟨[]⟩⟩]

theorem getWithBody_enumerators : ∀ p ∈ getWithBody, p.header.type.IsEnumerator := by
  intro p hp
  simp only [getWithBody, List.mem_cons, List.not_mem_nil, or_false] at hp
  rcases hp with rfl | rfl
  · exact trivial
  · exact trivial

theorem getWithBody_serialize : serializeAll getWithBody = some (stream getWithBody) := by
  decide +kernel

theorem get_with_body : ¬ ∀ packets : List Packet,
    (∀ p ∈ packets, p.header.type.IsEnumerator) →
    serializeAll packets = some (stream packets) →
    StaysInStep TcpConnection.reader TcpConnection.Effect.parsed? TcpConnection.branch .header
      packets ∧
    ∀ valid, StaysInStep Worker.reader Worker.Effect.parsed? Worker.branch ⟨valid, .header⟩
      packets := by
  intro hall
  obtain ⟨hstays, -⟩ := hall getWithBody getWithBody_enumerators getWithBody_serialize
  have hsize := size_of_serializeAll getWithBody_serialize
  have hin := inStep_of_stays TcpConnection.readsPackets rfl
    (fun p hp => ⟨getWithBody_enumerators p hp, hsize p hp⟩) hstays
  have hkept : Kept TcpConnection.branch [⟨bareHeader .get, ⟨[9]⟩⟩] := by
    intro q hq
    rw [List.mem_singleton.mp hq]
    decide
  have hheader := hin.header [⟨bareHeader .get, ⟨[9]⟩⟩] ⟨bareHeader .put, ⟨[]⟩⟩ [] rfl hkept
  exact absurd hheader (by decide +kernel)

theorem in_step_iff_getWithBody :
    (StaysInStep TcpConnection.reader TcpConnection.Effect.parsed? TcpConnection.branch .header
      getWithBody ↔ InStep TcpConnection.branch getWithBody) ∧
    ∀ valid, StaysInStep Worker.reader Worker.Effect.parsed? Worker.branch ⟨valid, .header⟩
      getWithBody ↔ InStep Worker.branch getWithBody :=
  in_step_iff getWithBody_enumerators getWithBody_serialize

end CppSerializer
