import CppSerializer.Library.PrefixCode
import CppSerializer.Pack.Layout

/-!
# Streams of packets

What a client reads after it has sent packets: 45 bytes that are parsed as a header, then
as many bytes as the header says. `serialize` and this reader are the two sides of a
prefix code (`packetCode`), so a stream of serialized packets is read back as the packets,
and a stream that is read to its end was such a stream (`stream_framing`).
-/

namespace CppSerializer.Pack

open ByteString

/-! ## The reader -/

/-- `boost::asio::read` into a buffer of `n` bytes: the bytes and the rest of the stream. -/
def readExact (stream : Bytes) (n : Nat) : Option (Bytes × Bytes) :=
  if n ≤ stream.length then some (stream.take n, stream.drop n) else none

/-- One reply as the clients read it. -/
def readPacket (stream : Bytes) : Option (Packet × Bytes) := do
  let (headerbuf, stream) ← readExact stream PacketHeader.bytesize
  let header ← PacketHeader.parse headerbuf 0
  let (bodybuf, stream) ← readExact stream header.datasize.toNat
  let data ← PacketData.parse header.datasize bodybuf 0
  return ({ header, data }, stream)

/-- Read replies until the stream is used up. -/
def readPackets (stream : Bytes) : Option (List Packet) := PrefixCode.decodeAll readPacket stream

/-- The outputs of `serialize`, one behind the other. -/
def serializeAll (ps : List Packet) : Option Bytes :=
  (ps.mapM fun p : Packet => p.serialize.map Prod.snd).map List.flatten

/-! ## The two sides of the code -/

theorem readExact_append {front : Bytes} (rest : Bytes) {n : Nat} (hn : front.length = n) :
    readExact (front ++ rest) n = some (front, rest) := by
  subst hn
  simp [readExact]

theorem readExact_some {stream front rest : Bytes} {n : Nat}
    (h : readExact stream n = some (front, rest)) :
    stream = front ++ rest ∧ front.length = n := by
  unfold readExact at h
  split at h
  · cases h
    exact ⟨(List.take_append_drop n stream).symm, by simp only [List.length_take]; omega⟩
  · cases h

theorem PacketData.parse_eq {size : UIntN 4} {src : Bytes} (h : src.length = size.toNat) :
    PacketData.parse size src 0 = some ⟨src⟩ := by
  have hread : readAt src 0 size.toNat = some src :=
    readAt_of_eq [] [] (List.append_nil src).symm rfl h
  rw [PacketData.parse, hread, Option.map_some]

/-- The reader splits off the packet whose bytes stand in front. -/
theorem readPacket_bytes {p : Packet} (hsize : p.header.datasize.toNat = p.data.buf.length)
    (rest : Bytes) : readPacket (p.bytes ++ rest) = some (p, rest) := by
  have hheader := readExact_append (p.data.buf ++ rest) p.header.length_bytes
  have hparse : PacketHeader.parse p.header.bytes 0 = some p.header := by
    simpa using PacketHeader.parse_bytes p.header []
  have hbody := readExact_append rest hsize.symm
  have hdata := PacketData.parse_eq hsize.symm
  simp only [readPacket, Packet.bytes, List.append_assoc, hheader, hparse, hbody, hdata,
    Option.bind_eq_bind, Option.bind_some, Option.pure_def]

/-- What the reader splits off are the bytes of the packet it returns. -/
theorem bytes_of_readPacket {stream rest : Bytes} {p : Packet}
    (h : readPacket stream = some (p, rest)) :
    stream = p.bytes ++ rest ∧ p.header.datasize.toNat = p.data.buf.length := by
  simp only [readPacket, Option.bind_eq_bind, Option.bind_eq_some_iff, Option.pure_def,
    Option.some.injEq, Prod.exists, Prod.mk.injEq] at h
  obtain ⟨headerbuf, stream', hheader, header, hparse, bodybuf, stream'', hbody, data, hdata,
    rfl, rfl⟩ := h
  obtain ⟨rfl, hheaderLen⟩ := readExact_some hheader
  obtain ⟨rfl, hbodyLen⟩ := readExact_some hbody
  rw [PacketData.parse_eq hbodyLen] at hdata
  cases hdata
  rw [(PacketHeader.parse_eq_some_iff hheaderLen).mp hparse]
  exact ⟨by simp [Packet.bytes], hbodyLen.symm⟩

/-- The reader as the inverse of the wire layout, on packets that carry their own size. -/
def packetCode : PrefixCode Packet UnitT where
  encode := Packet.bytes
  decode := readPacket
  Valid p := p.header.datasize.toNat = p.data.buf.length
  encode_ne_nil p := by simp [Packet.bytes, PacketHeader.bytes_ne_nil]
  decode_encode _ rest hp := readPacket_bytes hp rest
  encode_of_decode _ _ _ h _ := (bytes_of_readPacket h).1

theorem serializeAll_eq {ps : List Packet}
    (h : ∀ p ∈ ps, PacketHeader.bytesize + p.data.buf.length < 2 ^ 32) :
    serializeAll ps = some ((ps.map Packet.sized).flatMap Packet.bytes) := by
  suffices hmap : (ps.mapM fun p : Packet => p.serialize.map Prod.snd) =
      some (ps.map fun p => p.sized.bytes) by
    rw [serializeAll, hmap, Option.map_some, List.flatMap_map, List.flatMap_def]
  induction ps with
  | nil => rfl
  | cons p ps ih =>
    have hp := Packet.serialize_eq (h p List.mem_cons_self)
    have hps := ih fun q hq => h q (List.mem_cons_of_mem p hq)
    simp [List.mapM_cons, hp, hps]

theorem datasize_of_readPackets {stream : Bytes} {ps : List Packet}
    (h : readPackets stream = some ps) :
    ∀ p ∈ ps, p.header.datasize.toNat = p.data.buf.length :=
  PrefixCode.forall_of_decodeAll (fun _ _ _ hone => (bytes_of_readPacket hone).2) h

theorem sized_of_datasize {p : Packet} (h : p.header.datasize.toNat = p.data.buf.length) :
    p.sized = p := by
  obtain ⟨header, data⟩ := p
  have : BitVec.ofNat (8 * 4) data.buf.length = header.datasize := by
    apply BitVec.eq_of_toNat_eq
    rw [BitVec.toNat_ofNat, ← h, Nat.mod_eq_of_lt header.datasize.isLt]
  simp only [Packet.sized, this]

/-- Framing is a bijection between lists of packets and the streams the reader consumes to
their end. -/
theorem stream_framing :
    (∀ ps : List Packet, (∀ p ∈ ps, PacketHeader.bytesize + p.data.buf.length < 2 ^ 32) →
      ∃ stream, serializeAll ps = some stream ∧
        readPackets stream = some (ps.map Packet.sized)) ∧
    (∀ (stream : Bytes) (ps : List Packet), readPackets stream = some ps →
      (∀ p ∈ ps, PacketHeader.bytesize + p.header.datasize.toNat < 2 ^ 32) →
      serializeAll ps = some stream) := by
  constructor
  · intro ps hps
    refine ⟨_, serializeAll_eq hps, packetCode.decodeAll_encode ?_⟩
    intro q hq
    obtain ⟨p, hp, rfl⟩ := List.mem_map.mp hq
    have := hps p hp
    exact Packet.sized_datasize (by omega)
  · intro stream ps hread hps
    have hsize := datasize_of_readPackets hread
    have hsized : ps.map Packet.sized = ps := by
      rw [List.map_congr_left fun p hp => sized_of_datasize (hsize p hp), List.map_id']
    rw [serializeAll_eq fun p hp => hsize p hp ▸ hps p hp, hsized]
    exact congrArg some (packetCode.encode_of_decodeAll hread hsize).symm

/-- Two packets, the second one with a body, through the stream and back. -/
def framingSample : List Packet :=
  [{ header := {
        type := .put, key := List.Vector.replicate 32 7, datasize := 0,
        sequence := List.Vector.replicate 4 1, randomSalt := List.Vector.replicate 4 2 }
     data := ⟨[]⟩ },
   { header := {
        type := .trigger, key := List.Vector.replicate 32 9, datasize := 3,
        sequence := List.Vector.replicate 4 5, randomSalt := List.Vector.replicate 4 6 }
     data := ⟨[10, 11, 12]⟩ }]

theorem stream_framing_sample :
    (∃ stream, serializeAll framingSample = some stream ∧
      readPackets stream = some (framingSample.map Packet.sized)) ∧
    serializeAll framingSample = some (framingSample.flatMap Packet.bytes) :=
  ⟨stream_framing.1 framingSample (by decide),
    stream_framing.2 (framingSample.flatMap Packet.bytes) framingSample (by decide +kernel)
      (by decide)⟩

end CppSerializer.Pack
