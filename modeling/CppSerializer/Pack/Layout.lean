import CppSerializer.Pack.Packet

/-!
# The layout of a packet on the wire

`PacketHeader.bytes` is the 45 bytes of a header, in the order in which they are sent:
type, key, sequence, salt, and the data size with its most significant byte first.
`dump` writes exactly these bytes (`dump_eq`), and `parse` is their inverse
(`parse_bytes`, `bytes_of_parse`). From this follows what `serialize` puts into its
buffer (`serialize_eq`), and that it stays inside the buffer exactly while the size of a
packet fits into 32 bits (`serialize_isSome_iff`).
-/

namespace CppSerializer.Pack

open ByteString

/-! ## Byte order -/

theorem hton_four (i : UIntN 4) : hton i = swapBytes i := rfl

theorem ntoh_four (i : UIntN 4) : ntoh i = swapBytes i := rfl

/-- No branch of `ntoh` converts integers of eight bytes. -/
theorem ntoh_eight (i : UIntN 8) : ntoh i = -1 := rfl

theorem ntoh_hton_four (i : UIntN 4) : ntoh (hton i) = i := by
  rw [hton_four, ntoh_four, swapBytes_swapBytes]

/-! ## Headers -/

namespace PacketHeader

/-- The bytes of a header on the wire. -/
def bytes (h : PacketHeader) : Bytes :=
  h.type.toByte :: (h.key.toList ++ (h.sequence.toList ++
    (h.randomSalt.toList ++ memory (hton h.datasize))))

@[simp] theorem length_bytes (h : PacketHeader) : h.bytes.length = bytesize := by
  simp [bytes, bytesize]

theorem bytes_ne_nil (h : PacketHeader) : h.bytes ≠ [] := by
  simp [bytes]

/-- `dump` at the start of a buffer replaces its first 45 bytes. -/
theorem dump_eq (h : PacketHeader) (buf : Bytes) (hbuf : bytesize ≤ buf.length) :
    h.dump buf 0 = some (h.bytes ++ buf.drop bytesize, bytesize) := by
  have hlen : 4 + 1 + 32 + 4 + 4 ≤ buf.length := hbuf
  have htype := writeAt_append 0 [] buf [h.type.toByte] rfl
    (by simp only [List.length_singleton]; omega)
  have hkey := writeAt_append (0 + 1) [h.type.toByte] (buf.drop 1) h.key.toList rfl
    (by simp only [List.Vector.toList_length, List.length_drop]; omega)
  have hseq := writeAt_append (0 + 1 + 32) ([h.type.toByte] ++ h.key.toList) (buf.drop 33)
    h.sequence.toList (by simp)
    (by simp only [List.Vector.toList_length, List.length_drop]; omega)
  have hsalt := writeAt_append (0 + 1 + 32 + 4)
    ([h.type.toByte] ++ h.key.toList ++ h.sequence.toList) (buf.drop 37) h.randomSalt.toList
    (by simp)
    (by simp only [List.Vector.toList_length, List.length_drop]; omega)
  have hsize := writeAt_append (0 + 1 + 32 + 4 + 4)
    ([h.type.toByte] ++ h.key.toList ++ h.sequence.toList ++ h.randomSalt.toList)
    (buf.drop 41) (memory (hton h.datasize)) (by simp)
    (by simp only [length_memory, List.length_drop]; omega)
  simp only [List.nil_append, List.length_singleton, List.Vector.toList_length, length_memory,
    List.drop_drop, Nat.reduceAdd] at htype hkey hseq hsalt hsize
  simp only [dump, htype, hkey, hseq, hsalt, hsize, Option.bind_eq_bind, Option.bind_some,
    Nat.reduceAdd, Option.pure_def]
  simp [bytes, bytesize]

theorem length_of_dump {h : PacketHeader} {buf out : Bytes} {pos : Nat}
    (hd : h.dump buf 0 = some (out, pos)) : out.length = buf.length ∧ pos = bytesize := by
  simp only [dump, Option.bind_eq_bind, Option.bind_eq_some_iff, Option.pure_def,
    Option.some.injEq, Prod.mk.injEq] at hd
  obtain ⟨b₁, h₁, b₂, h₂, b₃, h₃, b₄, h₄, b₅, h₅, rfl, rfl⟩ := hd
  refine ⟨?_, rfl⟩
  rw [(length_of_writeAt h₅).1, (length_of_writeAt h₄).1, (length_of_writeAt h₃).1,
    (length_of_writeAt h₂).1, (length_of_writeAt h₁).1]

/-- `parse` reads back what `dump` wrote. -/
theorem parse_bytes (h : PacketHeader) (rest : Bytes) : parse (h.bytes ++ rest) 0 = some h := by
  let type : Bytes := [h.type.toByte]
  let size : Bytes := memory (hton h.datasize)
  have hbuf : h.bytes ++ rest = type ++ (h.key.toList ++ (h.sequence.toList ++
      (h.randomSalt.toList ++ (size ++ rest)))) := by
    simp [bytes, type, size]
  have htype : readVector (h.bytes ++ rest) 0 1 = some ⟨type, rfl⟩ :=
    readVector_eq_some.mpr (readAt_of_eq [] _ hbuf rfl rfl)
  have hkey : readVector (h.bytes ++ rest) (0 + 1) 32 = some h.key :=
    readVector_eq_some.mpr (readAt_of_eq type _ hbuf rfl (by simp))
  have hseq : readVector (h.bytes ++ rest) (0 + 1 + 32) 4 = some h.sequence :=
    readVector_eq_some.mpr (readAt_of_eq (type ++ h.key.toList)
      (h.randomSalt.toList ++ (size ++ rest)) (by rw [hbuf]; simp) (by simp [type]) (by simp))
  have hsalt : readVector (h.bytes ++ rest) (0 + 1 + 32 + 4) 4 = some h.randomSalt :=
    readVector_eq_some.mpr (readAt_of_eq (type ++ h.key.toList ++ h.sequence.toList)
      (size ++ rest) (by rw [hbuf]; simp) (by simp [type]) (by simp))
  have hsize : readVector (h.bytes ++ rest) (0 + 1 + 32 + 4 + 4) 4 =
      some ⟨size, length_memory _⟩ :=
    readVector_eq_some.mpr (readAt_of_eq
      (type ++ h.key.toList ++ h.sequence.toList ++ h.randomSalt.toList) rest
      (by rw [hbuf]; simp [size]) (by simp [type]) (by simp [size]))
  have hdatasize : ntoh (ofMemory 4 (memory (hton h.datasize))) = h.datasize := by
    rw [ofMemory_memory, ntoh_hton_four]
  simp only [parse, htype, hkey, hseq, hsalt, hsize, Option.bind_eq_bind, Option.bind_some,
    Option.pure_def]
  change some (PacketHeader.mk (MsgT.ofByte h.type.toByte) h.key
    (ntoh (ofMemory 4 (memory (hton h.datasize)))) h.sequence h.randomSalt) = some h
  rw [MsgT.ofByte_toByte, hdatasize]

/-- A buffer that `parse` accepts starts with the bytes of the header it returns. -/
theorem bytes_of_parse {buf : Bytes} {h : PacketHeader} (hp : parse buf 0 = some h) :
    buf = h.bytes ++ buf.drop bytesize := by
  simp only [parse, Option.bind_eq_bind, Option.bind_eq_some_iff, Option.pure_def,
    Option.some.injEq, readVector_eq_some] at hp
  obtain ⟨type, htype, key, hkey, sequence, hseq, salt, hsalt, size, hsize, rfl⟩ := hp
  have h₁ := drop_eq_of_readAt htype
  have h₂ := drop_eq_of_readAt hkey
  have h₃ := drop_eq_of_readAt hseq
  have h₄ := drop_eq_of_readAt hsalt
  have h₅ := drop_eq_of_readAt hsize
  have htypeList : type.toList = [(MsgT.ofByte type.head).toByte] := by
    rw [MsgT.toByte_ofByte]
    match type with
    | ⟨[b], _⟩ => rfl
  have hsizeList : memory (hton (ntoh (ofMemory 4 size.toList))) = size.toList := by
    rw [hton_four, ntoh_four, swapBytes_swapBytes, memory_ofMemory size.toList_length]
  simp only [List.drop_zero, Nat.zero_add, Nat.reduceAdd] at h₁ h₂ h₃ h₄ h₅
  calc buf = type.toList ++ (key.toList ++ (sequence.toList ++ (salt.toList ++
        (size.toList ++ buf.drop 45)))) := by rw [← h₅, ← h₄, ← h₃, ← h₂, ← h₁]
    _ = _ := by
        rw [htypeList, bytes, hsizeList]
        simp [bytesize]

theorem parse_isSome {buf : Bytes} (hbuf : bytesize ≤ buf.length) : (parse buf 0).isSome := by
  have hlen : 4 + 1 + 32 + 4 + 4 ≤ buf.length := hbuf
  obtain ⟨type, htype⟩ := Option.isSome_iff_exists.mp
    (readVector_isSome buf 0 1 (by omega))
  obtain ⟨key, hkey⟩ := Option.isSome_iff_exists.mp
    (readVector_isSome buf (0 + 1) 32 (by omega))
  obtain ⟨sequence, hseq⟩ := Option.isSome_iff_exists.mp
    (readVector_isSome buf (0 + 1 + 32) 4 (by omega))
  obtain ⟨salt, hsalt⟩ := Option.isSome_iff_exists.mp
    (readVector_isSome buf (0 + 1 + 32 + 4) 4 (by omega))
  obtain ⟨size, hsize⟩ := Option.isSome_iff_exists.mp
    (readVector_isSome buf (0 + 1 + 32 + 4 + 4) 4 (by omega))
  simp [parse, htype, hkey, hseq, hsalt, hsize]

/-- A buffer of 45 bytes is the bytes of the header it is parsed as. -/
theorem parse_eq_some_iff {buf : Bytes} (hbuf : buf.length = bytesize) {h : PacketHeader} :
    parse buf 0 = some h ↔ buf = h.bytes := by
  constructor
  · intro hp
    have := bytes_of_parse hp
    rwa [List.drop_eq_nil_of_le (by omega), List.append_nil] at this
  · rintro rfl
    simpa using parse_bytes h []

theorem bytes_injective : Function.Injective bytes := by
  intro h₁ h₂ he
  have h := parse_bytes h₂ []
  rw [← he, parse_bytes h₁ []] at h
  exact Option.some.inj h

end PacketHeader

/-! ## Packets -/

namespace Packet

/-- The bytes of a packet on the wire. -/
def bytes (p : Packet) : Bytes := p.header.bytes ++ p.data.buf

@[simp] theorem length_bytes (p : Packet) :
    p.bytes.length = PacketHeader.bytesize + p.data.buf.length := by
  simp [bytes]

@[simp] theorem sized_data (p : Packet) : p.sized.data = p.data := rfl

theorem sized_datasize {p : Packet} (h : p.data.buf.length < 2 ^ 32) :
    p.sized.header.datasize.toNat = p.data.buf.length := by
  change (BitVec.ofNat 32 p.data.buf.length).toNat = _
  rw [BitVec.toNat_ofNat, Nat.mod_eq_of_lt h]

theorem sized_allocSize {p : Packet} (h : PacketHeader.bytesize + p.data.buf.length < 2 ^ 32) :
    p.sized.allocSize = PacketHeader.bytesize + p.data.buf.length := by
  unfold allocSize
  rw [BitVec.toNat_add, sized_datasize (by omega)]
  change (PacketHeader.bytesize % 2 ^ 32 + _) % 2 ^ 32 = _
  rw [Nat.mod_eq_of_lt (a := PacketHeader.bytesize) (by decide), Nat.mod_eq_of_lt h]

/-- While the size of the packet fits into 32 bits, `serialize` fills a buffer of exactly
this size with the header and the data. -/
theorem serialize_eq {p : Packet} (h : PacketHeader.bytesize + p.data.buf.length < 2 ^ 32) :
    p.serialize = some (p.sized, p.sized.bytes) := by
  have hheader := PacketHeader.dump_eq p.sized.header (List.replicate p.sized.allocSize 0)
    (by rw [List.length_replicate, sized_allocSize h]; omega)
  have hdata := writeAt_append PacketHeader.bytesize p.sized.header.bytes
    ((List.replicate p.sized.allocSize 0).drop PacketHeader.bytesize) p.data.buf (by simp)
    (by rw [List.length_drop, List.length_replicate, sized_allocSize h]; omega)
  have hfull : (List.replicate p.sized.allocSize (0 : UnitT)).drop
      (PacketHeader.bytesize + p.data.buf.length) = [] := by
    rw [← sized_allocSize h]
    exact List.drop_eq_nil_of_le (by simp)
  rw [List.drop_drop, hfull, List.append_nil] at hdata
  simp only [serialize, PacketData.dump, hheader, hdata, sized_data, Option.bind_eq_bind,
    Option.bind_some, Option.pure_def, bytes]

/-- From 2^32 bytes on the sum of the sizes wraps around and `serialize` writes behind the
end of its buffer. -/
theorem serialize_eq_none {p : Packet} (h : 2 ^ 32 ≤ PacketHeader.bytesize + p.data.buf.length) :
    p.serialize = none := by
  rw [Option.eq_none_iff_forall_not_mem]
  rintro ⟨q, out⟩ hs
  simp only [serialize, PacketData.dump, Option.mem_def, Option.bind_eq_bind,
    Option.bind_eq_some_iff, Option.pure_def, Option.some.injEq, Prod.mk.injEq,
    Prod.exists] at hs
  obtain ⟨r, pos, hheader, _, _, ⟨r', hdata, -⟩, -⟩ := hs
  obtain ⟨hlen, rfl⟩ := PacketHeader.length_of_dump hheader
  have hroom := (length_of_writeAt hdata).2
  have halloc : p.sized.allocSize < 2 ^ 32 := BitVec.isLt _
  rw [hlen, List.length_replicate, sized_data] at hroom
  omega

theorem serialize_isSome_iff (p : Packet) :
    p.serialize.isSome ↔ PacketHeader.bytesize + p.data.buf.length < 2 ^ 32 := by
  constructor
  · intro hs
    by_contra hlarge
    rw [serialize_eq_none (by omega)] at hs
    cases hs
  · intro h
    rw [serialize_eq h]
    rfl

/-- The size of the packet fits into 32 bits, so that it can be serialized. -/
def Fits (p : Packet) : Prop := PacketHeader.bytesize + p.data.buf.length < 2 ^ 32

theorem serialize_some {p q : Packet} {out : Bytes} (h : p.serialize = some (q, out)) :
    PacketHeader.bytesize + p.data.buf.length < 2 ^ 32 ∧ q = p.sized ∧ out = p.sized.bytes := by
  have hsize := (serialize_isSome_iff p).mp (by rw [h]; rfl)
  rw [serialize_eq hsize] at h
  cases h
  exact ⟨hsize, rfl, rfl⟩

/-- The vector of `serialize` has the size of the header and the data, and all that is written
lies inside it, exactly while this size fits into 32 bits. -/
theorem allocSize_serialize_iff (p : Packet) :
    (p.sized.allocSize = PacketHeader.bytesize + p.data.buf.length ∧ p.serialize.isSome) ↔
      PacketHeader.bytesize + p.data.buf.length < 2 ^ 32 := by
  constructor
  · intro h
    exact (serialize_isSome_iff p).mp h.2
  · intro h
    exact ⟨sized_allocSize h, (serialize_isSome_iff p).mpr h⟩

/-- A put of `2 ^ 32 - 45` bytes, which `datasize` can carry. -/
def largePut : Packet where
  header := {
    type := .put, key := List.Vector.replicate 32 7, datasize := BitVec.ofNat (8 * 4) (2 ^ 32 - 45)
    sequence := List.Vector.replicate 4 1, randomSalt := List.Vector.replicate 4 1 }
  data := ⟨List.replicate (2 ^ 32 - 45) 0⟩

theorem length_largePut : largePut.data.buf.length = 2 ^ 32 - 45 := List.length_replicate

/-- Its size is 0 in 32 bits, so `serialize` writes behind a vector without a byte. -/
theorem allocSize_largePut : largePut.sized.allocSize = 0 := by
  rw [allocSize, sized, length_largePut]
  rfl

theorem largePut_overruns : ¬ ∀ p : Packet, p.data.buf.length < 2 ^ 32 →
    p.sized.allocSize = PacketHeader.bytesize + p.data.buf.length ∧ p.serialize.isSome := by
  intro hall
  have hlt : largePut.data.buf.length < 2 ^ 32 := by
    rw [length_largePut]
    decide
  obtain ⟨hsize, -⟩ := hall largePut hlt
  rw [allocSize_largePut, PacketHeader.bytesize] at hsize
  omega

end Packet

end CppSerializer.Pack
