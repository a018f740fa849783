import CppSerializer.Library.ByteString

/-!
# Packets

The data model of `serializer.hpp`: message types, packet headers and packets, with the
functions that write them into a buffer and read them back. The machine is
little-endian, as every platform of `profiles/` is.

A pointer into a buffer is the buffer with an offset. `memcpy` out of the bounds of a
buffer is undefined; here the function that does it has no result.
-/

namespace CppSerializer.Pack

open ByteString

/-- `unit_t`. -/
abbrev UnitT := UInt8

/-- The contents of a buffer or of a stream. -/
abbrev Bytes := List UnitT

/-- `key_t`. -/
abbrev KeyT := List.Vector UnitT 32

/-! ## Message types -/

/-- The bytes that have a name in `msg_t`. -/
def msgValues : List UnitT := [0, 1, 2, 4, 8, 9, 10, 11, 16]

/-- `msg_t`. Its underlying type is fixed, so every byte is a value of it, whether an
enumerator names it or not. -/
inductive MsgT
  | err
  | put
  | get
  | ack
  | workerReg
  | workerDereg
  | workerPushRequest
  | workerResponse
  | trigger
  | unnamed (b : {b : UnitT // b ∉ msgValues})
  deriving DecidableEq

namespace MsgT

def toByte : MsgT → UnitT
  | err => 0
  | put => 1
  | get => 2
  | ack => 4
  | workerReg => 8
  | workerDereg => 9
  | workerPushRequest => 10
  | workerResponse => 11
  | trigger => 16
  | unnamed b => b.val

def ofByte (b : UnitT) : MsgT :=
  if hb : b ∉ msgValues then unnamed ⟨b, hb⟩
  else if b = 0 then err
  else if b = 1 then put
  else if b = 2 then get
  else if b = 4 then ack
  else if b = 8 then workerReg
  else if b = 9 then workerDereg
  else if b = 10 then workerPushRequest
  else if b = 11 then workerResponse
  else trigger

@[simp] theorem ofByte_toByte (t : MsgT) : ofByte t.toByte = t := by
  cases t with
  | unnamed b => exact dif_pos b.property
  | _ => rfl

@[simp] theorem toByte_ofByte (b : UnitT) : (ofByte b).toByte = b := by
  unfold ofByte
  split
  · rfl
  · rename_i hb
    simp only [msgValues, List.mem_cons, List.not_mem_nil, or_false, not_not] at hb
    rcases hb with rfl | rfl | rfl | rfl | rfl | rfl | rfl | rfl | rfl <;> rfl

/-- The value is one of the nine enumerators. -/
def IsEnumerator : MsgT → Prop
  | unnamed _ => False
  | _ => True

end MsgT

/-! ## Byte order -/

/-- `hton`: the branch is picked by `sizeof(Integer)`. The last one is the branch of the
`static_assert`, whose argument is a string and therefore true. -/
def hton {n : Nat} (i : UIntN n) : UIntN n :=
  if n = 4 then swapBytes i
  else if n = 2 then swapBytes i
  else if n = 1 then i
  else -1

/-- `ntoh`, with the same branches. -/
def ntoh {n : Nat} (i : UIntN n) : UIntN n :=
  if n = 4 then swapBytes i
  else if n = 2 then swapBytes i
  else if n = 1 then i
  else -1

/-! ## Headers -/

/-- `packet_header`. -/
structure PacketHeader where
  type : MsgT
  key : KeyT
  datasize : UIntN 4
  sequence : List.Vector UnitT 4
  randomSalt : List.Vector UnitT 4
  deriving DecidableEq

namespace PacketHeader

/-- `bytesize`: the sizes of `datasize`, `type`, `key`, `sequence` and `random_salt`. -/
def bytesize : Nat := 4 + 1 + 32 + 4 + 4

/-- `parse`. -/
def parse (buf : Bytes) (pos : Nat) : Option PacketHeader := do
  let type ← readVector buf pos 1
  let pos := pos + 1
  let key ← readVector buf pos 32
  let pos := pos + 32
  let sequence ← readVector buf pos 4
  let pos := pos + 4
  let randomSalt ← readVector buf pos 4
  let pos := pos + 4
  let datasize ← readVector buf pos 4
  return {
    type := MsgT.ofByte type.head
    key := key
    datasize := ntoh (ofMemory 4 datasize.toList)
    sequence := sequence
    randomSalt := randomSalt }

/-- `dump`: the buffer written to, and the position behind the last byte. -/
def dump (h : PacketHeader) (buf : Bytes) (pos : Nat) : Option (Bytes × Nat) := do
  let buf ← writeAt buf pos [h.type.toByte]
  let pos := pos + 1
  let buf ← writeAt buf pos h.key.toList
  let pos := pos + 32
  let buf ← writeAt buf pos h.sequence.toList
  let pos := pos + 4
  let buf ← writeAt buf pos h.randomSalt.toList
  let pos := pos + 4
  let datasizeCopy := hton h.datasize
  let buf ← writeAt buf pos (memory datasizeCopy)
  return (buf, pos + 4)

/-- The bytes that `gen_random_salt` and `gen_sequence` can draw, which are not 0. -/
def Drawable (v : List.Vector UnitT 4) : Prop := ∀ b ∈ v.toList, b ≠ 0

instance (v : List.Vector UnitT 4) : Decidable (Drawable v) :=
  inferInstanceAs (Decidable (∀ b ∈ v.toList, b ≠ 0))

/-- `gen`, with the bytes that it draws. -/
def gen (h : PacketHeader) (randomSalt sequence : List.Vector UnitT 4) : PacketHeader :=
  { h with randomSalt := randomSalt, sequence := sequence }

/-- `is_trigger`. -/
def isTrigger (h : PacketHeader) : Bool := h.randomSalt.last == 0

/-- What `packet_header_key_compare` compares. -/
def topic (h : PacketHeader) : KeyT × List.Vector UnitT 4 := (h.key, h.randomSalt)

/-- `packet_header_key_compare`. -/
def keyCompare (h₁ h₂ : PacketHeader) : Bool := h₁.topic == h₂.topic

end PacketHeader

/-! ## Packets -/

/-- `packet_data`. -/
structure PacketData where
  buf : Bytes
  deriving DecidableEq

namespace PacketData

/-- `parse`. -/
def parse (size : UIntN 4) (src : Bytes) (pos : Nat) : Option PacketData :=
  (readAt src pos size.toNat).map PacketData.mk

/-- `dump`. -/
def dump (d : PacketData) (buf : Bytes) (pos : Nat) : Option (Bytes × Nat) := do
  let buf ← writeAt buf pos d.buf
  return (buf, pos + d.buf.length)

end PacketData

/-- `packet`. -/
structure Packet where
  header : PacketHeader
  data : PacketData
  deriving DecidableEq

namespace Packet

/-- The packet that `serialize` leaves behind: `datasize` is the size of the data,
converted to 32 bits. -/
def sized (p : Packet) : Packet :=
  { p with header := { p.header with datasize := BitVec.ofNat (8 * 4) p.data.buf.length } }

/-- The size of the vector that `serialize` allocates, a sum of 32-bit integers. -/
def allocSize (p : Packet) : Nat :=
  (BitVec.ofNat (8 * 4) PacketHeader.bytesize + p.header.datasize).toNat

/-- `serialize`: the packet afterwards and the buffer, when no byte is written outside
the buffer. -/
def serialize (p : Packet) : Option (Packet × Bytes) := do
  let p := p.sized
  let r := List.replicate p.allocSize 0
  let (r, pos) ← p.header.dump r 0
  let (r, _) ← p.data.dump r pos
  return (p, r)

end Packet

end CppSerializer.Pack
