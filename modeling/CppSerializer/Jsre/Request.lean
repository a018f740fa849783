import CppSerializer.Pack.Layout

/-!
# Binary file requests

`json-replacement.hpp`: the struct that clients copy into the payload of a trigger packet,
and the parser that reads its members by their offsets. The layout is that of a 64-bit
platform, where `std::size_t` has eight bytes and is aligned to eight; the bytes of
padding before `position` may have any value.

`to_network_format` converts `position` and `size` with `hton`, which has no branch for
eight bytes and returns `-1`; and `type()` and `operation()` call `ntoh` with a scoped
enumeration, for which it cannot be instantiated. So no request survives
(`never_survives`).
-/

namespace CppSerializer.Jsre

open ByteString Pack

/-! ## Members -/

/-- `type_t`. -/
inductive TypeT
  | file
  | metadata
  | wakeup
  | storagetest
  | unnamed (i : {i : UIntN 1 // i ∉ [(0 : UIntN 1), 1, 2, 3]})
  deriving DecidableEq

namespace TypeT

def toInteger : TypeT → UIntN 1
  | file => 0
  | metadata => 1
  | wakeup => 2
  | storagetest => 3
  | unnamed i => i.val

def ofInteger (i : UIntN 1) : TypeT :=
  if hi : i ∉ [(0 : UIntN 1), 1, 2, 3] then unnamed ⟨i, hi⟩
  else if i = 0 then file
  else if i = 1 then metadata
  else if i = 2 then wakeup
  else storagetest

end TypeT

/-- `operation_t`. -/
inductive OperationT
  | write
  | read
  | unnamed (i : {i : UIntN 1 // i ∉ [(0 : UIntN 1), 1]})
  deriving DecidableEq

namespace OperationT

def toInteger : OperationT → UIntN 1
  | write => 0
  | read => 1
  | unnamed i => i.val

def ofInteger (i : UIntN 1) : OperationT :=
  if hi : i ∉ [(0 : UIntN 1), 1] then unnamed ⟨i, hi⟩
  else if i = 0 then write
  else read

end OperationT

/-- `request`. -/
structure Request where
  type : TypeT
  operation : OperationT
  uuid : KeyT
  position : UIntN 8
  size : UIntN 8
  deriving DecidableEq

/-! ## The struct in memory -/

/-- The next multiple of `a`. -/
def alignUp (n a : Nat) : Nat := (n + a - 1) / a * a

def offsetofType : Nat := 0
def offsetofOperation : Nat := offsetofType + 1
def offsetofUuid : Nat := offsetofOperation + 1
def offsetofPosition : Nat := alignUp (offsetofUuid + 32) 8
def offsetofSize : Nat := offsetofPosition + 8
def sizeofRequest : Nat := alignUp (offsetofSize + 8) 8

/-- The bytes between `uuid` and `position`. -/
abbrev Padding := List.Vector UnitT (offsetofPosition - (offsetofUuid + 32))

namespace Request

/-- `to_network_format`. -/
def toNetworkFormat (r : Request) : Request :=
  { r with position := hton r.position, size := hton r.size }

/-- The bytes of the struct. -/
def bytes (r : Request) (padding : Padding) : Bytes :=
  memory r.type.toInteger ++ (memory r.operation.toInteger ++ (r.uuid.toList ++
    (padding.toList ++ (memory r.position ++ memory r.size))))

/-- The payload a client builds: the converted struct, copied, and the data behind it. -/
def toPayload (r : Request) (padding : Padding) (payload : Bytes) : Bytes :=
  r.toNetworkFormat.bytes padding ++ payload

theorem length_bytes (r : Request) (padding : Padding) :
    (r.bytes padding).length = sizeofRequest := by
  simp only [bytes, List.length_append, length_memory, List.Vector.toList_length]
  rfl

end Request

/-! ## The parser -/

/-- `ntoh` of a scoped enumeration. The condition of its first branch contains `ntohl(i)`, and a
scoped enumeration does not convert to the `uint32_t` that `ntohl` takes. So the template cannot be
instantiated, and a function that calls it does not compile when it is used: it has no result. -/
def ntohScoped {Enum : Type} (_ : Enum) : Option Enum := none

namespace RequestParser

/-- `type()`, which has no result: `type_t` is a scoped enumeration. -/
def type (refdata : Bytes) : Option TypeT :=
  (readAt refdata offsetofType 1).bind fun t => ntohScoped (TypeT.ofInteger (ofMemory 1 t))

/-- `operation()`, which has no result: `operation_t` is a scoped enumeration. -/
def operation (refdata : Bytes) : Option OperationT :=
  (readAt refdata offsetofOperation 1).bind fun op =>
    ntohScoped (OperationT.ofInteger (ofMemory 1 op))

/-- `uuid()`. -/
def uuid (refdata : Bytes) : Option KeyT := readVector refdata offsetofUuid 32

/-- `position()`. -/
def position (refdata : Bytes) : Option (UIntN 8) :=
  (readAt refdata offsetofPosition 8).map fun pos => ntoh (ofMemory 8 pos)

/-- `size()`. -/
def size (refdata : Bytes) : Option (UIntN 8) :=
  (readAt refdata offsetofSize 8).map fun s => ntoh (ofMemory 8 s)

/-- `data()`, where `isConst` says whether `CharType` is const. If it is not, `refdata`, a
`CharType const *`, does not convert to the `CharType*` that is returned, and there is no result. -/
def data (isConst : Bool) (refdata : Bytes) : Option Bytes :=
  if isConst then some (refdata.drop sizeofRequest) else none

theorem type_eq_none (refdata : Bytes) : type refdata = none :=
  Option.bind_eq_none_iff.mpr fun _ _ => rfl

theorem operation_eq_none (refdata : Bytes) : operation refdata = none :=
  Option.bind_eq_none_iff.mpr fun _ _ => rfl

variable (r : Request) (padding : Padding) (payload : Bytes)

theorem toPayload_eq : r.toPayload padding payload =
    memory r.type.toInteger ++ (memory r.operation.toInteger ++ (r.uuid.toList ++
      (padding.toList ++ (memory (hton r.position) ++ (memory (hton r.size) ++ payload))))) := by
  simp only [Request.toPayload, Request.bytes, Request.toNetworkFormat, List.append_assoc]

theorem uuid_toPayload : uuid (r.toPayload padding payload) = some r.uuid := by
  refine readVector_eq_some.mpr (readAt_of_eq (memory r.type.toInteger ++
    memory r.operation.toInteger) (padding.toList ++ (memory (hton r.position) ++
    (memory (hton r.size) ++ payload))) ?_ rfl r.uuid.toList_length)
  rw [toPayload_eq, List.append_assoc]

/-- The position arrives as `-1`, whatever it was. -/
theorem position_toPayload : position (r.toPayload padding payload) = some (-1) := by
  have hread : readAt (r.toPayload padding payload) offsetofPosition 8 =
      some (memory (hton r.position)) := by
    refine readAt_of_eq (memory r.type.toInteger ++ memory r.operation.toInteger ++
      r.uuid.toList ++ padding.toList) (memory (hton r.size) ++ payload) ?_ ?_ (length_memory _)
    · simp only [toPayload_eq, List.append_assoc]
    · simp only [List.length_append, length_memory, List.Vector.toList_length]
      rfl
  rw [position, hread, Option.map_some, ntoh_eight]

theorem size_toPayload : size (r.toPayload padding payload) = some (-1) := by
  have hread : readAt (r.toPayload padding payload) offsetofSize 8 =
      some (memory (hton r.size)) := by
    refine readAt_of_eq (memory r.type.toInteger ++ memory r.operation.toInteger ++
      r.uuid.toList ++ padding.toList ++ memory (hton r.position)) payload ?_ ?_
      (length_memory _)
    · simp only [toPayload_eq, List.append_assoc]
    · simp only [List.length_append, length_memory, List.Vector.toList_length]
      rfl
  rw [size, hread, Option.map_some, ntoh_eight]

theorem data_toPayload : data true (r.toPayload padding payload) = some payload := by
  rw [data, if_pos rfl, Request.toPayload, List.drop_left' (r.toNetworkFormat.length_bytes padding)]

end RequestParser

/-! ## The round trip -/

/-- The parser returns every member as the client had set it. -/
def Survives (r : Request) (padding : Padding) (payload : Bytes) : Prop :=
  let b := r.toPayload padding payload
  RequestParser.type b = some r.type ∧ RequestParser.operation b = some r.operation ∧
    RequestParser.uuid b = some r.uuid ∧ RequestParser.position b = some r.position ∧
    RequestParser.size b = some r.size

/-- No request survives: its type and its operation cannot be read, and its position and its size
are read as `-1`, whatever they were. Its uuid is read as it was. -/
theorem never_survives (r : Request) (padding : Padding) (payload : Bytes) :
    ¬ Survives r padding payload ∧
      RequestParser.type (r.toPayload padding payload) = none ∧
      RequestParser.operation (r.toPayload padding payload) = none ∧
      RequestParser.uuid (r.toPayload padding payload) = some r.uuid ∧
      RequestParser.position (r.toPayload padding payload) = some (-1) ∧
      RequestParser.size (r.toPayload padding payload) = some (-1) := by
  refine ⟨?_, RequestParser.type_eq_none _, RequestParser.operation_eq_none _,
    RequestParser.uuid_toPayload .., RequestParser.position_toPayload ..,
    RequestParser.size_toPayload ..⟩
  rintro ⟨htype, -⟩
  rw [RequestParser.type_eq_none] at htype
  cases htype

/-- A write of three bytes to the start of a file does not survive. -/
theorem write_not_survives :
    ¬ Survives ⟨.file, .write, List.Vector.replicate 32 7, 0, 3⟩ (List.Vector.replicate 6 0)
      [65, 65, 65] := by
  rintro ⟨-, -, -, hposition, -⟩
  revert hposition
  decide +kernel

end CppSerializer.Jsre
