import Mathlib.Data.Vector.Basic

/-!
# Byte strings

Bounds-checked access to a buffer by offset, and the little-endian representation of
fixed-width integers.

`readAt` and `writeAt` copy a block out of and into a buffer; an access that leaves the
buffer is `none`. A buffer that is written from its start, each block behind the one
before it, is described by `writeAt_append`.
-/

namespace ByteString

/-! ## Access by offset -/

/-- Copy `n` bytes starting at `pos` out of the buffer. -/
def readAt (buf : List UInt8) (pos n : Nat) : Option (List UInt8) :=
  if pos + n ≤ buf.length then some ((buf.drop pos).take n) else none

/-- Copy `src` over the buffer starting at `pos`. -/
def writeAt (buf : List UInt8) (pos : Nat) (src : List UInt8) : Option (List UInt8) :=
  if pos + src.length ≤ buf.length then
    some (buf.take pos ++ src ++ buf.drop (pos + src.length))
  else none

/-- Reading a block back from the place where it stands. -/
theorem readAt_of_eq {buf block : List UInt8} {pos n : Nat} (front back : List UInt8)
    (hbuf : buf = front ++ (block ++ back)) (hpos : front.length = pos)
    (hn : block.length = n) : readAt buf pos n = some block := by
  subst hbuf hpos hn
  unfold readAt
  rw [if_pos (by simp), List.drop_left, List.take_left]

theorem readAt_some {buf block : List UInt8} {pos n : Nat} (h : readAt buf pos n = some block) :
    block.length = n := by
  unfold readAt at h
  split at h
  · cases h
    simp only [List.length_take, List.length_drop]
    omega
  · cases h

theorem readAt_isSome (buf : List UInt8) (pos n : Nat) (h : pos + n ≤ buf.length) :
    (readAt buf pos n).isSome := by
  unfold readAt
  rw [if_pos h]
  rfl

/-- A block that was read stands in the buffer where it was read. -/
theorem drop_eq_of_readAt {buf block : List UInt8} {pos n : Nat}
    (h : readAt buf pos n = some block) : buf.drop pos = block ++ buf.drop (pos + n) := by
  unfold readAt at h
  split at h
  · cases h
    rw [← List.drop_drop, List.take_append_drop]
  · cases h

/-- `readAt` into an array of `n` bytes. -/
def readVector (buf : List UInt8) (pos n : Nat) : Option (List.Vector UInt8 n) :=
  if h : pos + n ≤ buf.length then
    some ⟨(buf.drop pos).take n, by simp only [List.length_take, List.length_drop]; omega⟩
  else none

theorem readVector_eq_some {buf : List UInt8} {pos n : Nat} {v : List.Vector UInt8 n} :
    readVector buf pos n = some v ↔ readAt buf pos n = some v.toList := by
  unfold readVector readAt
  split
  · constructor
    · intro he
      cases he
      rfl
    · intro he
      exact congrArg some (List.Vector.eq _ v (Option.some.inj he))
  · exact ⟨fun he => (by cases he), fun he => (by cases he)⟩

theorem readVector_isSome (buf : List UInt8) (pos n : Nat) (h : pos + n ≤ buf.length) :
    (readVector buf pos n).isSome := by
  obtain ⟨block, hb⟩ := Option.isSome_iff_exists.mp (readAt_isSome buf pos n h)
  exact Option.isSome_iff_exists.mpr ⟨⟨block, readAt_some hb⟩, readVector_eq_some.mpr hb⟩

theorem writeAt_append (pos : Nat) (done rest src : List UInt8) (hpos : done.length = pos)
    (h : src.length ≤ rest.length) :
    writeAt (done ++ rest) pos src = some (done ++ src ++ rest.drop src.length) := by
  subst hpos
  unfold writeAt
  rw [if_pos (by simpa using h), List.take_left, List.drop_length_add_append]

theorem length_of_writeAt {buf src out : List UInt8} {pos : Nat}
    (h : writeAt buf pos src = some out) :
    out.length = buf.length ∧ pos + src.length ≤ buf.length := by
  unfold writeAt at h
  split at h
  · cases h
    simp only [List.length_append, List.length_take, List.length_drop]
    omega
  · cases h

/-! ## Little-endian integers -/

/-- The `n` low bytes of `x`, the lowest first. -/
def leBytes : Nat → Nat → List UInt8
  | 0, _ => []
  | n + 1, x => UInt8.ofNat x :: leBytes n (x / 256)

/-- The number whose bytes, the lowest first, are given. -/
def leValue : List UInt8 → Nat
  | [] => 0
  | b :: bs => b.toNat + 256 * leValue bs

@[simp] theorem length_leBytes (n x : Nat) : (leBytes n x).length = n := by
  induction n generalizing x with
  | zero => rfl
  | succ n ih => simp [leBytes, ih]

theorem leValue_leBytes (n x : Nat) : leValue (leBytes n x) = x % 256 ^ n := by
  induction n generalizing x with
  | zero => simp [leBytes, leValue, Nat.mod_one]
  | succ n ih =>
    rw [leBytes, leValue, ih, UInt8.toNat_ofNat', Nat.pow_succ 256 n, Nat.mul_comm (256 ^ n),
      Nat.mod_mul]

theorem leValue_lt (bs : List UInt8) : leValue bs < 256 ^ bs.length := by
  induction bs with
  | nil => simp [leValue]
  | cons b bs ih =>
    have hb : b.toNat < 256 := b.toNat_lt
    rw [leValue, List.length_cons, Nat.pow_succ]
    omega

theorem leBytes_leValue (bs : List UInt8) : leBytes bs.length (leValue bs) = bs := by
  induction bs with
  | nil => rfl
  | cons b bs ih =>
    have hb : b.toNat < 256 := b.toNat_lt
    have hlow : UInt8.ofNat (b.toNat + 256 * leValue bs) = b := by
      apply UInt8.toNat_inj.mp
      rw [UInt8.toNat_ofNat']
      omega
    have hhigh : (b.toNat + 256 * leValue bs) / 256 = leValue bs := by omega
    rw [List.length_cons, leValue, leBytes, hlow, hhigh, ih]

/-- Integers whose representation in memory has `n` bytes. -/
abbrev UIntN (n : Nat) := BitVec (8 * n)

theorem two_pow_eight_mul (n : Nat) : 2 ^ (8 * n) = 256 ^ n := by
  rw [Nat.pow_mul]

/-- The bytes of an integer in memory, on a little-endian machine. -/
def memory {n : Nat} (x : UIntN n) : List UInt8 := leBytes n x.toNat

/-- The integer with the given bytes in memory, on a little-endian machine. -/
def ofMemory (n : Nat) (bs : List UInt8) : UIntN n := BitVec.ofNat (8 * n) (leValue bs)

@[simp] theorem length_memory {n : Nat} (x : UIntN n) : (memory x).length = n :=
  length_leBytes n _

@[simp] theorem ofMemory_memory {n : Nat} (x : UIntN n) : ofMemory n (memory x) = x := by
  apply BitVec.eq_of_toNat_eq
  rw [ofMemory, memory, leValue_leBytes, BitVec.toNat_ofNat, two_pow_eight_mul, Nat.mod_mod,
    ← two_pow_eight_mul, Nat.mod_eq_of_lt x.isLt]

theorem memory_ofMemory {n : Nat} {bs : List UInt8} (h : bs.length = n) :
    memory (ofMemory n bs) = bs := by
  subst h
  have hlt : leValue bs < 2 ^ (8 * bs.length) := two_pow_eight_mul bs.length ▸ leValue_lt bs
  rw [memory, ofMemory, BitVec.toNat_ofNat, Nat.mod_eq_of_lt hlt, leBytes_leValue]

/-- The integer with the bytes of `x` in memory in the opposite order. -/
def swapBytes {n : Nat} (x : UIntN n) : UIntN n := ofMemory n (memory x).reverse

theorem memory_swapBytes {n : Nat} (x : UIntN n) : memory (swapBytes x) = (memory x).reverse :=
  memory_ofMemory (by simp)

@[simp] theorem swapBytes_swapBytes {n : Nat} (x : UIntN n) : swapBytes (swapBytes x) = x := by
  rw [swapBytes, memory_swapBytes, List.reverse_reverse, ofMemory_memory]

end ByteString
