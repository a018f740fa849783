import CppSerializer.Library.UnorderedMap
import CppSerializer.Pack.Packet

/-!
# Headers as keys

`packet_header_key_hash` and `packet_header_key_compare`, with which `topics` and `jobmap` find
headers. Both look at the key and the salt only, so headers that compare equal hash equally.
-/

namespace CppSerializer.Pack

namespace PacketHeader

/-- `hash_combine`. `value + 0x9e3779b9` is a sum of 32 bits, the rest has the 64 bits of
`size_t`. -/
def hashCombine (seed : UInt64) (value : UnitT) : UInt64 :=
  seed ^^^ ((value.toUInt32 + 0x9e3779b9).toUInt64 + (seed <<< 6) + (seed >>> 2))

/-- `hash_range`. -/
def hashRange (seed : UInt64) (bytes : Bytes) : UInt64 := bytes.foldl hashCombine seed

/-- `packet_header_key_hash`. -/
def keyHash (k : PacketHeader) : UInt64 :=
  hashRange (hashRange 0x1b873593 k.key.toList) k.randomSalt.toList

/-- The hash and the comparison of the maps. -/
def keyTraits : KeyTraits PacketHeader UInt64 := ⟨keyHash, keyCompare⟩

theorem keyCompare_iff {h₁ h₂ : PacketHeader} :
    keyCompare h₁ h₂ = true ↔ h₁.topic = h₂.topic := by
  rw [keyCompare, beq_iff_eq]

theorem keyHash_eq {h₁ h₂ : PacketHeader} (h : h₁.topic = h₂.topic) :
    h₁.keyHash = h₂.keyHash := by
  obtain ⟨hkey, hsalt⟩ := Prod.mk.inj h
  rw [keyHash, keyHash, hkey, hsalt]

theorem keyTraits_lawful : keyTraits.Lawful where
  refl _ := keyCompare_iff.mpr rfl
  symm _ _ h := keyCompare_iff.mpr (keyCompare_iff.mp h).symm
  trans _ _ _ h h' := keyCompare_iff.mpr ((keyCompare_iff.mp h).trans (keyCompare_iff.mp h'))
  hash _ _ h := keyHash_eq (keyCompare_iff.mp h)

end PacketHeader

end CppSerializer.Pack
