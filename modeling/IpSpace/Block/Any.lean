import IpSpace.Block.Build

/-!
# Blocks of either family

A block together with its family. Every IPv4 block comes before every IPv6 one, and no block holds anything of the other
family.
-/
namespace IpSpace

/-- A block and its family. Models `Net`. -/
structure AnyBlock where
  family : Family
  block : Block family
deriving DecidableEq

namespace AnyBlock

instance : Ord AnyBlock where
  compare
    | ⟨.v4, b⟩, ⟨.v4, c⟩ => compare b c
    | ⟨.v6, b⟩, ⟨.v6, c⟩ => compare b c
    | b, c => compare b.family c.family

/-- The lowest address of the block. Models `Net.network_address`. -/
def base (b : AnyBlock) : AnyAddress := ⟨b.family, b.block.base⟩

/-- The highest address under the prefix; the host mask plays no part. Models `Net.broadcast_address`. -/
def broadcast (b : AnyBlock) : AnyAddress := ⟨b.family, b.block.broadcast⟩

/-- The address is in the block. Models `Net.contains`. -/
def Contains : AnyBlock → AnyAddress → Prop
  | ⟨.v4, b⟩, ⟨.v4, a⟩ => b.Contains a
  | ⟨.v6, b⟩, ⟨.v6, a⟩ => b.Contains a
  | _, _ => False

instance : (b : AnyBlock) → (a : AnyAddress) → Decidable (b.Contains a)
  | ⟨.v4, b⟩, ⟨.v4, a⟩ => inferInstanceAs (Decidable (b.Contains a))
  | ⟨.v6, b⟩, ⟨.v6, a⟩ => inferInstanceAs (Decidable (b.Contains a))
  | ⟨.v4, _⟩, ⟨.v6, _⟩ => isFalse id
  | ⟨.v6, _⟩, ⟨.v4, _⟩ => isFalse id

/-- The other block lies inside this one. Models `Net.contains_net`. -/
def Encloses : AnyBlock → AnyBlock → Prop
  | ⟨.v4, b⟩, ⟨.v4, c⟩ => b.Encloses c
  | ⟨.v6, b⟩, ⟨.v6, c⟩ => b.Encloses c
  | _, _ => False

instance : (b c : AnyBlock) → Decidable (b.Encloses c)
  | ⟨.v4, b⟩, ⟨.v4, c⟩ => inferInstanceAs (Decidable (b.Encloses c))
  | ⟨.v6, b⟩, ⟨.v6, c⟩ => inferInstanceAs (Decidable (b.Encloses c))
  | ⟨.v4, _⟩, ⟨.v6, _⟩ => isFalse id
  | ⟨.v6, _⟩, ⟨.v4, _⟩ => isFalse id

end AnyBlock

end IpSpace
