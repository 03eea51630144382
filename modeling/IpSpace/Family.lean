import IpSpace.Bytes.Word

/-!
# The two address families

IPv4 and IPv6 differ in three data: how wide an address is, how long a host mask a block may carry, and (in
`IpSpace.Block.Basic`) whether the ends of a block are reserved. Everything else is stated once, for a family `f`.

The address library that is modelled has names of its own. *Models* at the end of a docstring gives the name of the
operation or type that the definition stands for, with the type that an operation belongs to in front of it:
`HostMask.increment` is `increment` of a `HostMask`, and `Block.supernet` is `supernet` of the blocks of either family.
-/
namespace IpSpace

/-- IPv4 or IPv6. -/
inductive Family where
  | v4
  | v6
deriving DecidableEq

namespace Family

/-- The number in the family's name. Models `Address.version` and `Net.version`. -/
def version : Family → Nat
  | .v4 => 4
  | .v6 => 6

/-- The width of an address in bytes. Models `V4_BYTES` and `V6_BYTES`. -/
def bytes : Family → Nat
  | .v4 => 4
  | .v6 => 16

/-- The width of an address in bits. Models `AddressBuffer.BITS`. -/
def bits (f : Family) : Nat := 8 * f.bytes

/-- The longest host mask of the family. Only IPv6 has host masks; IPv4 has the empty one. Models the bound in
`HostMask.new`. -/
def longestHostMask : Family → Nat
  | .v4 => 0
  | .v6 => bits .v6

theorem bytes_pos (f : Family) : 0 < f.bytes := by cases f <;> decide

theorem longestHostMask_le_bits (f : Family) : f.longestHostMask ≤ f.bits := by cases f <;> decide

theorem two_pow_bits (f : Family) : 2 ^ f.bits = 256 ^ f.bytes := by
  rw [bits, Nat.pow_mul]

instance : Ord Family := ⟨fun f g => compare f.version g.version⟩

end Family

end IpSpace
