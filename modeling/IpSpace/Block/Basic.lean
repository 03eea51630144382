import IpSpace.Address.Text
import IpSpace.HostMask.Jump

/-!
# Blocks

A block is the set of addresses that share their first `prefixLength` bits with its base; an IPv6 block may carry a
host mask, and then it *controls* only the addresses that the mask permits.

An IPv4 block with more than one free bit reserves its two ends, the network and the broadcast address; shorter ones
(RFC 3021) and IPv6 blocks reserve nothing. `first`, `last` and `count` describe the addresses in use.
-/
namespace IpSpace

/-- A host mask goes with a prefix of `prefixLength` bits: the two leave free bits between them, the prefix does not
reach into a byte that is masked in part, and the mask does not begin in the first byte. Models the check of the host
mask in `Net6.new`. -/
def HostMask.Fits {f : Family} (m : HostMask f) (prefixLength : Nat) : Prop :=
  ∀ b ∈ m.boundary?,
    prefixLength + m.length < f.bits ∧ (b.value = 0xff ∨ prefixLength ≤ 8 * b.index) ∧ b.index.val ≠ 0

instance {f : Family} (m : HostMask f) (prefixLength : Nat) : Decidable (m.Fits prefixLength) :=
  inferInstanceAs (Decidable (∀ b ∈ m.boundary?, _))

/-- A base, a prefix length and a host mask that go together. Models `Net4`, which has no host mask, and `Net6`; the
fields are their `Block.network_address`, `Block.prefix_len` and `Net6.hostmask`. -/
@[ext] structure Block (f : Family) where
  /-- The lowest address of the block. -/
  base : Address f
  prefixLength : Nat
  hostMask : HostMask f
  prefixLength_le : prefixLength ≤ f.bits
  base_aligned : base.clearAfter prefixLength = base
  hostMask_fits : hostMask.Fits prefixLength
deriving DecidableEq

namespace Block

variable {f : Family}

/-- Blocks are ordered by base, then prefix, then host mask, so a block comes before those inside it. -/
instance : Ord (Block f) where
  compare b c :=
    (compare b.base c.base).then <|
      (compare b.prefixLength c.prefixLength).then (compare b.hostMask c.hostMask)

/-! ## Bounds -/

/-- The highest address under the prefix; the host mask plays no part. Models `Block.broadcast_address`. -/
def broadcast (b : Block f) : Address f := b.base.setAfter b.prefixLength

/-- The address whose first `prefixLength` bits are set. Models `Net4.netmask` and `Net6.netmask`. -/
def netmask (b : Block f) : Address f := Address.ones.clearAfter b.prefixLength

/-- The address whose first `prefixLength` bits are clear and all others set. Models `Net4.wildcard`. -/
def wildcard (b : Block f) : Address f := Address.zero.setAfter b.prefixLength

/-- The number of bits that neither the prefix nor the host mask takes. Models `Net4.host_bits` and `Net6.free_bits`. -/
def freeBits (b : Block f) : Nat := f.bits - b.prefixLength - b.hostMask.length

/-- The two ends of the block are not in use. Models `Net4.has_reserved`. -/
def ReservesEnds (b : Block f) : Prop := f = .v4 ∧ 1 < b.freeBits

instance (b : Block f) : Decidable b.ReservesEnds := inferInstanceAs (Decidable (_ ∧ _))

/-- The first address in use. Models `Block.first_address`. -/
def first (b : Block f) : Address f :=
  if b.ReservesEnds then b.base.next?.getD b.base else b.base

/-- The last address in use: under a host mask the one whose free bits are all set. Models `Block.last_address`. -/
def last (b : Block f) : Address f :=
  if b.ReservesEnds then b.broadcast.previous?.getD b.broadcast
  else match b.hostMask.boundary? with
    | none => b.broadcast
    | some m => Address.startingWith (b.broadcast.octets.take m.index ++ [m.max])

/-- The number of addresses in use, or the largest number of `f.bits` bits if that is less: it is for `::/0`. Models
`Block.count`. -/
def count (b : Block f) : Nat :=
  min (2 ^ b.freeBits - if b.ReservesEnds then 2 else 0) (2 ^ f.bits - 1)

/-! ## Membership -/

/-- The address has the prefix of the block. Models `Block.contains`. -/
def Contains (b : Block f) (a : Address f) : Prop := a.clearAfter b.prefixLength = b.base

instance (b : Block f) (a : Address f) : Decidable (b.Contains a) :=
  inferInstanceAs (Decidable (_ = _))

/-- The address is in the block and leaves the bits of the host mask clear. Models `Net6.controls`. -/
def Controls (b : Block f) (a : Address f) : Prop := b.Contains a ∧ b.hostMask.Permits a

instance (b : Block f) (a : Address f) : Decidable (b.Controls a) :=
  inferInstanceAs (Decidable (_ ∧ _))

/-- The other block lies inside this one; host masks play no part. Models `Block.contains_net`. -/
def Encloses (b c : Block f) : Prop := b.prefixLength ≤ c.prefixLength ∧ b.Contains c.base

instance (b c : Block f) : Decidable (b.Encloses c) := inferInstanceAs (Decidable (_ ∧ _))

/-! ## Text -/

/-- The base and the prefix length, as in `192.0.2.0/24`. Models `Net4.fmt` and `Net6.fmt`. -/
def text (b : Block f) : String := b.base.text ++ "/" ++ toString b.prefixLength

end Block

end IpSpace
