import IpSpace.Event

/-!
# Building blocks

Every block is made by `ofMask`, from an address, a prefix length and a host mask. It fails if the prefix is too long for
the family or the host mask does not fit it, and tells only the latter.
-/
namespace IpSpace.Block

variable {f : Family}

/-- The block of `prefixLength` bits around `address`, with a host mask. Models `Net4.new` and `Net6.new` from where the
host mask is built. -/
def ofMask (address : Address f) (prefixLength : Nat) (mask : HostMask f) : Attempt (Block f) :=
  if hl : prefixLength ≤ f.bits then
    if hm : mask.Fits prefixLength then
      pure
        { base := address.clearAfter prefixLength
          prefixLength
          hostMask := mask
          prefixLength_le := hl
          base_aligned := address.clearAfter_clearAfter prefixLength
          hostMask_fits := hm }
    else do
      Logged.tell (.rejected prefixLength mask.length)
      throw .badMaskLength
  else throw .badMaskLength

/-- The block of `prefixLength` bits around `address`, with a host mask of `maskLength` bits. Models `Net4.new`, where
`maskLength` is zero, and `Net6.new`. -/
def of (address : Address f) (prefixLength maskLength : Nat) : Attempt (Block f) := do
  ofMask address prefixLength (← Attempt.ofExcept (HostMask.of f maskLength))

/-- The block of `prefixLength` bits around `address`, without a host mask. Models `Block.containing`. -/
def containing (address : Address f) (prefixLength : Nat) : Attempt (Block f) :=
  ofMask address prefixLength .empty

/-- The block of `prefixLength` bits around `address`, with the host mask of `b`. Models `Block.new_at`. -/
def moved (b : Block f) (address : Address f) (prefixLength : Nat) : Attempt (Block f) :=
  ofMask address prefixLength b.hostMask

end IpSpace.Block
