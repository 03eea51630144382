import IpSpace.Block.Subnets

/-!
# Around a block

The block around a block, and the ones just before and after it. All keep its host mask. A prefix shorter than the
block's may give a neighbour that overlaps it, and at the ends of the address space the neighbour is the block around
the end.
-/
namespace IpSpace.Block

variable {f : Family}

/-- The block of `prefixLength` bits around this one. Models `Block.supernet`. -/
def supernet (b : Block f) (prefixLength : Nat) : Attempt (Block f) :=
  if b.prefixLength < prefixLength then throw .badMaskLength else b.moved b.base prefixLength

/-- The block of `prefixLength` bits that holds the address just past this one. Models `Block.next_net`. -/
def nextBlock (b : Block f) (prefixLength : Nat) : Attempt (Block f) :=
  b.moved (b.broadcast.next?.getD b.broadcast) prefixLength

/-- The block of `prefixLength` bits that holds the address just before this one. Models `Block.previous_net`. -/
def previousBlock (b : Block f) (prefixLength : Nat) : Attempt (Block f) :=
  b.moved (b.base.previous?.getD b.base) prefixLength

/-- The block at a position of the listing by `prefixLength`. Models `Block.subnet` and then `Subnets.nth`. -/
def subnetAt (b : Block f) (prefixLength index : Nat) : Attempt (Option (Block f)) := do
  let subnets ← b.subnets prefixLength
  return (← subnets.nth index).1

end IpSpace.Block
