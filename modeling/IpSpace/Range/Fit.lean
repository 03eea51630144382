import IpSpace.Block.Any

/-!
# The block that starts a range

A range is given by its first and last address, both included. `fit` looks for the largest block that starts the range
and does not go past it, from the shortest prefix on, and tells every block it looks at. The whole address space is
never one block: the search begins at a prefix of one bit.
-/
namespace IpSpace.Range

variable {f : Family}

/-- The block around `first` with the first of the prefix lengths for which it lies in the range. Models the loop of
`fit`. -/
def search (first last : Address f) : List Nat → Attempt (Block f)
  | [] => throw .noValidRange
  | prefixLength :: longer => do
    let candidate ← Block.containing first prefixLength
    Logged.tell (.trying candidate first last)
    if first ≤ candidate.base ∧ candidate.broadcast ≤ last then pure candidate else search first last longer

/-- A block found for a range. Models the result of `fit`. -/
structure Fitted (f : Family) where
  block : Block f
  /-- The block is the whole range. -/
  exact : Bool
deriving DecidableEq

/-- The largest block that starts the range. Models `fit`. -/
def fit (first last : Address f) : Attempt (Fitted f) :=
  if last < first then throw .noValidRange
  else do
    let block ← search first last (List.range' 1 f.bits)
    pure ⟨block, block.base = first ∧ block.broadcast = last⟩

/-- The largest block that starts the range between two addresses of either family. Models `find_between`. -/
def findBetween (first last : AnyAddress) : Attempt (AnyBlock × Bool) :=
  match first.pair? last with
  | some ⟨f, first, last⟩ => do
    let fitted ← fit first last
    pure (⟨f, fitted.block⟩, fitted.exact)
  | none => throw .noValidRange

end IpSpace.Range
