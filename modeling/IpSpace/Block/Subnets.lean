import IpSpace.Block.Build

/-!
# Consecutive blocks

`Subnets` lists the blocks of one prefix length that follow each other up to a last address. It is lazy: a block is told
when it is yielded, and its follower is built just before.
-/
namespace IpSpace

/-- A listing of blocks. Models `Subnets`. -/
structure Subnets (f : Family) where
  /-- The block to yield next. -/
  next : Option (Block f)
  /-- The address at which the listing ends. -/
  last : Address f

namespace Block

variable {f : Family}

/-- The block of the same kind that begins just past this one, unless this one reaches `last`. Models the part of
`Subnets.next` that looks ahead. -/
def follower (b : Block f) (last : Address f) : Logged (Option (Block f)) :=
  if b.broadcast < last then
    match b.broadcast.next? with
    | none => pure none
    | some address => Except.toOption <$> (b.moved address b.prefixLength).run
  else pure none

/-- The blocks of `prefixLength` bits that make up this one. Models `Block.subnet`. -/
def subnets (b : Block f) (prefixLength : Nat) : Attempt (Subnets f) :=
  if prefixLength < b.prefixLength then throw .badMaskLength
  else do
    let first ← b.moved b.base prefixLength
    pure ⟨some first, b.broadcast⟩

end Block

namespace Subnets

variable {f : Family}

/-- Yields the next block. Models `Subnets.next`. -/
def pop (s : Subnets f) : Logged (Option (Block f) × Subnets f) :=
  match s.next with
  | none => pure (none, s)
  | some current => do
    let next ← current.follower s.last
    Logged.tell (.subnet current)
    pure (some current, { s with next })

/-- Yields up to `n` blocks. Models `Subnets.take`. -/
def take : Nat → Subnets f → Logged (List (Block f) × Subnets f)
  | 0, s => pure ([], s)
  | n + 1, s => do
    match ← s.pop with
    | (none, s) => pure ([], s)
    | (some current, s) => (fun (blocks, s) => (current :: blocks, s)) <$> take n s

/-- Passes over `n` blocks and yields the one after them. Models `Subnets.nth`. -/
def nth : Nat → Subnets f → Logged (Option (Block f) × Subnets f)
  | 0, s => s.pop
  | n + 1, s => do
    match ← s.pop with
    | (none, s) => pure (none, s)
    | (some _, s) => nth n s

end Subnets

end IpSpace
