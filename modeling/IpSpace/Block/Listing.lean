import IpSpace.Block.Basic
import IpSpace.HostMask.Step

/-!
# Listing a block

A `Listing` goes through addresses in use, from an offset and for a number of addresses. It is a state: each call takes
addresses off its front.
-/
namespace IpSpace

/-- A listing of addresses. Models `Addresses4` and `Addresses6`. -/
structure Listing (f : Family) where
  /-- What the steps between addresses leave clear. -/
  hostMask : HostMask f
  /-- The address to yield next. -/
  next : Option (Address f)
  /-- How many addresses are left. -/
  remaining : Nat
deriving DecidableEq

namespace Listing

variable {f : Family}

/-- Yields the next address. Models `Addresses4.next` and `Addresses6.next`. -/
def pop (l : Listing f) : Option (Address f) × Listing f :=
  if l.remaining = 0 then (none, l)
  else match l.next with
    | none => (none, l)
    | some a => (some a, { l with next := (l.hostMask.next a).toOption, remaining := l.remaining - 1 })

/-- Passes over `n` addresses and yields the one after them. Models `Addresses4.nth` and `Addresses6.nth`. -/
def nth : Nat → Listing f → Option (Address f) × Listing f
  | 0, l => l.pop
  | n + 1, l =>
    match l.pop with
    | (none, l) => (none, l)
    | (some _, l) => nth n l

/-- Puts up to `n` addresses in front of `taken`, the latest first. -/
def takeOnto (taken : List (Address f)) : Nat → Listing f → List (Address f) × Listing f
  | 0, l => (taken, l)
  | n + 1, l =>
    match l.pop with
    | (none, l) => (taken, l)
    | (some a, l) => takeOnto (a :: taken) n l

/-- Yields up to `n` addresses. Models `Addresses4.take` and `Addresses6.take`. -/
def take (n : Nat) (l : Listing f) : List (Address f) × Listing f :=
  let (taken, l) := takeOnto [] n l
  (taken.reverse, l)

/-- All that is left to yield. Models `Addresses4.collect` and `Addresses6.collect`. -/
def toList (l : Listing f) : List (Address f) := (l.take l.remaining).1

/-- The largest length that a size hint can tell. -/
def longestHint : Nat := 0xffffffffffffffff

/-- Bounds on how many addresses are left: both are exact, but a length above `longestHint` has no upper one. Models
`Addresses4.size_hint` and `Addresses6.size_hint`. -/
def sizeHint (l : Listing f) : Nat × Option Nat :=
  let left := if l.next.isNone then 0 else l.remaining
  (min left longestHint, if left ≤ longestHint then some left else none)

end Listing

namespace Block

variable {f : Family}

/-- How many addresses a listing of `size` addresses from `offset` on has: all from there on if `size` is zero. Models
`enumeration_length`. -/
def listingLength (count offset size : Nat) : Nat :=
  if size = 0 then count - offset else min size (count - offset)

/-- Lists `size` addresses in use from position `offset` on, or all from there on if `size` is zero. Models
`Block.enumerate`. -/
def list (b : Block f) (offset size : Nat) : Listing f :=
  let remaining := listingLength b.count offset size
  { hostMask := b.hostMask
    next := if 0 < remaining then (b.hostMask.add b.first offset).toOption else none
    remaining }

end Block

end IpSpace
