import IpSpace.Block.Basic
import IpSpace.HostMask.Step

/-!
# Walking a block

`next` and `previous` lead from an address to its neighbour among the addresses that the block controls. Landing on a
reserved end succeeds and is marked; `Step.usable` turns the mark into an error.
-/
namespace IpSpace

/-- Why an address is reserved. Models `Reserved`. -/
inductive Reserved where
  | network
  | broadcast
deriving DecidableEq

/-- An address that a step led to. Models `Step`. -/
structure Step (f : Family) where
  address : Address f
  reserved : Option Reserved
deriving DecidableEq

/-- The address, unless it is reserved. Models `Step.into_usable`. -/
def Step.usable {f : Family} (s : Step f) : Except Error (Address f) :=
  match s.reserved with
  | none => .ok s.address
  | some .network => .error .networkAddress
  | some .broadcast => .error .broadcastAddress

namespace Block

variable {f : Family}

/-- The end of a step to `target`, which is marked with `mark` if it is the reserved end `limit`. Models how
`Block.next_address` and `Block.previous_address` end. -/
def land (b : Block f) (target : Except Error (Address f)) (limit : Address f) (mark : Reserved) :
    Except Error (Step f) :=
  match target with
  | .error _ => .error .addressAtEndOfRange
  | .ok a =>
    if b.Contains a then .ok ⟨a, if b.ReservesEnds ∧ a = limit then some mark else none⟩
    else .error .addressAtEndOfRange

/-- The step to the controlled address after `a`. Models `Block.next_address`. -/
def next (b : Block f) (a : Address f) : Except Error (Step f) :=
  if b.Controls a then b.land (b.hostMask.next a) b.broadcast .broadcast else .error .addressOutOfRange

/-- The step to the controlled address before `a`. Models `Block.previous_address`. -/
def previous (b : Block f) (a : Address f) : Except Error (Step f) :=
  if b.Controls a then b.land (b.hostMask.previous a) b.base .network else .error .addressOutOfRange

end Block

end IpSpace
