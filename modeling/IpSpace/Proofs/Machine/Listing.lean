import IpSpace.Block.Walk
import IpSpace.Proofs.Block.Cursor
import IpSpace.Proofs.Machine.Block

/-!
# Walking and listing with checked operations

Steps and listings of IPv4 blocks use the plain neighbours of an address, those of IPv6 blocks go under the mask. A
listing is kept as its fields (`Cursor`). Its length is counted down before an address is yielded, and the size hint of
IPv4 narrows the length without looking at the next address, which is sound because of where a listing can come from
(`Listing.Reachable`).
-/
namespace IpSpace

variable {f : Family}

/-! ## Steps without a mask -/

namespace HostMask

variable {m : HostMask f} (h : m.boundary? = none) (a : Address f)

include h

theorem toOption_add (count : Nat) : (m.add a count).toOption = a.add? count := by
  rw [add, h]
  cases a.add? count <;> rfl

theorem toOption_next : (m.next a).toOption = a.next? := by
  rw [next_eq (permits_of_boundary?_none h a), rank_of_none h, capacity_of_none h, place_of_none h, Address.next?,
    Address.add?]
  split <;> rfl

theorem toOption_previous : (m.previous a).toOption = a.previous? := by
  rw [previous_eq (permits_of_boundary?_none h a), rank_of_none h, place_of_none h, Address.previous?, Address.sub?]
  rcases Nat.lt_or_ge 0 a.toNat with hpos | hzero
  · rw [if_pos hpos, if_pos (show 1 ≤ a.toNat from hpos)]; rfl
  · rw [if_neg (Nat.not_lt.2 hzero), if_neg (show ¬ 1 ≤ a.toNat from Nat.not_lt.2 hzero)]; rfl

end HostMask

namespace Machine

/-! ## Walking -/

/-- The end of a step: `target`, if there is one and the block contains it, with the mark it gets. -/
def land (b : Layout f) (target : Option (Address f)) (mark : Address f → Checked (Option Reserved)) : Trial (Step f) := do
  match target with
  | none => throw .addressAtEndOfRange
  | some a => if ← contains b a then return ⟨a, ← mark a⟩ else throw .addressAtEndOfRange

/-- The mark of an address in an IPv4 block: the reserved end `limit` gets `reserved`. -/
def markAt (b : Layout .v4) (limit : Checked (Address .v4)) (reserved : Reserved) (a : Address .v4) :
    Checked (Option Reserved) := do
  if ← reservesEnds b then return if a = (← limit) then some reserved else none else return none

/-- The end of a step in an IPv6 block, which has no reserved ends. -/
def landUnder (d : Direction) (b : Layout .v6) (a : Address .v6) : Trial (Step .v6) := do
  let target ← (step d b.mask a).outcome
  land b target.toOption fun _ => return none

/-- The step to the controlled address after `a`. Models `Block.next_address`. -/
def next : {f : Family} → Layout f → Address f → Trial (Step f)
  | .v4, b, a => do
    if ← controls b a then land b a.next? (markAt b (broadcast b) .broadcast) else throw .addressOutOfRange
  | .v6, b, a => do if ← controls b a then landUnder .up b a else throw .addressOutOfRange

/-- The step to the controlled address before `a`. Models `Block.previous_address`. -/
def previous : {f : Family} → Layout f → Address f → Trial (Step f)
  | .v4, b, a => do
    if ← controls b a then land b a.previous? (markAt b (pure b.base) .network) else throw .addressOutOfRange
  | .v6, b, a => do if ← controls b a then landUnder .down b a else throw .addressOutOfRange

theorem land_eq (b : Block f) (target : Except Error (Address f)) {mark : Address f → Checked (Option Reserved)}
    {limit : Address f} {reserved : Reserved}
    (h : ∀ c, mark c = .ok (if b.ReservesEnds ∧ c = limit then some reserved else none)) :
    (land b.layout target.toOption mark).run = .ok (b.land target limit reserved) := by
  cases target with
  | error e => rfl
  | ok c =>
    simp only [land, Block.land, Except.toOption, contains_eq, Trial.lift_ok_bind, h]
    by_cases hc : b.Contains c <;> simp [hc]

theorem markAt_eq (b : Block .v4) {limit : Checked (Address .v4)} {a : Address .v4} (h : limit = .ok a)
    (reserved : Reserved) (c : Address .v4) :
    markAt b.layout limit reserved c = .ok (if b.ReservesEnds ∧ c = a then some reserved else none) := by
  rw [markAt, reservesEnds_eq, Checked.ok_bind, h]
  by_cases hends : b.ReservesEnds <;> simp [hends]

theorem landUnder_eq (d : Direction) (b : Block .v6) (a limit : Address .v6) (reserved : Reserved) :
    (landUnder d b.layout a).run = .ok (b.land (b.hostMask.step d a) limit reserved) := by
  rw [landUnder, Block.layout_mask, Trial.outcome_bind (step_eq d b.hostMask a)]
  exact land_eq b _ fun c => by rw [if_neg fun h => by cases h.1.1]; rfl

theorem next_eq (b : Block f) (a : Address f) : (next b.layout a).run = .ok (b.next a) := by
  cases f with
  | v4 =>
    have hland := land_eq b (b.hostMask.next a) (markAt_eq b (broadcast_eq b) .broadcast)
    rw [HostMask.toOption_next (HostMask.boundary?_eq_none_iff.2 b.hostMask.length_v4)] at hland
    rw [next, controls_eq, Trial.lift_ok_bind]
    exact Trial.run_guard hland _
  | v6 =>
    rw [next, controls_eq, Trial.lift_ok_bind]
    exact Trial.run_guard (landUnder_eq .up b a _ _) _

theorem previous_eq (b : Block f) (a : Address f) : (previous b.layout a).run = .ok (b.previous a) := by
  cases f with
  | v4 =>
    have hland := land_eq b (b.hostMask.previous a) (markAt_eq b (Checked.pure_eq b.base) .network)
    rw [HostMask.toOption_previous (HostMask.boundary?_eq_none_iff.2 b.hostMask.length_v4)] at hland
    rw [previous, controls_eq, Trial.lift_ok_bind]
    exact Trial.run_guard hland _
  | v6 =>
    rw [previous, controls_eq, Trial.lift_ok_bind]
    exact Trial.run_guard (landUnder_eq .down b a _ _) _

end Machine

/-! ## Listing -/

namespace Machine

/-- What a listing is kept as. Models `Addresses4` and `Addresses6`. -/
structure Cursor (f : Family) where
  mask : List UInt8
  next : Option (Address f)
  remaining : Nat
deriving DecidableEq

/-- How many addresses a listing of `size` addresses from `offset` on has. Models `enumeration_length`. -/
def listingLength (count offset size : Nat) : Checked Nat := do
  if count ≤ offset then return 0
  else
    let available ← Checked.sub count offset
    if size = 0 ∨ available < size then return available else return size

/-- Lists `size` addresses in use from position `offset` on, or all from there on if `size` is zero. Models
`Block.enumerate`. -/
def list : {f : Family} → Layout f → Nat → Nat → Checked (Cursor f)
  | .v4, b, offset, size => do
    let remaining ← listingLength (← count b) offset size
    let start ← first b
    return ⟨b.mask, (start.add? offset).filter fun _ => 0 < remaining, remaining⟩
  | .v6, b, offset, size => do
    let remaining ← listingLength (← count b) offset size
    let start ← (jumpUp b.mask b.base offset).run
    return ⟨b.mask, start.toOption.filter fun _ => 0 < remaining, remaining⟩

/-- The address after `a` in a listing, if there is one. -/
def following : {f : Family} → List UInt8 → Address f → Checked (Option (Address f))
  | .v4, _, a => return a.next?
  | .v6, mask, a => do return (← (step .up mask a).run).toOption

/-- Yields the next address. Models `Addresses4.next` and `Addresses6.next`. -/
def pop (l : Cursor f) : Checked (Option (Address f) × Cursor f) := do
  if l.remaining = 0 then return (none, l)
  else match l.next with
    | none => return (none, l)
    | some a =>
      let remaining ← Checked.sub l.remaining 1
      return (some a, { l with next := ← following l.mask a, remaining })

/-- Bounds on how many addresses are left. Models `Addresses4.size_hint` and `Addresses6.size_hint`. -/
def sizeHint : {f : Family} → Cursor f → Checked (Nat × Option Nat)
  | .v4, l => do
    let remaining ← Checked.narrow 64 l.remaining
    return (remaining, some remaining)
  | .v6, l =>
    if l.next.isNone then return (0, some 0)
    else if l.remaining ≤ Listing.longestHint then return (l.remaining, some l.remaining)
    else return (Listing.longestHint, none)

end Machine

namespace Listing

def cursor (l : Listing f) : Machine.Cursor f := ⟨l.hostMask.octets, l.next, l.remaining⟩

/-- The listings that come from listing a block and yielding addresses. -/
inductive Reachable : Listing f → Prop
  | list (b : Block f) (offset size : Nat) : Reachable (b.list offset size)
  | pop {l : Listing f} : Reachable l → Reachable l.pop.2

theorem Left.pop {l : Listing f} {rest : List (Address f)} (h : Left l rest) : Left l.pop.2 rest.tail := by
  cases rest with
  | nil => rw [h.pop_nil]; exact h
  | cons a rest =>
    obtain ⟨next, hpop, hnext⟩ := h.pop_cons
    rw [hpop]; exact hnext

/-- A listing that can be reached counts right what it has left, and IPv4 never has more than a size hint can tell. -/
theorem Reachable.left {l : Listing f} (h : l.Reachable) :
    ∃ rest, l.Left rest ∧ (f = .v4 → rest.length ≤ longestHint) := by
  induction h with
  | list b offset size =>
    refine ⟨_, b.list_left offset size, fun hf => ?_⟩
    subst hf
    rw [List.length_map, List.length_range']
    exact b.listingLength_le_longestHint offset size
  | pop _ ih =>
    obtain ⟨rest, hleft, hshort⟩ := ih
    exact ⟨_, hleft.pop, fun hf => Nat.le_trans (by rw [List.length_tail]; exact Nat.sub_le _ _) (hshort hf)⟩

end Listing

namespace Machine

theorem listingLength_eq (count offset size : Nat) :
    listingLength count offset size = .ok (Block.listingLength count offset size) := by
  unfold listingLength Block.listingLength
  split
  · rename_i hpast
    rw [Nat.sub_eq_zero_of_le hpast, Nat.min_zero, ite_self]; rfl
  · rename_i hin
    rw [Checked.sub_ok (Nat.le_of_lt (Nat.not_le.1 hin)), Checked.ok_bind]
    by_cases hzero : size = 0
    · rw [if_pos (.inl hzero), if_pos hzero]; rfl
    · rw [if_neg hzero]
      split
      · rw [Nat.min_eq_right (by omega)]; rfl
      · rw [Nat.min_eq_left (by omega)]; rfl

/-- A listing begins with an address if it has any. -/
theorem filter_const {α : Type} (o : Option α) (p : Prop) [Decidable p] :
    (o.filter fun _ => decide p) = if p then o else none := by
  by_cases hp : p <;> cases o <;> simp [hp]

theorem list_eq (b : Block f) (offset size : Nat) : list b.layout offset size = .ok (b.list offset size).cursor := by
  cases f with
  | v4 =>
    have hadd := HostMask.toOption_add (HostMask.boundary?_eq_none_iff.2 b.hostMask.length_v4) b.first offset
    rw [list, count_eq, Checked.ok_bind, listingLength_eq, Checked.ok_bind, first_eq, Checked.ok_bind, filter_const,
      ← hadd]
    rfl
  | v6 =>
    have hfirst : b.first = b.base := if_neg fun h => by cases h.1
    rw [list, count_eq, Checked.ok_bind, listingLength_eq, Checked.ok_bind, Block.layout_mask, Block.layout_base,
      jumpUp_eq, Checked.ok_bind, filter_const, ← hfirst]
    rfl

theorem following_eq (m : HostMask f) (a : Address f) : following m.octets a = .ok (m.next a).toOption := by
  cases f with
  | v4 => rw [HostMask.toOption_next (HostMask.boundary?_eq_none_iff.2 m.length_v4)]; rfl
  | v6 => rw [following, step_eq, Checked.ok_bind]; rfl

theorem pop_eq (l : Listing f) : pop l.cursor = .ok (l.pop.1, l.pop.2.cursor) := by
  unfold pop Listing.pop Listing.cursor
  split
  · rfl
  · rename_i hleft
    cases hnext : l.next with
    | none => simp [hnext]
    | some a => simp [Checked.sub_ok (Nat.pos_of_ne_zero hleft), following_eq]

theorem sizeHint_eq {l : Listing f} (h : l.Reachable) : sizeHint l.cursor = .ok l.sizeHint := by
  obtain ⟨rest, hleft, hshort⟩ := h.left
  cases f with
  | v4 =>
    have hle := hshort rfl
    have hword : Listing.longestHint < 2 ^ 64 := by decide
    have hcount : l.cursor.remaining = rest.length := hleft.remaining
    rw [sizeHint, hcount, Checked.narrow_ok (Nat.lt_of_le_of_lt hle hword), hleft.sizeHint, Listing.hint, if_pos hle]
    rfl
  | v6 =>
    obtain ⟨m, next, remaining⟩ := l
    cases next with
    | none => rfl
    | some a =>
      show (if remaining ≤ Listing.longestHint then _ else _) = _
      by_cases hle : remaining ≤ Listing.longestHint
      · simp [Listing.sizeHint, Listing.cursor, hle]
      · simp [Listing.sizeHint, hle, Nat.min_eq_right (Nat.le_of_not_le hle)]

end Machine

end IpSpace
