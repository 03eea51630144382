import IpSpace.Block.Navigation
import IpSpace.Proofs.Machine.Block
import IpSpace.Proofs.Range.Greedy

/-!
# Sub-blocks, neighbours and ranges with checked operations

All of these build blocks around addresses next to one that is given, where the address space goes on, and stop where it
does not. They tell nothing here: what an operation tells takes no arithmetic.
-/
namespace IpSpace

variable {f : Family}

namespace Machine

/-! ## Around a block -/

/-- The block of `prefixLength` bits around this one. Models `Block.supernet`. -/
def supernet (b : Layout f) (prefixLength : Nat) : Trial (Layout f) :=
  if b.prefixLength < prefixLength then throw .badMaskLength else moved b b.base prefixLength

/-- The block of `prefixLength` bits that holds the address just past this one. Models `Block.next_net`. -/
def nextBlock (b : Layout f) (prefixLength : Nat) : Trial (Layout f) := do
  let limit ← broadcast b
  moved b (limit.next?.getD limit) prefixLength

/-- The block of `prefixLength` bits that holds the address just before this one. Models `Block.previous_net`. -/
def previousBlock (b : Layout f) (prefixLength : Nat) : Trial (Layout f) :=
  moved b (b.base.previous?.getD b.base) prefixLength

theorem supernet_eq (b : Block f) (n : Nat) :
    (supernet b.layout n).run = .ok ((b.supernet n).outcome.map Block.layout) := by
  rw [supernet, Block.supernet, Block.layout_prefixLength]
  split
  · rfl
  · exact moved_eq b b.base n

theorem nextBlock_eq (b : Block f) (n : Nat) :
    (nextBlock b.layout n).run = .ok ((b.nextBlock n).outcome.map Block.layout) := by
  rw [nextBlock, broadcast_eq, Trial.lift_ok_bind]
  exact moved_eq b _ n

theorem previousBlock_eq (b : Block f) (n : Nat) :
    (previousBlock b.layout n).run = .ok ((b.previousBlock n).outcome.map Block.layout) := moved_eq b _ n

/-! ## Consecutive blocks -/

/-- What a listing of sub-blocks is kept as. Models `Subnets`. -/
structure Row (f : Family) where
  next : Option (Layout f)
  last : Address f
deriving DecidableEq

/-- The block that begins just past this one, unless this one reaches `last`. Models the part of `Subnets.next` that
looks ahead. -/
def follower (b : Layout f) (last : Address f) : Checked (Option (Layout f)) := do
  let limit ← broadcast b
  if limit < last then
    match limit.next? with
    | none => return none
    | some a => return (← (moved b a b.prefixLength).run).toOption
  else return none

/-- The blocks of `prefixLength` bits that make up this one. Models `Block.subnet`. -/
def subnets (b : Layout f) (prefixLength : Nat) : Trial (Row f) := do
  if prefixLength < b.prefixLength then throw .badMaskLength
  else
    let first ← moved b b.base prefixLength
    return ⟨some first, ← broadcast b⟩

/-- Yields the next block. Models `Subnets.next`. -/
def popBlock (r : Row f) : Checked (Option (Layout f) × Row f) := do
  match r.next with
  | none => return (none, r)
  | some current => return (some current, { r with next := ← follower current r.last })

end Machine

def Subnets.row (s : Subnets f) : Machine.Row f := ⟨s.next.map Block.layout, s.last⟩

namespace Machine

theorem toOption_map {α β : Type} (g : α → β) (x : Except Error α) : (x.map g).toOption = x.toOption.map g := by
  cases x <;> rfl

theorem follower_eq (b : Block f) (last : Address f) :
    follower b.layout last = .ok ((b.follower last).value.map Block.layout) := by
  rw [follower, broadcast_eq, Checked.ok_bind, Block.follower]
  split
  · cases hn : b.broadcast.next? with
    | none => rfl
    | some a =>
      simp only [Block.layout_prefixLength, moved_eq, Checked.ok_bind, toOption_map]
      rfl
  · rfl

theorem subnets_eq (b : Block f) (n : Nat) :
    (subnets b.layout n).run = .ok ((b.subnets n).outcome.map Subnets.row) := by
  rw [subnets, Block.subnets, Block.layout_prefixLength]
  split
  · rfl
  · rw [Attempt.outcome_bind]
    refine Trial.run_bind_map (moved_eq b b.base n) fun first => ?_
    rw [broadcast_eq]; rfl

theorem popBlock_eq (s : Subnets f) :
    popBlock s.row = .ok (s.pop.value.1.map Block.layout, s.pop.value.2.row) := by
  obtain ⟨next, last⟩ := s
  cases next with
  | none => rfl
  | some current =>
    show (do return (some current.layout, (⟨← follower current.layout last, last⟩ : Row f)) : Checked _) = _
    rw [follower_eq]
    rfl

end Machine

/-! ## Ranges -/

namespace Machine

/-- The block around `first` with the first of the prefix lengths for which it lies in the range, and whether it is the
whole range. Models the loop of `fit`. -/
def search (first last : Address f) : List Nat → Trial (Layout f × Bool)
  | [] => throw .noValidRange
  | prefixLength :: longer => do
    let candidate ← containing first prefixLength
    let limit ← broadcast candidate
    if first ≤ candidate.base ∧ limit ≤ last then return (candidate, candidate.base = first ∧ limit = last)
    else search first last longer

/-- The largest block that starts the range. Models `fit`. -/
def fit (first last : Address f) : Trial (Layout f × Bool) :=
  if last < first then throw .noValidRange else search first last (List.range' 1 f.bits)

/-- The blocks that make up the range from `start` on. Models the loop of `cover`. -/
def cover (start last : Address f) : Trial (List (Layout f)) := do
  let (block, _) ← fit start last
  let limit ← broadcast block
  if last ≤ limit then return [block]
  else match limit.next? with
    | none => return [block]
    | some next =>
      if _h : start < next then
        let blocks ← cover next last
        return block :: blocks
      else return [block]
termination_by 2 ^ f.bits - start.toNat
decreasing_by
  have := Address.lt_iff_toNat_lt.1 ‹start < next›
  have := next.toNat_lt
  omega

theorem search_eq (first last : Address f) (lengths : List Nat) :
    (search first last lengths).run = .ok ((Range.search first last lengths).outcome.map fun b =>
      (b.layout, decide (b.base = first ∧ b.broadcast = last))) := by
  induction lengths with
  | nil => rfl
  | cons n longer ih =>
    rw [search, Range.search, Attempt.outcome_bind]
    refine Trial.run_bind_map (containing_eq first n) fun b => ?_
    rw [broadcast_eq, Trial.lift_ok_bind, Block.layout_base, Attempt.outcome_bind_ok (Attempt.outcome_lift _)]
    split
    · rfl
    · exact ih

theorem fit_eq (first last : Address f) :
    (fit first last).run = .ok ((Range.fit first last).outcome.map fun r => (r.block.layout, r.exact)) := by
  unfold fit Range.fit
  split
  · rfl
  · rw [search_eq, Attempt.outcome_bind]
    cases (Range.search first last (List.range' 1 f.bits)).outcome <;> rfl

/-- A greedy cover is made of the blocks that the search finds. -/
theorem cover_greedy {start last : Address f} {blocks : List (Block f)} (h : Range.Greedy last start blocks) :
    (cover start last).run = .ok (.ok (blocks.map Block.layout)) := by
  have hfit {start : Address f} {b : Block f} (hb : Range.LargestFit start last b) :
      (fit start last).run = .ok (.ok (b.layout, decide (b.broadcast = last))) := by
    rw [fit_eq, Range.fit_outcome_of_largest hb]; rfl
  induction h with
  | @done start b hb hl =>
    rw [cover, Trial.run_bind_ok (hfit hb)]
    simp [broadcast_eq, hl]
  | @more start next b rest hb hn hrest ih =>
    have hnext := Address.lt_of_next? hn
    have hgo : ¬ last ≤ b.broadcast := (lt_of_lt_of_le hnext hrest.tiling.first_le_last).not_ge
    have hstart : start < next := lt_of_le_of_lt (hb.base ▸ b.base_le_broadcast) hnext
    rw [cover, Trial.run_bind_ok (hfit hb)]
    simp only [broadcast_eq, Trial.lift_ok_bind, if_neg hgo, hn, dif_pos hstart]
    exact Trial.run_bind_ok ih _

theorem cover_eq (first last : Address f) :
    (cover first last).run = .ok ((Range.cover first last).outcome.map (List.map Block.layout)) := by
  rcases le_or_gt first last with hle | hgt
  · obtain ⟨blocks, hout, hgreedy⟩ := Range.cover_outcome hle
    rw [hout]; exact cover_greedy hgreedy
  · have hfit : (fit first last).run = .ok (.error .noValidRange) := by
      rw [fit_eq, Range.fit_outcome_of_lt hgt]; rfl
    rw [cover, Trial.run_bind_error hfit, Range.cover_outcome_of_lt hgt]; rfl

/-! ## Ranges of either family -/

/-- The largest block that starts the range between two addresses of either family, and whether it is the whole range.
Models `find_between`. -/
def findBetween (first last : AnyAddress) : Trial (AnyLayout × Bool) :=
  match first.pair? last with
  | some ⟨f, first, last⟩ => do
    let (block, exact) ← fit first last
    return (⟨f, block⟩, exact)
  | none => throw .noValidRange

/-- The blocks that make up the range between two addresses of either family. Models `cover_range`. -/
def coverRange (first last : AnyAddress) : Trial (List AnyLayout) :=
  match first.pair? last with
  | some ⟨f, first, last⟩ => do
    let blocks ← cover first last
    return blocks.map (⟨f, ·⟩)
  | none => throw .noValidRange

theorem findBetween_eq (first last : AnyAddress) :
    (findBetween first last).run =
      .ok ((Range.findBetween first last).outcome.map fun found => (found.1.layout, found.2)) := by
  unfold findBetween Range.findBetween
  cases first.pair? last with
  | none => rfl
  | some pair =>
    simp only [Attempt.outcome_bind]
    exact Trial.run_bind_map (fit_eq pair.first pair.last) fun fitted => rfl

theorem coverRange_eq (first last : AnyAddress) :
    (coverRange first last).run =
      .ok ((Range.coverRange first last).outcome.map (List.map AnyBlock.layout)) := by
  unfold coverRange Range.coverRange
  cases first.pair? last with
  | none => rfl
  | some pair =>
    simp only [Attempt.outcome_bind]
    refine Trial.run_bind_map (cover_eq pair.first pair.last) fun blocks => ?_
    show Except.ok (Except.ok _) = Except.ok (Except.ok _)
    rw [List.map_map, List.map_map]; rfl

end Machine

end IpSpace
