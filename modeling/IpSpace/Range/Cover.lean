import IpSpace.Range.Fit

/-!
# Covering a range

`cover` splits a range into consecutive blocks: it takes the largest block that starts the range and goes on just past
it.
-/
namespace IpSpace.Range

variable {f : Family}

/-- The blocks from `start` on. Each round starts further up, which bounds their number. Models the loop of `cover`. -/
def coverFrom (start last : Address f) : Attempt (List (Block f)) := do
  let block := (← fit start last).block
  if last ≤ block.broadcast then pure [block]
  else match block.broadcast.next? with
    | none => pure [block]
    | some next =>
      if _h : start < next then do
        let blocks ← coverFrom next last
        pure (block :: blocks)
      else pure [block]
termination_by 2 ^ f.bits - start.toNat
decreasing_by
  have := Address.lt_iff_toNat_lt.1 ‹start < next›
  have := next.toNat_lt
  omega

/-- The consecutive blocks that make up the range. Models `cover`. -/
def cover (first last : Address f) : Attempt (List (Block f)) := do
  let blocks ← coverFrom first last
  Logged.tell (.covered first last blocks.length)
  pure blocks

/-- The consecutive blocks that make up the range between two addresses of either family. Models `cover_range`. -/
def coverRange (first last : AnyAddress) : Attempt (List AnyBlock) :=
  match first.pair? last with
  | some ⟨f, first, last⟩ => do
    let blocks ← cover first last
    pure (blocks.map (⟨f, ·⟩))
  | none => throw .noValidRange

end IpSpace.Range
