import IpSpace.Block.Navigation
import IpSpace.Proofs.Block.Supernet
import Mathlib.Data.List.ReduceOption

/-!
# What operations on blocks tell

Building a block tells one thing, that a host mask was refused for a prefix that is not too long (`ofMask_events`). All
operations build blocks, so the rest is which of them can meet such a mask.
* A supernet and the follower of a sub-block are built with a mask that fits already, and tell nothing
  (`supernet_events`, `follower_events`).
* A listing tells the blocks that it yields, whatever state it is in (`Subnets.pops_events`): it builds a block ahead, but
  tells it only in its turn.
-/
namespace IpSpace

variable {f : Family}

/-! ## Building -/

namespace Block

/-- The event of a mask of `maskLength` bits that is refused beside a prefix of `p` bits, if it is. -/
def refusal (p : Nat) (m : HostMask f) : List Event := if p ≤ f.bits ∧ ¬ m.Fits p then [.rejected p m.length] else []

theorem ofMask_events (a : Address f) (p : Nat) (m : HostMask f) : (ofMask a p m).events = refusal p m := by
  unfold ofMask refusal
  split
  · split
    · rw [if_neg fun h => h.2 ‹_›]
      rfl
    · rw [if_pos ⟨‹_›, ‹_›⟩]
      rfl
  · rw [if_neg fun h => ‹¬ _› h.1]
    rfl

theorem refusal_of_fits {p : Nat} {m : HostMask f} (h : m.Fits p) : refusal p m = [] := if_neg fun hno => hno.2 h

/-- Only masks of IPv6 that mask something are refused. -/
theorem masked_of_not_fits {p : Nat} {m : HostMask f} (h : ¬ m.Fits p) : f = .v6 ∧ m ≠ .empty := by
  have hempty : m ≠ .empty := fun hm => h (hm ▸ HostMask.empty_fits f p)
  cases f with
  | v4 => exact absurd (HostMask.ext m.length_v4) hempty
  | v6 => exact ⟨rfl, hempty⟩

theorem moved_events (b : Block f) (a : Address f) (p : Nat) : (b.moved a p).events = refusal p b.hostMask :=
  ofMask_events a p b.hostMask

theorem supernet_events (b : Block f) (p : Nat) : (b.supernet p).events = [] := by
  unfold supernet
  split
  · rfl
  · rw [moved_events, refusal_of_fits (b.hostMask_fits.mono (Nat.le_of_not_lt ‹_›))]

theorem subnets_events (b : Block f) (p : Nat) :
    (b.subnets p).events = if b.prefixLength ≤ p then refusal p b.hostMask else [] := by
  unfold subnets
  by_cases hq : b.prefixLength ≤ p
  · rw [if_neg (Nat.not_lt.2 hq), if_pos hq, ← moved_events b b.base p]
    cases hfirst : (b.moved b.base p).outcome with
    | error e => rw [Attempt.events_bind_error hfirst]
    | ok first =>
      rw [Attempt.events_bind_ok hfirst]
      exact List.append_nil _
  · rw [if_pos (Nat.lt_of_not_le hq), if_neg hq]
    rfl

/-- The mask of a block fits the block that follows it, which has the same prefix. -/
theorem follower_events (b : Block f) (last : Address f) : (b.follower last).events = [] := by
  unfold follower
  split
  · split
    · rfl
    · rename_i next _
      exact (b.moved_events next b.prefixLength).trans (refusal_of_fits b.hostMask_fits)
  · rfl

end Block

/-! ## Listing -/

namespace Subnets

/-- Asks `n` times for a block, also when there are no more. -/
def pops : Nat → Subnets f → Logged (List (Option (Block f)) × Subnets f)
  | 0, s => pure ([], s)
  | n + 1, s => do
    let popped ← s.pop
    let rest ← pops n popped.2
    pure (popped.1 :: rest.1, rest.2)

theorem pop_events (s : Subnets f) : s.pop.events = s.pop.value.1.toList.map .subnet := by
  unfold pop
  split
  · rfl
  · rename_i current _
    simp [Block.follower_events, Logged.tell]

theorem pops_events (s : Subnets f) (n : Nat) :
    (s.pops n).events = (s.pops n).value.1.reduceOption.map .subnet := by
  induction n generalizing s with
  | zero => rfl
  | succ n ih =>
    simp only [pops, Logged.events_bind, Logged.value_bind, Logged.events_pure, Logged.value_pure, pop_events, ih]
    cases s.pop.value.1 with
    | none => simp [List.reduceOption_cons_of_none]
    | some b => simp [List.reduceOption_cons_of_some]

/-- Asked `n` times, a listing yields its first `n` blocks. -/
theorem Yields.pops {s : Subnets f} {blocks : List (Block f)} (h : s.Yields blocks) (n : Nat) :
    (s.pops n).value.1.reduceOption = blocks.take n := by
  induction n generalizing s blocks with
  | zero => rfl
  | succ n ih =>
    cases h with
    | nil hpop =>
      have hrest := ih (.nil hpop)
      rw [List.take_nil] at hrest ⊢
      simp only [Subnets.pops, Logged.value_bind, Logged.value_pure, hpop, List.reduceOption_cons_of_none]
      exact hrest
    | cons hpop hrest =>
      have htail := ih hrest
      simp only [Subnets.pops, Logged.value_bind, Logged.value_pure, hpop, List.reduceOption_cons_of_some, htail,
        List.take_succ_cons]

end Subnets

namespace Block

/-- A listing of sub-blocks tells the blocks that it yields, each when it is asked for, and nothing else. Of the operations
that build blocks, a supernet tells nothing, and the others tell a host mask that does not fit the prefix that was asked
for, and are then refused. -/
theorem tells_yielded_and_refused (b : Block f) :
    (∀ p s, (b.subnets p).outcome = .ok s → ∃ blocks, s.Yields blocks ∧ blocks.length = 2 ^ (p - b.prefixLength) ∧
      ∀ n, (s.pops n).value.1.reduceOption = blocks.take n ∧ (s.pops n).events = (blocks.take n).map .subnet ∧
        (s.pops n).events.length = min n (2 ^ (p - b.prefixLength))) ∧
    (∀ p, (b.supernet p).events = []) ∧
    (∀ p, ¬ b.hostMask.Fits p → f = .v6 ∧ b.hostMask ≠ .empty) ∧
    (∀ p a, ∀ built ∈ [b.moved a p, b.nextBlock p, b.previousBlock p],
      built.events = (if p ≤ f.bits ∧ ¬ b.hostMask.Fits p then [.rejected p b.hostMask.length] else []) ∧
      (p ≤ f.bits ∧ ¬ b.hostMask.Fits p → built.outcome = .error .badMaskLength)) ∧
    ∀ p, (b.subnets p).events =
        (if b.prefixLength ≤ p ∧ p ≤ f.bits ∧ ¬ b.hostMask.Fits p then [.rejected p b.hostMask.length] else []) ∧
      (b.prefixLength ≤ p ∧ p ≤ f.bits ∧ ¬ b.hostMask.Fits p → (b.subnets p).outcome = .error .badMaskLength) := by
  refine ⟨fun p s hs => ?_, b.supernet_events, fun p => masked_of_not_fits, fun p a built hbuilt => ?_, fun p => ⟨?_, ?_⟩⟩
  · obtain ⟨hq, hp, blocks, hyields, htiles⟩ := subnets_ok hs
    have hlength := htiles.length_eq hq hp
    refine ⟨blocks, hyields, hlength, fun n => ?_⟩
    have hevents := s.pops_events n
    rw [hyields.pops n] at hevents
    refine ⟨hyields.pops n, hevents, ?_⟩
    rw [hevents, List.length_map, List.length_take, hlength]
  · have hmoved : ∃ target, built = b.moved target p := by
      simp only [List.mem_cons, List.not_mem_nil, or_false] at hbuilt
      rcases hbuilt with rfl | rfl | rfl
      · exact ⟨_, rfl⟩
      · exact ⟨_, rfl⟩
      · exact ⟨_, rfl⟩
    obtain ⟨target, rfl⟩ := hmoved
    exact ⟨b.moved_events target p, fun h => ofMask_refused target fun hfits => h.2 hfits.2⟩
  · rw [subnets_events, refusal, ← ite_and]
  · exact fun h => subnets_refused_iff.2 fun hfits => h.2.2 hfits.2.2

end Block

end IpSpace
