import IpSpace.Proofs.Block.Interval

/-!
# Nested blocks

A block encloses another one if its prefix is no longer and the base of the other is in it. That is inclusion of the
addresses, and it is enough to look at the two ends (`Block.encloses_iff_subset`, `Block.encloses_iff_ends`). Blocks with
an address in common are nested (`Block.nested_of_common`), and blocks that are nested both ways differ in their host
masks at most (`Block.encloses_both_iff`). `encloses_laminar` says all of it of blocks of either family.
-/
namespace IpSpace

/-! ## In one family -/

namespace Block

variable {f : Family} {b c : Block f}

theorem encloses_iff_ends : b.Encloses c ↔ b.Contains c.base ∧ b.Contains c.broadcast := by
  constructor
  · intro h
    exact ⟨h.2, h.contains c.contains_broadcast⟩
  · intro ⟨hbase, hbroadcast⟩
    exact encloses_iff_between.2 ⟨(contains_iff_between.1 hbase).1, (contains_iff_between.1 hbroadcast).2⟩

theorem encloses_iff_subset : b.Encloses c ↔ ∀ a, c.Contains a → b.Contains a := by
  constructor
  · intro h a ha
    exact h.contains ha
  · intro h
    exact encloses_iff_ends.2 ⟨h _ c.contains_base, h _ c.contains_broadcast⟩

theorem nested_of_common {a : Address f} (hb : b.Contains a) (hc : c.Contains a) : b.Encloses c ∨ c.Encloses b := by
  rcases Nat.le_total b.prefixLength c.prefixLength with h | h
  · exact .inl (encloses_of_common h hb hc)
  · exact .inr (encloses_of_common h hc hb)

theorem encloses_both_iff :
    b.Encloses c ∧ c.Encloses b ↔ b.base = c.base ∧ b.prefixLength = c.prefixLength := by
  constructor
  · intro ⟨hbc, hcb⟩
    exact ⟨le_antisymm (encloses_iff_between.1 hbc).1 (encloses_iff_between.1 hcb).1, Nat.le_antisymm hbc.1 hcb.1⟩
  · intro ⟨hbase, hprefix⟩
    exact ⟨⟨Nat.le_of_eq hprefix, hbase ▸ b.contains_base⟩, ⟨Nat.le_of_eq hprefix.symm, hbase ▸ c.contains_base⟩⟩

end Block

/-! ## In either family -/

namespace AnyBlock

theorem encloses_mk {f : Family} {b c : Block f} : Encloses ⟨f, b⟩ ⟨f, c⟩ ↔ b.Encloses c := by
  cases f <;> exact Iff.rfl

theorem encloses_self (b : AnyBlock) : b.Encloses b := encloses_mk.2 (Block.encloses_iff_subset.2 fun _ h => h)

theorem Encloses.family_eq {b c : AnyBlock} (h : b.Encloses c) : b.family = c.family := by
  obtain ⟨f, b⟩ := b
  obtain ⟨g, c⟩ := c
  cases f <;> cases g <;> first | rfl | exact h.elim

theorem contains_base (b : AnyBlock) : b.Contains b.base := contains_mk.2 b.block.contains_base

/-- What is in a block is of its family. -/
theorem contains_iff_exists {b : AnyBlock} {x : AnyAddress} :
    b.Contains x ↔ ∃ a : Address b.family, x = ⟨b.family, a⟩ ∧ b.block.Contains a := by
  constructor
  · intro h
    obtain ⟨g, a⟩ := x
    obtain rfl : b.family = g := family_eq h
    exact ⟨a, rfl, contains_mk.1 h⟩
  · rintro ⟨a, rfl, ha⟩
    exact contains_mk.2 ha

/-- To enclose a block is to contain what it contains, or just its two ends. Blocks that are not nested have no address in
common, and blocks that enclose each other are the same but for their host masks. -/
theorem encloses_laminar (b c : AnyBlock) :
    (b.Encloses c ↔ ∀ x, c.Contains x → b.Contains x) ∧
    (b.Encloses c ↔ b.Contains c.base ∧ b.Contains c.broadcast) ∧
    (¬ b.Encloses c → ¬ c.Encloses b → ∀ x, ¬ (b.Contains x ∧ c.Contains x)) ∧
    (b.Encloses c ∧ c.Encloses b ↔
      b.family = c.family ∧ b.base = c.base ∧ b.block.prefixLength = c.block.prefixLength) := by
  by_cases hfamily : b.family = c.family
  · obtain ⟨f, b⟩ := b
    obtain ⟨g, c⟩ := c
    obtain rfl : f = g := hfamily
    simp only [encloses_mk, base, broadcast, contains_mk, AnyAddress.mk.injEq, heq_eq_eq, true_and]
    refine ⟨⟨?_, ?_⟩, Block.encloses_iff_ends, ?_, Block.encloses_both_iff⟩
    · intro h x hx
      obtain ⟨a, rfl, ha⟩ := contains_iff_exists.1 hx
      exact contains_mk.2 (h.contains ha)
    · intro h
      exact Block.encloses_iff_subset.2 fun a ha => contains_mk.1 (h ⟨f, a⟩ (contains_mk.2 ha))
    · rintro hbc hcb x ⟨hb, hc⟩
      obtain ⟨a, rfl, ha⟩ := contains_iff_exists.1 hb
      exact (Block.nested_of_common ha (contains_mk.1 hc)).elim hbc hcb
  · -- blocks of two families have no address in common, and each contains some
    have hdisjoint : ∀ x, c.Contains x → ¬ b.Contains x :=
      fun x hc hb => hfamily ((family_eq hb).trans (family_eq hc).symm)
    have hno : ¬ b.Encloses c := fun h => hfamily h.family_eq
    refine ⟨iff_of_false hno ?_, iff_of_false hno ?_, ?_, iff_of_false ?_ ?_⟩
    · intro h
      exact hdisjoint c.base c.contains_base (h c.base c.contains_base)
    · intro h
      exact hdisjoint c.base c.contains_base h.1
    · intro _ _ x h
      exact hdisjoint x h.2 h.1
    · intro h
      exact hno h.1
    · intro h
      exact hfamily h.1

/-- Two blocks of 56 bits that differ in their host masks alone, and the block just past them. -/
theorem encloses_laminar_masks :
    ∃ b c d : AnyBlock, b ≠ c ∧ b.base = c.base ∧ b.Encloses c ∧ c.Encloses b ∧ (∀ x, c.Contains x → b.Contains x) ∧
      ¬ b.Encloses d ∧ ¬ d.Encloses b ∧ ∀ x, ¬ (b.Contains x ∧ d.Contains x) := by
  obtain ⟨b, c, d, hne, hbase, hprefix, hbd, hdb⟩ : ∃ b c d : Block .v6, b ≠ c ∧ b.base = c.base ∧
      b.prefixLength = c.prefixLength ∧ ¬ b.Encloses d ∧ ¬ d.Encloses b := by
    refine ⟨⟨.ofNat .v6 0x20010db8000000000000000000000000, 56, ⟨60, by decide⟩, by decide, by decide +kernel, ?_⟩,
      .around (.ofNat .v6 0x20010db8000000000000000000000000) 56 (by decide),
      .around (.ofNat .v6 0x20010db8000001000000000000000000) 56 (by decide), ?_, ?_, ?_, ?_, ?_⟩ <;> decide +kernel
  have hends : base ⟨.v6, b⟩ = base ⟨.v6, c⟩ := congrArg (AnyAddress.mk .v6) hbase
  obtain ⟨hsubset, -, -, hboth⟩ := encloses_laminar ⟨.v6, b⟩ ⟨.v6, c⟩
  obtain ⟨hbc, hcb⟩ := hboth.2 ⟨rfl, hends, hprefix⟩
  refine ⟨⟨.v6, b⟩, ⟨.v6, c⟩, ⟨.v6, d⟩, ?_, hends, hbc, hcb, hsubset.1 hbc, hbd, hdb, ?_⟩
  · simpa using hne
  · exact (encloses_laminar ⟨.v6, b⟩ ⟨.v6, d⟩).2.2.1 hbd hdb

end AnyBlock

end IpSpace
