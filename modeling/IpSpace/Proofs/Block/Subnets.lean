import IpSpace.Block.Subnets
import IpSpace.Proofs.Block.Tiling

/-!
# Sub-blocks tile their block

A listing of sub-blocks has no counter: it builds each block from the end of the one before, and stops at the end of
the whole. Below that end building never fails (`Block.exists_follower_eq`). The blocks are of one size, which divides
the way to the end, so a listing that is a number of blocks away from it yields that many, and they are an even tiling
(`Subnets.exists_yields`). `subnets_tile` reads off the tiling which block is where.
-/
namespace IpSpace

variable {f : Family}

/-- Taking blocks off the front gives those of the list in turn, and from then on none. -/
inductive Subnets.Yields : Subnets f → List (Block f) → Prop
  | nil {s} : s.pop.value = (none, s) → Yields s []
  | cons {s rest b blocks} : s.pop.value = (some b, rest) → Yields rest blocks → Yields s (b :: blocks)

theorem Subnets.Yields.nth {s : Subnets f} {blocks : List (Block f)} (h : s.Yields blocks) (n : Nat) :
    (s.nth n).value.1 = blocks[n]? := by
  induction n generalizing s blocks with
  | zero =>
    rw [Subnets.nth]
    cases h with
    | nil hpop => rw [hpop]; rfl
    | cons hpop _ => rw [hpop]; rfl
  | succ n ih =>
    rw [Subnets.nth, Logged.value_bind]
    cases h with
    | nil hpop => rw [hpop]; rfl
    | cons hpop hrest =>
      rw [hpop]
      exact ih hrest

namespace Block

/-! ## One block after the other -/

theorem follower_eq_none {b : Block f} {last : Address f} (h : b.broadcast = last) : b.follower last = pure none := by
  rw [follower, if_neg h.not_lt]

/-- Below the last address a block has a follower. -/
theorem exists_follower_eq {b : Block f} {last : Address f} (h : b.broadcast < last) :
    ∃ c, b.follower last = pure (some c) ∧ b.broadcast.next? = some c.base ∧ c.prefixLength = b.prefixLength ∧
      c.hostMask = b.hostMask := by
  obtain ⟨next, hnext, -, -⟩ := Address.exists_next?_of_lt h
  have haligned : b.size ∣ next.toNat := by
    rw [Address.next?_eq_some_iff.1 hnext, toNat_broadcast_succ]
    exact Nat.dvd_add b.size_dvd_base (Nat.dvd_refl _)
  obtain ⟨c, hmoved, hbase, hp, hm⟩ := exists_ofMask_eq next b.prefixLength_le b.hostMask_fits
  rw [Address.clearAfter_eq_self haligned] at hbase
  refine ⟨c, ?_, hbase ▸ hnext, hp, hm⟩
  rw [follower, if_pos h, hnext]
  simp only [moved, hmoved]
  rfl

end Block

namespace Subnets

theorem pop_value {b : Block f} {last : Address f} {next : Option (Block f)} (h : b.follower last = pure next) :
    (⟨some b, last⟩ : Subnets f).pop.value = (some b, ⟨next, last⟩) := by
  simp [pop, h]

/-- A listing that is `n + 1` blocks away from its end yields an even tiling. -/
theorem exists_yields {p : Nat} {m : HostMask f} {last : Address f} (n : Nat) {b : Block f}
    (hp : b.prefixLength = p) (hm : b.hostMask = m) (h : b.base.toNat + (n + 1) * f.span p = last.toNat + 1) :
    ∃ blocks, Yields ⟨some b, last⟩ blocks ∧ EvenTiling p m b.base last blocks := by
  have hpos := f.span_pos p
  induction n generalizing b with
  | zero =>
    have hend := b.toNat_broadcast_succ
    rw [Block.size, hp] at hend
    obtain rfl : b.broadcast = last := by rw [← Address.toNat_inj]; omega
    exact ⟨[b], .cons (pop_value (Block.follower_eq_none rfl)) (.nil rfl), .single hp hm⟩
  | succ n ih =>
    have hend := b.toNat_broadcast_succ
    rw [Block.size, hp] at hend
    rw [Nat.succ_mul, Nat.succ_mul] at h
    have hlt : b.broadcast < last := by rw [Address.lt_iff_toNat_lt]; omega
    obtain ⟨c, hfollower, hnext, hcp, hcm⟩ := Block.exists_follower_eq hlt
    have hbase := Address.next?_eq_some_iff.1 hnext
    obtain ⟨blocks, hyields, htiles⟩ := ih (hcp.trans hp) (hcm.trans hm) (by rw [Nat.succ_mul]; omega)
    exact ⟨b :: blocks, .cons (pop_value hfollower) hyields, htiles.cons hp hm hnext⟩

end Subnets

/-! ## The listing of a block -/

namespace Block

/-- A prefix that is no shorter than the block's and goes with its host mask divides it evenly. -/
theorem exists_subnets {b : Block f} {p : Nat} (hq : b.prefixLength ≤ p) (hp : p ≤ f.bits)
    (hm : b.hostMask.Fits p) :
    ∃ s blocks, (b.subnets p).outcome = .ok s ∧ s.Yields blocks ∧
      EvenTiling p b.hostMask b.base b.broadcast blocks := by
  obtain ⟨first, hfirst, hbase, hfp, hfm⟩ := exists_ofMask_eq b.base hp hm
  rw [Address.clearAfter_eq_self (Nat.dvd_trans (f.span_dvd hq) b.size_dvd_base)] at hbase
  obtain ⟨n, hn⟩ := Nat.exists_eq_succ_of_ne_zero (Nat.ne_of_gt (Nat.two_pow_pos (p - b.prefixLength)))
  have hend : first.base.toNat + (n + 1) * f.span p = b.broadcast.toNat + 1 := by
    rw [hbase, toNat_broadcast_succ, size, f.span_eq_mul hq hp, hn]
  obtain ⟨blocks, hyields, htiles⟩ := Subnets.exists_yields n hfp hfm hend
  refine ⟨⟨some first, b.broadcast⟩, blocks, ?_, hyields, hbase ▸ htiles⟩
  rw [subnets, if_neg (Nat.not_lt.2 hq), moved, hfirst]
  rfl

theorem subnets_refused_iff {b : Block f} {p : Nat} :
    (b.subnets p).outcome = .error .badMaskLength ↔
      ¬ (b.prefixLength ≤ p ∧ p ≤ f.bits ∧ b.hostMask.Fits p) := by
  constructor
  · intro hout ⟨hq, hp, hm⟩
    obtain ⟨s, blocks, hok, -⟩ := exists_subnets hq hp hm
    rw [hok] at hout
    cases hout
  · intro h
    unfold subnets
    split
    · rfl
    · rename_i hq
      exact Attempt.outcome_bind_error (ofMask_refused b.base fun hfits => h ⟨Nat.le_of_not_lt hq, hfits⟩) _

/-- Where the division succeeds it is an even tiling. -/
theorem subnets_ok {b : Block f} {p : Nat} {s : Subnets f} (h : (b.subnets p).outcome = .ok s) :
    b.prefixLength ≤ p ∧ p ≤ f.bits ∧
      ∃ blocks, s.Yields blocks ∧ EvenTiling p b.hostMask b.base b.broadcast blocks := by
  have haccepted : (b.subnets p).outcome ≠ .error .badMaskLength := by
    rw [h]
    exact fun hout => by cases hout
  obtain ⟨hq, hp, hm⟩ := not_not.1 (mt subnets_refused_iff.2 haccepted)
  obtain ⟨t, blocks, hok, hyields, htiles⟩ := exists_subnets hq hp hm
  rw [h, Except.ok.injEq] at hok
  exact ⟨hq, hp, blocks, hok ▸ hyields, htiles⟩

/-- A block is divided by any prefix that is no shorter than its own, not too long, and accepted beside its host mask.
The listing then has the blocks of that prefix inside it in turn, each once, up to the end of the block. -/
theorem subnets_tile (b : Block f) (p : Nat) :
    (∀ a : Address f, (b.subnets p).outcome = .error .badMaskLength ↔
      p < b.prefixLength ∨ f.bits < p ∨
        b.hostMask ≠ .empty ∧ (of a p b.hostMask.length).outcome = .error .badMaskLength) ∧
    ((b.subnets p).outcome ≠ .error .badMaskLength → ∃ s blocks,
      (b.subnets p).outcome = .ok s ∧ s.Yields blocks ∧
      blocks.length = 2 ^ (p - b.prefixLength) ∧
      (∀ k c, blocks[k]? = some c →
        c.prefixLength = p ∧ c.hostMask = b.hostMask ∧ c.base.toNat = b.base.toNat + k * 2 ^ (f.bits - p)) ∧
      blocks.getLast?.map broadcast = some b.broadcast ∧
      ∀ c : Block f, c.prefixLength = p → c.hostMask = b.hostMask →
        blocks.count c = if b.Encloses c then 1 else 0) := by
  constructor
  · intro a
    have hempty : b.hostMask = .empty → b.hostMask.Fits p := fun h => h ▸ HostMask.empty_fits f p
    rw [subnets_refused_iff, of_refused_iff]
    grind
  · intro hout
    obtain ⟨hq, hp, hm⟩ := not_not.1 (mt subnets_refused_iff.2 hout)
    obtain ⟨s, blocks, hok, hyields, htiles⟩ := exists_subnets hq hp hm
    refine ⟨s, blocks, hok, hyields, ?_, ?_, htiles.getLast, ?_⟩
    · have hlen := htiles.toNat_add_length_mul
      rw [toNat_broadcast_succ, size, f.span_eq_mul hq hp] at hlen
      exact Nat.eq_of_mul_eq_mul_right (f.span_pos p) (Nat.add_left_cancel hlen)
    · intro k c hk
      obtain ⟨hcp, hcm⟩ := htiles.kind c (List.mem_of_getElem? hk)
      exact ⟨hcp, hcm, htiles.base_of_getElem? hk⟩
    · intro c hcp hcm
      rw [htiles.nodup.count]
      simp only [htiles.mem_iff hcp hcm, encloses_iff_between]

/-- The four blocks of 64 bits at the top of the address space, under a mask that a longer prefix would reach into. -/
theorem subnets_tile_top :
    ∃ b : Block .v6, b.prefixLength = 62 ∧ b.hostMask.length = 60 ∧
      (b.subnets 65).outcome = .error .badMaskLength ∧
      ∃ s blocks, (b.subnets 64).outcome = .ok s ∧ s.Yields blocks ∧ blocks.length = 4 ∧
        blocks.getLast?.map broadcast = some .ones := by
  obtain ⟨b, hq, hm, htop, hfits, hreaches⟩ : ∃ b : Block .v6, b.prefixLength = 62 ∧ b.hostMask.length = 60 ∧
      b.broadcast = .ones ∧ b.hostMask.Fits 64 ∧ ¬ b.hostMask.Fits 65 := by
    refine ⟨⟨.ofNat .v6 0xfffffffffffffffc0000000000000000, 62, ⟨60, by decide⟩, by decide, by decide +kernel, ?_⟩,
      rfl, rfl, ?_, ?_, ?_⟩ <;> decide +kernel
  have hmasked : b.hostMask ≠ .empty := by
    intro h
    rw [h] at hm
    cases hm
  have hrefused : (of .zero 65 b.hostMask.length).outcome = .error .badMaskLength :=
    (of_refused_iff .zero 65 b.hostMask).2 fun h => hreaches h.2
  have haccepted : (b.subnets 64).outcome ≠ .error .badMaskLength := by
    intro h
    exact subnets_refused_iff.1 h ⟨by rw [hq]; decide, by decide, hfits⟩
  obtain ⟨s, blocks, hok, hyields, hlen, -, hlast, -⟩ := (subnets_tile b 64).2 haccepted
  rw [hq] at hlen
  rw [htop] at hlast
  refine ⟨b, hq, hm, ?_, s, blocks, hok, hyields, hlen, hlast⟩
  exact ((subnets_tile b 65).1 .zero).2 (.inr (.inr ⟨hmasked, hrefused⟩))

end Block

end IpSpace
