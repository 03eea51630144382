import IpSpace.Proofs.Range.Greedy
import Mathlib.Combinatorics.Enumerative.DoubleCounting

/-!
# Covers

* `coverRange_tiles`: a cover fails for addresses of two families or out of order, and else it is a list of blocks
  without host mask that tiles the range.
* `coverRange_shortest`: no list of blocks that makes up the same range is shorter, in any order and with any overlaps,
  as long as it does not hold the whole address space in one block.

Why the greedy cover is the shortest: every block inside the range lies inside one of its blocks
(`Greedy.exists_encloses`), so a block of any other list meets at most one base of the cover, and each base needs one.
-/
namespace IpSpace.Range

variable {f : Family}

/-! ## A cover tiles its range -/

/-- A cover fails for addresses of two families or out of order. Otherwise its blocks follow each other from the first
address to the last, so each address of the range is in one of them and any other in none. -/
theorem coverRange_tiles :
    (∀ x y : AnyAddress, x.family ≠ y.family → (coverRange x y).outcome = .error .noValidRange) ∧
    (∀ (f : Family) (first last : Address f), last < first →
      (coverRange ⟨f, first⟩ ⟨f, last⟩).outcome = .error .noValidRange) ∧
    ∀ (f : Family) (first last : Address f), first ≤ last → ∃ blocks : List (Block f),
      (coverRange ⟨f, first⟩ ⟨f, last⟩).outcome = .ok (blocks.map (⟨f, ·⟩)) ∧
      (∀ b ∈ blocks, b.hostMask = .empty) ∧
      Tiling first last blocks ∧
      ∀ x : AnyAddress, (blocks.map (⟨f, ·⟩) : List AnyBlock).countP (·.Contains x) =
        if ⟨f, first⟩ ≤ x ∧ x ≤ ⟨f, last⟩ then 1 else 0 := by
  refine ⟨fun x y h => ?_, fun f first last h => ?_, fun f first last h => ?_⟩
  · rw [coverRange, AnyAddress.pair?_eq_none h]; rfl
  · rw [coverRange, AnyAddress.pair?_same]
    exact Attempt.outcome_bind_error (cover_outcome_of_lt h) _
  · obtain ⟨blocks, hout, hgreedy⟩ := cover_outcome h
    exact ⟨blocks, coverRange_outcome hout, fun b hb => (hgreedy.largestFit b hb).hostMask, hgreedy.tiling,
      hgreedy.tiling.countP_any_contains⟩

/-- All addresses but the lowest: the last block ends where no next address is. -/
theorem coverRange_tiles_up_to_top :
    (coverRange ⟨.v4, .zero⟩ ⟨.v6, .zero⟩).outcome = .error .noValidRange ∧
    (coverRange ⟨.v6, .ones⟩ ⟨.v6, .zero⟩).outcome = .error .noValidRange ∧
    ∃ blocks : List (Block .v6),
      (coverRange ⟨.v6, .ofNat .v6 1⟩ ⟨.v6, .ones⟩).outcome = .ok (blocks.map (⟨.v6, ·⟩)) ∧
      (∀ b ∈ blocks, b.hostMask = .empty) ∧ Tiling (.ofNat .v6 1) .ones blocks := by
  obtain ⟨blocks, hout, hplain, htiles, -⟩ :=
    coverRange_tiles.2.2 .v6 (.ofNat .v6 1) .ones (by decide +kernel)
  exact ⟨coverRange_tiles.1 _ _ (by decide), coverRange_tiles.2.1 _ _ _ (by decide +kernel),
    blocks, hout, hplain, htiles⟩

/-! ## No cover is shorter -/

/-- Every block in the range, other than the whole address space, lies in one block of the greedy cover. -/
theorem Greedy.exists_encloses {first last : Address f} {blocks : List (Block f)} (h : Greedy last first blocks)
    {c : Block f} (hp : 1 ≤ c.prefixLength) (hs : first ≤ c.base) (hl : c.broadcast ≤ last) :
    ∃ b ∈ blocks, b.Encloses c := by
  induction h with
  | done hb hbl =>
    refine ⟨_, List.mem_singleton_self _, Block.encloses_iff_between.2 ⟨?_, ?_⟩⟩
    · rw [hb.base]; exact hs
    · rw [hbl]; exact hl
  | @more start next b rest hb hn _ ih =>
    rcases le_or_gt c.base b.broadcast with hcb | hbc
    · -- `c` begins in `b`, so one holds the other; if it were `c` that holds `b`, `b` would not be the largest fit
      refine ⟨b, List.mem_cons_self, ?_⟩
      have hmem : b.Contains c.base := Block.contains_iff_between.2 ⟨hb.base ▸ hs, hcb⟩
      rcases Nat.lt_or_ge c.prefixLength b.prefixLength with hlt | hge
      · exfalso
        have hcb := (Block.encloses_iff_between.1
          (Block.encloses_of_common (Nat.le_of_lt hlt) c.contains_base hmem)).1
        have := hb.largest c hp (le_antisymm (hb.base ▸ hcb) hs) hl
        omega
      · exact ⟨hge, hmem⟩
    · have hnext : next ≤ c.base := by
        have := Address.lt_iff_toNat_lt.1 hbc
        rw [Address.le_iff_toNat_le, Address.next?_eq_some_iff.1 hn]; omega
      obtain ⟨d, hd, hdc⟩ := ih hnext
      exact ⟨d, List.mem_cons_of_mem b hd, hdc⟩

/-- The greedy cover is no longer than any list of blocks, other than the whole address space, with the same union. -/
theorem Greedy.length_le {first last : Address f} {blocks : List (Block f)} (h : Greedy last first blocks)
    {others : List (Block f)} (hp : ∀ c ∈ others, 1 ≤ c.prefixLength)
    (hunion : ∀ a, (∃ c ∈ others, c.Contains a) ↔ first ≤ a ∧ a ≤ last) : blocks.length ≤ others.length := by
  classical
  have hbase : ∀ b ∈ blocks, ∃ c ∈ others, c.Contains b.base := by
    intro b hb
    exact (hunion _).2 ((h.tiling.exists_contains_iff _).1 ⟨b, hb, b.contains_base⟩)
  have hone : ∀ c ∈ others, ∀ b ∈ blocks, ∀ d ∈ blocks, c.Contains b.base → c.Contains d.base → b = d := by
    intro c hc b hb d hd hcb hcd
    have hin := fun a (ha : c.Contains a) => (hunion a).1 ⟨c, hc, ha⟩
    obtain ⟨g, hg, hgc⟩ := h.exists_encloses (hp c hc) (hin _ c.contains_base).1 (hin _ c.contains_broadcast).2
    have hgb := h.tiling.eq_of_common hg hb (hgc.contains hcb) b.contains_base
    have hgd := h.tiling.eq_of_common hg hd (hgc.contains hcd) d.contains_base
    rw [← hgb, hgd]
  calc blocks.length = blocks.toFinset.card := (List.toFinset_card_of_nodup h.tiling.nodup).symm
    _ ≤ others.toFinset.card :=
      Finset.card_le_card_of_forall_subsingleton (fun b c => c.Contains b.base)
        (fun b hb => by simpa using hbase b (List.mem_toFinset.1 hb))
        (fun c hc b hb d hd => hone c (List.mem_toFinset.1 hc) b (List.mem_toFinset.1 hb.1) d
          (List.mem_toFinset.1 hd.1) hb.2 hd.2)
    _ ≤ others.length := others.toFinset_card_le

/-- The whole address space is covered by its two halves. -/
theorem greedy_whole :
    Greedy (Address.ones : Address f) .zero [.around .zero 1 f.one_le_bits, .around .ones 1 f.one_le_bits] := by
  have hhalf := f.two_mul_span_one
  have hpos := f.span_pos 1
  have hfit : ∀ a start : Address f, (Block.around a 1 f.one_le_bits).base = start →
      LargestFit start .ones (.around a 1 f.one_le_bits) :=
    fun a start hs => ⟨rfl, Nat.le_refl 1, hs, Address.le_ones _, fun _ hc _ _ => hc⟩
  have hsize : ∀ a : Address f, (Block.around a 1 f.one_le_bits).size = f.span 1 := fun _ => rfl
  have hzero : (Block.around (.zero : Address f) 1 f.one_le_bits).base = .zero := Address.zero_clearAfter 1
  have hones : (Block.around (.ones : Address f) 1 f.one_le_bits).base.toNat = f.span 1 := by
    have hdiv : (2 ^ f.bits - 1) / f.span 1 = 1 := (Nat.div_eq_iff hpos).2 (by omega)
    rw [Block.around, Address.toNat_clearAfter, Address.toNat_ones, hdiv, Nat.one_mul]
  refine .more (hfit .zero .zero hzero) ?_ (.done (hfit .ones _ rfl) ?_)
  · rw [Address.next?_eq_some_iff, Block.toNat_broadcast, hones, hzero, Address.toNat_zero, hsize]; omega
  · rw [← Address.toNat_inj, Block.toNat_broadcast, hones, Address.toNat_ones, hsize]; omega

/-- Among lists of blocks that cover a range, the cover is a shortest one, where none of them holds the whole address
space. That one is covered by its two halves. -/
theorem coverRange_shortest (f : Family) :
    (∀ first last : Address f, first ≤ last → ∃ blocks,
      (coverRange ⟨f, first⟩ ⟨f, last⟩).outcome = .ok blocks ∧ Covers blocks ⟨f, first⟩ ⟨f, last⟩ ∧
      ∀ others, Covers others ⟨f, first⟩ ⟨f, last⟩ →
        (∀ b ∈ others, 1 ≤ b.block.prefixLength) ∨ first ≠ .zero ∨ last ≠ .ones →
        blocks.length ≤ others.length) ∧
    (coverRange ⟨f, .zero⟩ ⟨f, .ones⟩).outcome =
      .ok [⟨f, .around .zero 1 f.one_le_bits⟩, ⟨f, .around .ones 1 f.one_le_bits⟩] ∧
    Covers [⟨f, .around .zero 0 (Nat.zero_le _)⟩] ⟨f, .zero⟩ ⟨f, .ones⟩ := by
  refine ⟨fun first last h => ?_, ?_, ?_⟩
  · obtain ⟨blocks, hout, hgreedy⟩ := cover_outcome h
    refine ⟨_, coverRange_outcome hout, hgreedy.tiling.covers, fun others hcover hp => ?_⟩
    obtain ⟨others, rfl⟩ := hcover.exists_map
    rw [List.length_map, List.length_map]
    refine hgreedy.length_le (fun c hc => ?_) hcover.of_map
    rcases hp with hp | hp
    · exact hp ⟨f, c⟩ (List.mem_map_of_mem hc)
    · -- a block of no prefix holds all addresses, so it covers no other range
      by_contra hzero
      have hall := fun a => (hcover.of_map a).1 ⟨c, hc, c.contains_of_prefixLength_eq_zero (by omega) a⟩
      rcases hp with hp | hp
      · exact hp (le_antisymm (hall .zero).1 (Address.zero_le _))
      · exact hp (le_antisymm (Address.le_ones _) (hall .ones).2)
  · obtain ⟨blocks, hout, hgreedy⟩ := cover_outcome (Address.zero_le (.ones : Address f))
    rw [coverRange_outcome hout, hgreedy.unique greedy_whole]; rfl
  · have hwhole := (Tiling.single (Block.around (.zero : Address f) 0 (Nat.zero_le _))).covers
    have hbroad : (Block.around (.zero : Address f) 0 (Nat.zero_le _)).broadcast = .ones := by
      rw [← Address.toNat_inj, Block.toNat_broadcast, Block.base_around, Address.zero_clearAfter,
        Address.toNat_zero, Address.toNat_ones, Nat.zero_add]
      rfl
    rwa [hbroad, Block.base_around, Address.zero_clearAfter] at hwhole

/-- The range from 0.0.0.2 to 0.0.0.3 against its two addresses, each a block of its own. -/
theorem coverRange_shortest_pair :
    Covers [⟨.v4, .around (.ofNat .v4 2) 32 (by decide)⟩, ⟨.v4, .around (.ofNat .v4 3) 32 (by decide)⟩]
      ⟨.v4, .ofNat .v4 2⟩ ⟨.v4, .ofNat .v4 3⟩ ∧
    ∃ blocks, (coverRange ⟨.v4, .ofNat .v4 2⟩ ⟨.v4, .ofNat .v4 3⟩).outcome = .ok blocks ∧ blocks.length ≤ 2 := by
  have hbase : ∀ a : Address .v4, (Block.around a 32 (by decide)).base = a := fun a => a.clearAfter_bits
  have hbroad : ∀ a : Address .v4, (Block.around a 32 (by decide)).broadcast = a := fun a => by
    show (a.clearAfter Family.v4.bits).setAfter Family.v4.bits = a
    rw [Address.clearAfter_bits, Address.setAfter_bits]
  have htiles := Tiling.cons (b := .around (.ofNat .v4 2) 32 (by decide))
    (show _ = some (.ofNat .v4 3) by rw [hbroad]; decide +kernel) (hbase (.ofNat .v4 3) ▸ Tiling.single _)
  rw [hbase, hbroad] at htiles
  have hcover := htiles.covers
  obtain ⟨blocks, hout, -, hmin⟩ := (coverRange_shortest .v4).1 (.ofNat .v4 2) (.ofNat .v4 3) (by decide +kernel)
  refine ⟨hcover, blocks, hout, hmin _ hcover (.inl ?_)⟩
  intro b hb
  simp only [List.map_cons, List.map_nil, List.mem_cons, List.not_mem_nil, or_false] at hb
  rcases hb with rfl | rfl <;> exact Nat.le_add_left 1 31

end IpSpace.Range
