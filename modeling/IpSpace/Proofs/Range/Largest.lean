import IpSpace.Proofs.Block.Ends
import IpSpace.Proofs.Range.Cover

/-!
# The largest block that starts a range

`findBetween_largest` says what a range search finds: the block that starts the range, lies in it and holds every other
such block, the whole address space aside. It is marked if it is the whole range, and that is when a cover of the range
is a single block (`LargestFit.cover_single_iff`). The bounds of a block lead back to the block
(`LargestFit.of_block`), so every block without a host mask is found.
-/
namespace IpSpace.Range

variable {f : Family} {first last : Address f} {b : Block f}

/-! ## The largest fit -/

theorem LargestFit.encloses (h : LargestFit first last b) {c : Block f} (hp : 1 ≤ c.prefixLength)
    (hbase : c.base = first) (hlast : c.broadcast ≤ last) : b.Encloses c := by
  refine ⟨h.largest c hp hbase hlast, ?_⟩
  rw [hbase, ← h.base]
  exact b.contains_base

/-- A block is the largest one in its own bounds. -/
theorem LargestFit.of_block (hm : b.hostMask = .empty) (hp : 1 ≤ b.prefixLength) : LargestFit b.base b.broadcast b where
  hostMask := hm
  prefixLength_pos := hp
  base := rfl
  broadcast_le := le_rfl
  largest := by
    intro c _ hbase hlast
    exact (Block.encloses_iff_between.2 ⟨hbase.ge, hlast⟩).1

theorem LargestFit.of_whole : LargestFit (.zero : Address f) .ones (.around .zero 1 f.one_le_bits) := by
  have h := (greedy_whole (f := f)).largestFit _ List.mem_cons_self
  rwa [Block.base_around, Address.zero_clearAfter] at h

/-- The cover of a range is one block if the largest fit is the whole range. -/
theorem LargestFit.cover_single_iff (h : LargestFit first last b) :
    (∃ c, (coverRange ⟨f, first⟩ ⟨f, last⟩).outcome = .ok [c]) ↔ b.broadcast = last := by
  obtain ⟨blocks, hout, hgreedy⟩ := cover_outcome h.first_le_last
  rw [coverRange_outcome hout]
  constructor
  · rintro ⟨c, hc⟩
    rw [Except.ok.injEq, List.map_eq_singleton_iff] at hc
    obtain ⟨d, rfl, -⟩ := hc
    cases hgreedy with
    | done hd hlast => rw [h.unique hd, hlast]
    | more _ _ hrest => cases hrest
  · intro hlast
    rw [hgreedy.unique (.done h hlast)]
    exact ⟨⟨f, b⟩, rfl⟩

/-! ## The search -/

theorem findBetween_outcome (h : LargestFit first last b) :
    (findBetween ⟨f, first⟩ ⟨f, last⟩).outcome = .ok (⟨f, b⟩, b.broadcast = last) := by
  rw [findBetween, AnyAddress.pair?_same, Attempt.outcome_bind_ok (fit_outcome_of_largest h)]
  rfl

theorem findBetween_outcome_of_lt (h : last < first) :
    (findBetween ⟨f, first⟩ ⟨f, last⟩).outcome = .error .noValidRange := by
  rw [findBetween, AnyAddress.pair?_same]
  exact Attempt.outcome_bind_error (fit_outcome_of_lt h) _

theorem findBetween_outcome_of_family_ne {x y : AnyAddress} (h : x.family ≠ y.family) :
    (findBetween x y).outcome = .error .noValidRange := by
  rw [findBetween, AnyAddress.pair?_eq_none h]
  rfl

/-- A search fails for addresses of two families or out of order, and nowhere else. It finds the block that starts the range
and holds every other one that starts it, as long as none of them is the whole address space, and tells whether that block
is all of the range, as it is where a cover takes just one block. -/
theorem findBetween_largest :
    (∀ x y : AnyAddress, (findBetween x y).outcome = .error .noValidRange ↔ x.family ≠ y.family ∨ y < x) ∧
    (∀ (f : Family) (first last : Address f), first ≤ last → ∃ (b : Block f) (exact : Bool),
      (findBetween ⟨f, first⟩ ⟨f, last⟩).outcome = .ok (⟨f, b⟩, exact) ∧
      b.hostMask = .empty ∧ 1 ≤ b.prefixLength ∧ b.prefixLength ≤ f.bits ∧ b.base = first ∧ b.broadcast ≤ last ∧
      (∀ c : Block f, 1 ≤ c.prefixLength → c.base = first → c.broadcast ≤ last → b.Encloses c) ∧
      (exact = true ↔ b.broadcast = last) ∧
      (exact = true ↔ ∃ c, (coverRange ⟨f, first⟩ ⟨f, last⟩).outcome = .ok [c])) ∧
    (∀ (f : Family) (b : Block f), f = .v4 ∨ b.hostMask = .empty → 1 ≤ b.prefixLength →
      (findBetween ⟨f, b.base⟩ ⟨f, b.broadcast⟩).outcome = .ok (⟨f, b⟩, true)) ∧
    ∀ f : Family, (findBetween ⟨f, .zero⟩ ⟨f, .ones⟩).outcome = .ok (⟨f, .around .zero 1 f.one_le_bits⟩, false) := by
  have hfound : ∀ (f : Family) (first last : Address f), first ≤ last → ∃ b, LargestFit first last b :=
    fun f first last h => (fit_outcome h).imp fun b hb => hb.1
  refine ⟨fun x y => ⟨fun hout => ?_, ?_⟩, fun f first last h => ?_, fun f b hplain hp => ?_, fun f => ?_⟩
  · by_contra hno
    rw [not_or, not_not] at hno
    obtain ⟨f, first⟩ := x
    obtain ⟨g, last⟩ := y
    obtain rfl : f = g := hno.1
    obtain ⟨b, hb⟩ := hfound f first last (not_lt.1 (mt AnyAddress.mk_lt_mk.2 hno.2))
    rw [findBetween_outcome hb] at hout
    cases hout
  · intro hwrong
    by_cases hfamily : x.family = y.family
    · obtain ⟨f, first⟩ := x
      obtain ⟨g, last⟩ := y
      obtain rfl : f = g := hfamily
      exact findBetween_outcome_of_lt (AnyAddress.mk_lt_mk.1 (hwrong.resolve_left (not_not.2 rfl)))
    · exact findBetween_outcome_of_family_ne hfamily
  · obtain ⟨b, hb⟩ := hfound f first last h
    refine ⟨b, b.broadcast = last, findBetween_outcome hb, hb.hostMask, hb.prefixLength_pos, b.prefixLength_le, hb.base,
      hb.broadcast_le, fun c => hb.encloses, decide_eq_true_iff, ?_⟩
    rw [decide_eq_true_iff, hb.cover_single_iff]
  · have hm : b.hostMask = .empty := by
      rcases hplain with rfl | hm
      · exact HostMask.ext b.hostMask.length_v4
      · exact hm
    rw [findBetween_outcome (.of_block hm hp), decide_eq_true rfl]
  · -- the upper half of the space follows
    obtain ⟨-, ⟨hend, -⟩ | ⟨next, hnext, -⟩⟩ := (greedy_whole (f := f)).tiling.cases_cons
    · cases hend
    have hopen := (Address.lt_of_next? hnext).trans_le next.le_ones
    rw [findBetween_outcome .of_whole, decide_eq_false hopen.ne]

/-- From 0.0.0.4 to 0.0.0.6 there is room for two addresses in a block, which is found again from its own bounds. -/
theorem findBetween_largest_inside :
    ∃ b : Block .v4, (findBetween ⟨.v4, .ofNat .v4 4⟩ ⟨.v4, .ofNat .v4 6⟩).outcome = .ok (⟨.v4, b⟩, false) ∧
      b.prefixLength = 31 ∧ b.base = .ofNat .v4 4 ∧ b.Encloses (.around (.ofNat .v4 4) 32 (by decide)) ∧
      (¬ ∃ c, (coverRange ⟨.v4, .ofNat .v4 4⟩ ⟨.v4, .ofNat .v4 6⟩).outcome = .ok [c]) ∧
      (findBetween ⟨.v4, b.base⟩ ⟨.v4, b.broadcast⟩).outcome = .ok (⟨.v4, b⟩, true) := by
  have heval : (findBetween ⟨.v4, .ofNat .v4 4⟩ ⟨.v4, .ofNat .v4 6⟩).outcome =
      .ok (⟨.v4, .around (.ofNat .v4 4) 31 (by decide)⟩, false) := by decide +kernel
  obtain ⟨-, hranges, hblocks, -⟩ := findBetween_largest
  obtain ⟨b, exact, hout, -, hp, -, hbase, -, hlargest, -, hsingle⟩ :=
    hranges .v4 (.ofNat .v4 4) (.ofNat .v4 6) (by decide +kernel)
  rw [heval, Except.ok.injEq, Prod.mk.injEq] at hout
  obtain ⟨hb, rfl⟩ := hout
  obtain rfl : Block.around (.ofNat .v4 4) 31 (by decide) = b := by simpa using hb
  refine ⟨_, heval, rfl, hbase, ?_, mt hsingle.2 (by decide), hblocks _ _ (.inl rfl) hp⟩
  exact hlargest _ (by decide) (by decide +kernel) (by decide +kernel)

end IpSpace.Range
