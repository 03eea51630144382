import IpSpace.Proofs.Block.Tiling
import IpSpace.Range.Cover

/-!
# The greedy cover

What a range search finds and what a cover is made of, for a range of one family that is not empty.
* `fit_outcome`: the search finds the largest block that starts the range (`LargestFit`).
* `coverFrom_outcome`: a cover takes such a block, and again from just past it, until one ends the range (`Greedy`).
  It never stops for lack of a next address: a block that ends below `last` is followed by one.

Statements about covers go by induction on `Greedy`.
-/
namespace IpSpace.Range

variable {f : Family}

/-! ## The search -/

/-- `b` is the largest block, other than the whole address space, that starts at `first` and ends by `last`. -/
structure LargestFit (first last : Address f) (b : Block f) : Prop where
  hostMask : b.hostMask = .empty
  prefixLength_pos : 1 ≤ b.prefixLength
  base : b.base = first
  broadcast_le : b.broadcast ≤ last
  largest : ∀ c : Block f, 1 ≤ c.prefixLength → c.base = first → c.broadcast ≤ last →
    b.prefixLength ≤ c.prefixLength

theorem LargestFit.first_le_last {first last : Address f} {b : Block f} (h : LargestFit first last b) :
    first ≤ last := by
  rw [← h.base]
  exact b.base_le_broadcast.trans h.broadcast_le

theorem LargestFit.unique {first last : Address f} {b c : Block f} (hb : LargestFit first last b)
    (hc : LargestFit first last c) : b = c :=
  Block.ext (hb.base.trans hc.base.symm)
    (Nat.le_antisymm (hb.largest c hc.prefixLength_pos hc.base hc.broadcast_le)
      (hc.largest b hb.prefixLength_pos hb.base hb.broadcast_le))
    (hb.hostMask.trans hc.hostMask.symm)

/-- One trial: the block of `p` bits is told, and is the answer if it fits. -/
theorem search_cons {p : Nat} (hp : p ≤ f.bits) (first last : Address f) (longer : List Nat) :
    search first last (p :: longer) = (do
      Logged.tell (.trying (.around first p hp) first last)
      if first ≤ (Block.around first p hp).base ∧ (Block.around first p hp).broadcast ≤ last then
        pure (.around first p hp)
      else search first last longer) := by
  rw [search, Block.containing_eq first p hp]; rfl

/-- From length `p` on the search finds the largest fit, if no block with a shorter prefix fits. -/
theorem search_outcome {first last : Address f} (h : first ≤ last) (n p : Nat) (hp : 1 ≤ p)
    (hn : p + n = f.bits + 1)
    (hlong : ∀ c : Block f, 1 ≤ c.prefixLength → c.base = first → c.broadcast ≤ last →
      p ≤ c.prefixLength) :
    ∃ b, (search first last (List.range' p n)).outcome = .ok b ∧ LargestFit first last b := by
  induction n generalizing p with
  | zero =>
    -- the block of `first` alone has a prefix of `f.bits` bits, and it fits
    exfalso
    have hlen := hlong (.around first f.bits (Nat.le_refl _)) f.one_le_bits (Block.base_around_bits first)
      ((Block.broadcast_around_bits first).trans_le h)
    change p ≤ f.bits at hlen
    omega
  | succ n ih =>
    have hpb : p ≤ f.bits := by omega
    rw [List.range'_succ, search_cons hpb, Attempt.outcome_bind_ok (Attempt.outcome_lift _)]
    split
    · rename_i hfit
      have hbase : (Block.around first p hpb).base = first :=
        le_antisymm (Block.contains_iff_between.1 (Block.contains_around first p hpb)).1 hfit.1
      exact ⟨_, rfl, rfl, hp, hbase, hfit.2, hlong⟩
    · rename_i hno
      refine ih (p + 1) (by omega) (by omega) fun c hc1 hcb hcl => ?_
      have hle := hlong c hc1 hcb hcl
      rcases Nat.lt_or_ge p c.prefixLength with hlt | hge
      · exact hlt
      · -- a block of `p` bits that fits has the bounds of the one just tried
        exfalso
        obtain rfl : p = c.prefixLength := by omega
        subst hcb
        exact hno ⟨c.base_around_base.ge, c.broadcast_around_base.le.trans hcl⟩

theorem fit_outcome {first last : Address f} (h : first ≤ last) :
    ∃ b, LargestFit first last b ∧ (fit first last).outcome = .ok ⟨b, b.broadcast = last⟩ := by
  obtain ⟨b, hb, hfit⟩ := search_outcome h f.bits 1 (Nat.le_refl _) (Nat.add_comm _ _) fun c hc _ _ => hc
  refine ⟨b, hfit, ?_⟩
  rw [fit, if_neg h.not_gt, Attempt.outcome_bind_ok hb]
  simp [hfit.base]

theorem fit_outcome_of_largest {first last : Address f} {b : Block f} (h : LargestFit first last b) :
    (fit first last).outcome = .ok ⟨b, b.broadcast = last⟩ := by
  obtain ⟨c, hc, hfit⟩ := fit_outcome h.first_le_last
  obtain rfl := h.unique hc
  exact hfit

theorem fit_outcome_of_lt {first last : Address f} (h : last < first) :
    (fit first last).outcome = .error .noValidRange := by
  rw [fit, if_pos h]; rfl

/-! ## The cover -/

/-- Blocks up to `last`, each the largest fit from just past the one before. -/
inductive Greedy (last : Address f) : Address f → List (Block f) → Prop
  | done {start : Address f} {b : Block f} (hb : LargestFit start last b) (hl : b.broadcast = last) :
      Greedy last start [b]
  | more {start next : Address f} {b : Block f} {rest : List (Block f)} (hb : LargestFit start last b)
      (hn : b.broadcast.next? = some next) (h : Greedy last next rest) : Greedy last start (b :: rest)

theorem Greedy.tiling {first last : Address f} {blocks : List (Block f)} (h : Greedy last first blocks) :
    Tiling first last blocks := by
  induction h with
  | done hb hl => rw [← hb.base, ← hl]; exact Tiling.single _
  | more hb hn _ ih => rw [← hb.base]; exact ih.cons hn

theorem Greedy.largestFit {first last : Address f} {blocks : List (Block f)} (h : Greedy last first blocks) :
    ∀ b ∈ blocks, LargestFit b.base last b := by
  induction h with
  | done hb hl => simpa [hb.base] using hb
  | more hb hn _ ih =>
    intro c hc
    rcases List.mem_cons.1 hc with rfl | hc
    · rw [hb.base]; exact hb
    · exact ih c hc

/-- The range determines the blocks. -/
theorem Greedy.unique {first last : Address f} {blocks others : List (Block f)} (h : Greedy last first blocks)
    (ho : Greedy last first others) : blocks = others := by
  induction h generalizing others with
  | done hb hl =>
    cases ho with
    | done hc _ => rw [hb.unique hc]
    | more hc hn h =>
      obtain rfl := hb.unique hc
      exact absurd h.tiling.first_le_last (hl ▸ Address.lt_of_next? hn).not_ge
  | more hb hn h ih =>
    cases ho with
    | done hc hl =>
      obtain rfl := hb.unique hc
      exact absurd h.tiling.first_le_last (hl ▸ Address.lt_of_next? hn).not_ge
    | more hc hm ho =>
      obtain rfl := hb.unique hc
      obtain rfl : _ = _ := Option.some.inj (hn.symm.trans hm)
      rw [ih ho]

theorem coverFrom_outcome {start last : Address f} (h : start ≤ last) :
    ∃ blocks, (coverFrom start last).outcome = .ok blocks ∧ Greedy last start blocks := by
  induction hk : last.toNat - start.toNat using Nat.strongRecOn generalizing start with
  | ind k ih =>
    obtain ⟨b, hb, hfit⟩ := fit_outcome h
    rw [coverFrom, Attempt.outcome_bind_ok hfit]
    simp only
    split
    · rename_i hle
      exact ⟨_, rfl, .done hb (le_antisymm hb.broadcast_le hle)⟩
    · rename_i hlt
      obtain ⟨next, hn, hbn, hnl⟩ := Address.exists_next?_of_lt (not_le.1 hlt)
      have hstart : start < next := lt_of_le_of_lt (hb.base ▸ b.base_le_broadcast) hbn
      have hs := Address.lt_iff_toNat_lt.1 hstart
      have hl := Address.le_iff_toNat_le.1 hnl
      obtain ⟨rest, hrest, hgreedy⟩ := ih (last.toNat - next.toNat) (by omega) hnl rfl
      refine ⟨b :: rest, ?_, .more hb hn hgreedy⟩
      simp only [hn]
      rw [dif_pos hstart, Attempt.outcome_bind_ok hrest]
      rfl

theorem coverFrom_outcome_of_greedy {start last : Address f} {blocks : List (Block f)} (h : Greedy last start blocks) :
    (coverFrom start last).outcome = .ok blocks := by
  obtain ⟨others, hout, hgreedy⟩ := coverFrom_outcome h.tiling.first_le_last
  obtain rfl := h.unique hgreedy
  exact hout

theorem cover_outcome_of_greedy {first last : Address f} {blocks : List (Block f)} (h : Greedy last first blocks) :
    (cover first last).outcome = .ok blocks := by
  rw [cover, Attempt.outcome_bind_ok (coverFrom_outcome_of_greedy h), Attempt.outcome_bind_ok (Attempt.outcome_lift _)]
  rfl

theorem cover_outcome {first last : Address f} (h : first ≤ last) :
    ∃ blocks, (cover first last).outcome = .ok blocks ∧ Greedy last first blocks := by
  obtain ⟨blocks, -, hgreedy⟩ := coverFrom_outcome h
  exact ⟨blocks, cover_outcome_of_greedy hgreedy, hgreedy⟩

theorem cover_outcome_of_lt {first last : Address f} (h : last < first) :
    (cover first last).outcome = .error .noValidRange := by
  rw [cover, Attempt.outcome_bind_error]
  rw [coverFrom, Attempt.outcome_bind_error (fit_outcome_of_lt h)]

theorem coverRange_outcome {first last : Address f} {blocks : List (Block f)}
    (h : (cover first last).outcome = .ok blocks) :
    (coverRange ⟨f, first⟩ ⟨f, last⟩).outcome = .ok (blocks.map (⟨f, ·⟩)) := by
  rw [coverRange, AnyAddress.pair?_same]
  exact Attempt.outcome_bind_ok h _

end IpSpace.Range
