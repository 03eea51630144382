import IpSpace.Proofs.Range.Largest

/-!
# What a range search tells

A search tries the blocks around the first address from a prefix of one bit on, and stops at the one that it finds. So what
it tells follows from its result: `trials b first last` has one event for each prefix up to the one of `b`.
* `LargestFit.findBetween_events`: a search that finds `b` tells the trials of `b`.
* `Greedy.events`: a cover tells, block after block, the trials of its blocks, each in what is left of the range.

A search or a cover that fails has no range to look at and tells nothing.
-/
namespace IpSpace

/-- The event is one of the fine-grained ones. -/
def Event.Traced (e : Event) : Prop := "TRACE: ".toList <+: e.line.toList

instance (e : Event) : Decidable e.Traced := inferInstanceAs (Decidable (_ <+: _))

variable {f : Family} {first last : Address f} {b : Block f}

-- The texts are generalised first: unfolding those of a block or an address takes long and tells nothing.

theorem Event.traced_trying (candidate : Block f) (first last : Address f) : (trying candidate first last).Traced := by
  have hline : ∀ a b c : String, "TRACE: ".toList <+: ("TRACE: trying " ++ a ++ " for " ++ b ++ " to " ++ c).toList := by
    intro a b c
    have hstart : "TRACE: ".toList <+: "TRACE: trying ".toList := by decide
    simp only [String.toList_append, List.append_assoc]
    exact hstart.trans (List.prefix_append _ _)
  exact hline _ _ _

theorem Event.not_traced_covered (first last : Address f) (n : Nat) : ¬ (covered first last n).Traced := by
  have hline : ∀ a b c : String,
      ¬ "TRACE: ".toList <+: ("DEBUG: " ++ a ++ " to " ++ b ++ " takes " ++ c ++ " blocks").toList := by
    intro a b c h
    simp at h
  exact hline _ _ _

namespace Range

/-! ## The trials of a search -/

/-- What a search from `first` to `last` looks at until it finds `b`: the blocks around `first` with prefixes from one bit
up to the prefix of `b`. -/
def trials (b : Block f) (first last : Address f) : List Event :=
  List.ofFn fun k : Fin b.prefixLength =>
    .trying (.around first (k + 1) (Nat.le_trans k.isLt b.prefixLength_le)) first last

@[simp] theorem length_trials (b : Block f) (first last : Address f) : (trials b first last).length = b.prefixLength :=
  List.length_ofFn

theorem getElem?_trials {k : Nat} (hk : k < b.prefixLength) :
    (trials b first last)[k]? =
      some (.trying (.around first (k + 1) (Nat.le_trans hk b.prefixLength_le)) first last) := by
  rw [trials, List.getElem?_ofFn, dif_pos hk]

theorem countP_trials (b : Block f) (first last : Address f) :
    (trials b first last).countP (·.Traced) = b.prefixLength := by
  rw [List.countP_eq_length.2, length_trials]
  intro e he
  obtain ⟨k, rfl⟩ := List.mem_ofFn.1 he
  exact decide_eq_true (Event.traced_trying _ _ _)

/-- From a prefix of `p` bits on a search that finds `b` makes the trials of `b` that are left. -/
theorem search_events {n p : Nat} (hp : 1 ≤ p) (hn : p + n = f.bits + 1)
    (h : (search first last (List.range' p n)).outcome = .ok b) :
    p ≤ b.prefixLength ∧ (search first last (List.range' p n)).events = (trials b first last).drop (p - 1) := by
  induction n generalizing p with
  | zero => cases h
  | succ n ih =>
    have hpb : p ≤ f.bits := by omega
    rw [List.range'_succ, search_cons hpb] at h ⊢
    rw [Attempt.outcome_bind_ok (Attempt.outcome_lift _)] at h
    rw [Attempt.events_bind_ok (Attempt.outcome_lift _)]
    -- the trial at `p` comes first of those that are left
    have htrial : p ≤ b.prefixLength → (trials b first last).drop (p - 1) =
        .trying (.around first p hpb) first last :: (trials b first last).drop p := by
      intro hle
      rw [List.drop_eq_getElem?_toList_append, getElem?_trials (by omega)]
      simp only [Nat.sub_add_cancel hp]
      rfl
    split at h
    · rw [Attempt.outcome_pure, Except.ok.injEq] at h
      subst h
      refine ⟨Nat.le_refl _, ?_⟩
      rw [htrial (Nat.le_refl _), List.drop_of_length_le (by rw [length_trials]; exact Nat.le_refl _)]
      rw [if_pos ‹_›]
      rfl
    · obtain ⟨hle, hrest⟩ := ih (by omega) (by omega) h
      refine ⟨by omega, ?_⟩
      rw [htrial (by omega), if_neg ‹_›, hrest]
      rfl

theorem fit_events (h : LargestFit first last b) : (fit first last).events = trials b first last := by
  obtain ⟨c, hc, hfit⟩ := search_outcome h.first_le_last f.bits 1 (Nat.le_refl _) (Nat.add_comm _ _) fun c hc _ _ => hc
  obtain rfl := h.unique hfit
  rw [fit, if_neg h.first_le_last.not_gt, Attempt.events_bind_ok hc,
    (search_events (Nat.le_refl _) (Nat.add_comm _ _) hc).2]
  exact List.append_nil _

theorem LargestFit.findBetween_events (h : LargestFit first last b) :
    (findBetween ⟨f, first⟩ ⟨f, last⟩).events = trials b first last := by
  rw [findBetween, AnyAddress.pair?_same, Attempt.events_bind_ok (fit_outcome_of_largest h), fit_events h]
  exact List.append_nil _

theorem LargestFit.around_eq (h : LargestFit first last b) {p : Nat} (hp : p ≤ f.bits) (heq : p = b.prefixLength) :
    Block.around first p hp = b := by
  subst heq
  refine Block.ext ?_ rfl h.hostMask.symm
  rw [Block.base_around, ← h.base, b.base_aligned]

/-- The trials of a search end with the block that it finds. -/
theorem LargestFit.getLast?_trials (h : LargestFit first last b) :
    (trials b first last).getLast? = some (.trying b first last) := by
  have hpos := h.prefixLength_pos
  rw [List.getLast?_eq_getElem?, length_trials, getElem?_trials (by omega), h.around_eq _ (Nat.sub_add_cancel hpos)]

/-! ## The trials of a cover -/

theorem Greedy.events {start : Address f} {blocks : List (Block f)} (h : Greedy last start blocks) :
    (coverFrom start last).events = blocks.flatMap fun b => trials b b.base last := by
  induction h with
  | @done start b hb hl =>
    rw [coverFrom, Attempt.events_bind_ok (fit_outcome_of_largest hb), fit_events hb]
    simp [hl, hb.base]
  | @more start next b rest hb hn h ih =>
    have hout := coverFrom_outcome_of_greedy h
    have hopen : ¬ last ≤ b.broadcast := ((Address.lt_of_next? hn).trans_le h.tiling.first_le_last).not_ge
    have hstart : start < next := (hb.base ▸ b.base_le_broadcast).trans_lt (Address.lt_of_next? hn)
    rw [coverFrom, Attempt.events_bind_ok (fit_outcome_of_largest hb), fit_events hb]
    simp only [if_neg hopen, hn, dif_pos hstart]
    rw [Attempt.events_bind_ok hout, ih, List.flatMap_cons, hb.base, Attempt.events_pure, List.append_nil]

theorem coverRange_events {blocks : List (Block f)} (h : Greedy last first blocks) :
    (coverRange ⟨f, first⟩ ⟨f, last⟩).events =
      (blocks.flatMap fun b => trials b b.base last) ++ [.covered first last blocks.length] := by
  have htold : (cover first last).events = (coverFrom first last).events ++ [.covered first last blocks.length] := by
    rw [cover, Attempt.events_bind_ok (coverFrom_outcome_of_greedy h)]
    rfl
  rw [coverRange, AnyAddress.pair?_same, Attempt.events_bind_ok (cover_outcome_of_greedy h), htold, h.events]
  exact List.append_nil _

/-- The trials of a cover are those of the searches that find its blocks in what is left of the range. -/
theorem Greedy.flatMap_trials {blocks : List (Block f)} (h : Greedy last first blocks) :
    (blocks.flatMap fun b => trials b b.base last) =
      (blocks.map (⟨f, ·⟩) : List AnyBlock).flatMap fun b => (findBetween b.base ⟨f, last⟩).events := by
  rw [List.flatMap_map]
  refine List.flatMap_congr fun b hb => ?_
  exact (h.largestFit b hb).findBetween_events.symm

theorem countP_flatMap_trials (blocks : List (Block f)) (last : Address f) :
    (blocks.flatMap fun b => trials b b.base last).countP (·.Traced) =
      ((blocks.map (⟨f, ·⟩) : List AnyBlock).map (·.block.prefixLength)).sum := by
  rw [List.countP_flatMap, List.map_map]
  congr 1
  refine List.map_congr_left fun b _ => ?_
  exact countP_trials b b.base last

/-! ## Searches and covers of either family -/

/-- Two addresses are the ends of a range of one family, or a search and a cover refuse them without a look. -/
theorem range_or_refused (x y : AnyAddress) :
    (∃ (f : Family) (first last : Address f), x = ⟨f, first⟩ ∧ y = ⟨f, last⟩ ∧ first ≤ last) ∨
      findBetween x y = throw .noValidRange ∧ coverRange x y = throw .noValidRange := by
  by_cases hfamily : x.family = y.family
  · obtain ⟨f, first⟩ := x
    obtain ⟨g, last⟩ := y
    obtain rfl : f = g := hfamily
    rcases le_or_gt first last with h | h
    · exact .inl ⟨f, first, last, rfl, rfl, h⟩
    · have hfit : fit first last = throw .noValidRange := if_pos h
      have hfrom : coverFrom first last = throw .noValidRange := by
        rw [coverFrom, hfit]
        rfl
      rw [findBetween, coverRange, AnyAddress.pair?_same]
      simp only [cover, hfit, hfrom]
      exact .inr ⟨rfl, rfl⟩
  · rw [findBetween, coverRange, AnyAddress.pair?_eq_none hfamily]
    exact .inr ⟨rfl, rfl⟩

/-- A search that is refused tells nothing, and so does a cover. A search that finds a block tells the blocks around the
first address of each prefix up to the one found. A cover tells what the searches for its blocks tell, each in what is left
of the range, and then how many blocks there are; so it has one fine-grained event for each bit of their prefixes. -/
theorem search_tells_trials :
    (∀ x y e, (findBetween x y).outcome = .error e → (findBetween x y).events = []) ∧
    (∀ x y e, (coverRange x y).outcome = .error e → (coverRange x y).events = []) ∧
    (∀ x y found, (findBetween x y).outcome = .ok found → ∃ (f : Family) (first last : Address f) (b : Block f),
      x = ⟨f, first⟩ ∧ y = ⟨f, last⟩ ∧ found.1 = ⟨f, b⟩ ∧ (findBetween x y).events = trials b first last ∧
      (findBetween x y).events.countP (·.Traced) = b.prefixLength ∧
      (findBetween x y).events.getLast? = some (.trying b first last)) ∧
    ∀ x y blocks, (coverRange x y).outcome = .ok blocks → ∃ (f : Family) (first last : Address f),
      x = ⟨f, first⟩ ∧ y = ⟨f, last⟩ ∧
      (coverRange x y).events =
        (blocks.flatMap fun b => (findBetween b.base y).events) ++ [.covered first last blocks.length] ∧
      (coverRange x y).events.countP (·.Traced) = (blocks.map (·.block.prefixLength)).sum := by
  refine ⟨fun x y e hout => ?_, fun x y e hout => ?_, fun x y found hout => ?_, fun x y blocks hout => ?_⟩ <;>
    obtain ⟨f, first, last, rfl, rfl, h⟩ | ⟨hfind, hcover⟩ := range_or_refused x y
  · obtain ⟨b, hb, -⟩ := fit_outcome h
    rw [findBetween_outcome hb] at hout
    cases hout
  · rw [hfind]
    rfl
  · obtain ⟨blocks, hblocks, -⟩ := cover_outcome h
    rw [coverRange_outcome hblocks] at hout
    cases hout
  · rw [hcover]
    rfl
  · obtain ⟨b, hb, -⟩ := fit_outcome h
    rw [findBetween_outcome hb, Except.ok.injEq] at hout
    subst hout
    have hevents := hb.findBetween_events
    refine ⟨f, first, last, b, rfl, rfl, rfl, hevents, ?_, ?_⟩
    · rw [hevents, countP_trials]
    · rw [hevents, hb.getLast?_trials]
  · rw [hfind] at hout
    cases hout
  · obtain ⟨found, hfound, hgreedy⟩ := cover_outcome h
    rw [coverRange_outcome hfound, Except.ok.injEq] at hout
    subst hout
    have hevents := coverRange_events hgreedy
    refine ⟨f, first, last, rfl, rfl, ?_, ?_⟩
    · rw [hevents, hgreedy.flatMap_trials, List.length_map]
    · rw [hevents, List.countP_append, countP_flatMap_trials,
        List.countP_singleton, if_neg (by simpa using Event.not_traced_covered first last _), Nat.add_zero]
  · rw [hcover] at hout
    cases hout

end Range

end IpSpace
