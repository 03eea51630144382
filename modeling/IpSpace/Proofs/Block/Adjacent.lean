import IpSpace.Block.Navigation
import IpSpace.Proofs.Block.Interval

/-!
# The blocks next to a block

`nextBlock` and `previousBlock` build a block of any prefix around the address just past an end of a block.
* `moved_ok_iff`: building gives the one block of that prefix and mask around the address.
* `base_eq_or_encloses`, `broadcast_eq_or_encloses`: a block around the address past an end begins or ends there, unless its
  prefix is shorter and it encloses the block that it was to lie beside (`encloses_of_straddles`).

At the ends of the address space there is no address further on, and the block is built around the end. Everywhere else a
step to a block of the same prefix and a step back lead to where they began (`next_previous`, `previous_next`).
-/
namespace IpSpace.Block

variable {f : Family} {b c : Block f} {p : Nat} {a : Address f}

/-! ## The block around an address -/

theorem moved_ok_iff :
    (b.moved a p).outcome = .ok c ↔ c.prefixLength = p ∧ c.hostMask = b.hostMask ∧ c.Contains a := by
  constructor
  · intro h
    obtain ⟨hbase, rfl, hm⟩ := ofMask_ok h
    exact ⟨rfl, hm, hbase.symm⟩
  · rintro ⟨rfl, hm, hc⟩
    obtain ⟨d, hd, hbase, hp, hmask⟩ := exists_ofMask_eq a c.prefixLength_le c.hostMask_fits
    have hdc : d = c := Block.ext (hbase.trans hc) hp hmask
    rw [moved, ← hm, hd, hdc]
    rfl

theorem exists_moved (hp : p ≤ f.bits) (hm : b.hostMask.Fits p) (a : Address f) :
    ∃ c, (b.moved a p).outcome = .ok c := by
  obtain ⟨c, hc, -⟩ := exists_ofMask_eq a hp hm
  exact ⟨c, by rw [moved, hc]; rfl⟩

theorem moved_refused_iff :
    (b.moved a p).outcome = .error .badMaskLength ↔ f.bits < p ∨ ¬ b.hostMask.Fits p := by
  rw [← Nat.not_le, ← not_and_or]
  constructor
  · intro hout ⟨hp, hm⟩
    obtain ⟨c, hc⟩ := exists_moved hp hm a
    rw [hout] at hc
    cases hc
  · exact ofMask_refused a

/-! ## Past an end -/

/-- A block with an address of `b` and one beside is larger than `b`: otherwise it would lie inside. -/
theorem encloses_of_straddles {e : Address f} (ha : ¬ b.Contains a) (he : b.Contains e) (hca : c.Contains a)
    (hce : c.Contains e) : c.prefixLength < b.prefixLength ∧ c.Encloses b := by
  have hp : c.prefixLength < b.prefixLength := by
    by_contra hp
    exact ha ((encloses_of_common (Nat.le_of_not_lt hp) he hce).contains hca)
  exact ⟨hp, encloses_of_common (Nat.le_of_lt hp) hce he⟩

/-- A block around the address past the end of `b` begins there, or is larger than `b` and encloses it. -/
theorem base_eq_or_encloses (ha : a.toNat = b.broadcast.toNat + 1) (hc : c.Contains a) :
    c.base = a ∨ c.prefixLength < b.prefixLength ∧ c.Encloses b := by
  obtain ⟨hlow, hhigh⟩ := contains_iff_between.1 hc
  have hpast : b.broadcast < a := by rw [Address.lt_iff_toNat_lt]; omega
  rcases hlow.eq_or_lt with hbase | hlt
  · exact .inl hbase
  · have hend : c.base ≤ b.broadcast := by
      rw [Address.lt_iff_toNat_lt] at hlt
      rw [Address.le_iff_toNat_le]; omega
    have hout : ¬ b.Contains a := fun h => hpast.not_ge (contains_iff_between.1 h).2
    exact .inr (encloses_of_straddles hout b.contains_broadcast hc
      (contains_iff_between.2 ⟨hend, hpast.le.trans hhigh⟩))

/-- A block around the address before the base of `b` ends there, or is larger than `b` and encloses it. -/
theorem broadcast_eq_or_encloses (ha : b.base.toNat = a.toNat + 1) (hc : c.Contains a) :
    c.broadcast = a ∨ c.prefixLength < b.prefixLength ∧ c.Encloses b := by
  obtain ⟨hlow, hhigh⟩ := contains_iff_between.1 hc
  have hbefore : a < b.base := by rw [Address.lt_iff_toNat_lt]; omega
  rcases hhigh.eq_or_lt with hbroadcast | hlt
  · exact .inl hbroadcast.symm
  · have hend : b.base ≤ c.broadcast := by
      rw [Address.lt_iff_toNat_lt] at hlt
      rw [Address.le_iff_toNat_le]; omega
    have hout : ¬ b.Contains a := fun h => hbefore.not_ge (contains_iff_between.1 h).1
    exact .inr (encloses_of_straddles hout b.contains_base hc
      (contains_iff_between.2 ⟨hlow.trans hbefore.le, hend⟩))

/-! ## Steps between blocks -/

theorem nextBlock_eq_moved (h : b.broadcast.next? = some a) : b.nextBlock p = b.moved a p := by
  rw [nextBlock, h, Option.getD_some]

theorem nextBlock_at_top (h : b.broadcast = .ones) : b.nextBlock p = b.moved .ones p := by
  rw [nextBlock, Address.next?_eq_none_iff.2 h, Option.getD_none, h]

theorem previousBlock_eq_moved (h : b.base.previous? = some a) : b.previousBlock p = b.moved a p := by
  rw [previousBlock, h, Option.getD_some]

theorem previousBlock_at_zero (h : b.base = .zero) : b.previousBlock p = b.moved .zero p := by
  rw [previousBlock, Address.previous?_eq_none_iff.2 h, Option.getD_none, h]

/-- What the block of `p` bits after `b` is: the one around the address past the end of `b`, or around the last address of
all if `b` ends there. -/
structure IsAfter (b : Block f) (p : Nat) (c : Block f) : Prop where
  prefixLength : c.prefixLength = p
  hostMask : c.hostMask = b.hostMask
  at_top : b.broadcast = .ones → c.Contains .ones
  past : b.broadcast ≠ .ones → ∃ a : Address f, a.toNat = b.broadcast.toNat + 1 ∧ c.Contains a ∧
    (b.prefixLength ≤ p → c.base = a) ∧ (p < b.prefixLength → c.Encloses b ∨ c.base = a)

/-- What the block of `p` bits before `b` is: the one around the address before the base of `b`, or around the first address
of all if `b` begins there. -/
structure IsBefore (b : Block f) (p : Nat) (c : Block f) : Prop where
  prefixLength : c.prefixLength = p
  hostMask : c.hostMask = b.hostMask
  at_zero : b.base = .zero → c.Contains .zero
  before : b.base ≠ .zero → ∃ a : Address f, b.base.toNat = a.toNat + 1 ∧ c.Contains a ∧
    (b.prefixLength ≤ p → c.broadcast = a) ∧ (p < b.prefixLength → c.Encloses b ∨ c.broadcast = a)

theorem nextBlock_isAfter (h : (b.nextBlock p).outcome = .ok c) : b.IsAfter p c := by
  obtain ⟨rfl, hm, -⟩ := moved_ok_iff.1 h
  refine ⟨rfl, hm, fun htop => ?_, fun htop => ?_⟩
  · rw [nextBlock_at_top htop, moved_ok_iff] at h
    exact h.2.2
  · obtain ⟨a, ha⟩ := Option.ne_none_iff_exists'.1 (mt Address.next?_eq_none_iff.1 htop)
    rw [nextBlock_eq_moved ha, moved_ok_iff] at h
    have hnat := Address.next?_eq_some_iff.1 ha
    have hcases := base_eq_or_encloses hnat h.2.2
    exact ⟨a, hnat, h.2.2, fun hp => hcases.resolve_right fun hlt => Nat.not_lt.2 hp hlt.1,
      fun _ => hcases.symm.imp_left And.right⟩

theorem previousBlock_isBefore (h : (b.previousBlock p).outcome = .ok c) : b.IsBefore p c := by
  obtain ⟨rfl, hm, -⟩ := moved_ok_iff.1 h
  refine ⟨rfl, hm, fun hzero => ?_, fun hzero => ?_⟩
  · rw [previousBlock_at_zero hzero, moved_ok_iff] at h
    exact h.2.2
  · obtain ⟨a, ha⟩ := Option.ne_none_iff_exists'.1 (mt Address.previous?_eq_none_iff.1 hzero)
    rw [previousBlock_eq_moved ha, moved_ok_iff] at h
    have hnat := Address.previous?_eq_some_iff.1 ha
    have hcases := broadcast_eq_or_encloses hnat h.2.2
    exact ⟨a, hnat, h.2.2, fun hp => hcases.resolve_right fun hlt => Nat.not_lt.2 hp hlt.1,
      fun _ => hcases.symm.imp_left And.right⟩

/-- Below the top of the address space the block before the next one of the same prefix is the block itself. -/
theorem next_previous (h : b.broadcast ≠ .ones) :
    ∃ c, (b.nextBlock b.prefixLength).outcome = .ok c ∧ (c.previousBlock b.prefixLength).outcome = .ok b := by
  obtain ⟨a, ha⟩ := Option.ne_none_iff_exists'.1 (mt Address.next?_eq_none_iff.1 h)
  obtain ⟨c, hc⟩ := exists_moved b.prefixLength_le b.hostMask_fits a
  rw [← nextBlock_eq_moved ha] at hc
  obtain ⟨hp, hm, -, hpast⟩ := nextBlock_isAfter hc
  obtain ⟨d, hd, -, hbase, -⟩ := hpast h
  have hback : c.base.previous? = some b.broadcast := by
    rw [Address.previous?_eq_some_iff, hbase (Nat.le_refl _), hd]
  refine ⟨c, hc, ?_⟩
  rw [previousBlock_eq_moved hback, moved_ok_iff]
  exact ⟨rfl, hm.symm, b.contains_broadcast⟩

/-- Above the bottom of the address space the block after the previous one of the same prefix is the block itself. -/
theorem previous_next (h : b.base ≠ .zero) :
    ∃ c, (b.previousBlock b.prefixLength).outcome = .ok c ∧ (c.nextBlock b.prefixLength).outcome = .ok b := by
  obtain ⟨a, ha⟩ := Option.ne_none_iff_exists'.1 (mt Address.previous?_eq_none_iff.1 h)
  obtain ⟨c, hc⟩ := exists_moved b.prefixLength_le b.hostMask_fits a
  rw [← previousBlock_eq_moved ha] at hc
  obtain ⟨hp, hm, -, hbefore⟩ := previousBlock_isBefore hc
  obtain ⟨d, hd, -, hend, -⟩ := hbefore h
  have hback : c.broadcast.next? = some b.base := by
    rw [Address.next?_eq_some_iff, hend (Nat.le_refl _), hd]
  refine ⟨c, hc, ?_⟩
  rw [nextBlock_eq_moved hback, moved_ok_iff]
  exact ⟨rfl, hm.symm, b.contains_base⟩

/-- A block has neighbours of every prefix that is not too long and goes with its host mask, and of no other. They begin and
end right beside it, unless they are larger and enclose it, or there is nothing beside it; and away from the ends of the
address space the neighbours of its own size lead back to it. -/
theorem neighbours_adjoin (b : Block f) :
    (∀ p, ((b.nextBlock p).outcome = .error .badMaskLength ↔ f.bits < p ∨ ¬ b.hostMask.Fits p) ∧
      ((b.previousBlock p).outcome = .error .badMaskLength ↔ f.bits < p ∨ ¬ b.hostMask.Fits p)) ∧
    (∀ p ≤ f.bits, b.hostMask.Fits p → ∃ c d,
      (b.nextBlock p).outcome = .ok c ∧ b.IsAfter p c ∧ (b.previousBlock p).outcome = .ok d ∧ b.IsBefore p d) ∧
    (b.broadcast ≠ .ones → ∃ c,
      (b.nextBlock b.prefixLength).outcome = .ok c ∧ (c.previousBlock b.prefixLength).outcome = .ok b) ∧
    (b.base ≠ .zero → ∃ c,
      (b.previousBlock b.prefixLength).outcome = .ok c ∧ (c.nextBlock b.prefixLength).outcome = .ok b) := by
  refine ⟨fun p => ⟨moved_refused_iff, moved_refused_iff⟩, fun p hp hm => ?_, next_previous, previous_next⟩
  obtain ⟨c, hc⟩ := exists_moved hp hm (b.broadcast.next?.getD b.broadcast)
  obtain ⟨d, hd⟩ := exists_moved hp hm (b.base.previous?.getD b.base)
  exact ⟨c, d, hc, nextBlock_isAfter hc, hd, previousBlock_isBefore hd⟩

end IpSpace.Block
