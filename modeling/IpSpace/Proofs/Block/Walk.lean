import IpSpace.Block.Walk
import IpSpace.Proofs.Block.Cursor
import IpSpace.Proofs.HostMask.Shift
import Mathlib.Data.List.Chain

/-!
# Walking a block is listing it

A walk repeats the step to the next usable address, or to the previous one, until the step fails. On ranks a step is one
up or one down inside the stretch in use (`stepUp_place`, `stepDown_place`), so a walk from one end visits the whole
stretch and fails at the other end. A listing counts instead. `walks_visit_listed` says that both see the same
addresses, and how a walk ends. Only the count of the whole IPv6 space is too low by one, so there the walks see one more
address.
-/
namespace IpSpace

variable {f : Family}

/-! ## Walks -/

/-- From `start` on each step leads to the next address visited, and from the last one it fails with `stop`. -/
structure Visits {α ε : Type} (step : α → Except ε α) (start : α) (visited : List α) (stop : ε) : Prop where
  head : visited.head? = some start
  chain : visited.IsChain fun a c => step a = .ok c
  stops : ∃ a, visited.getLast? = some a ∧ step a = .error stop

namespace Visits

variable {α ε : Type} {step : α → Except ε α} {place : Nat → α} {start count : Nat} {stop : ε}

/-- Steps up a stretch, from each place to the next. -/
theorem up (hpos : 0 < count) (hgo : ∀ r, start ≤ r → r + 1 < start + count → step (place r) = .ok (place (r + 1)))
    (hstop : step (place (start + count - 1)) = .error stop) :
    Visits step (place start) ((List.range' start count).map place) stop where
  head := by simp [List.head?_range', Nat.ne_of_gt hpos]
  chain := by
    rw [List.isChain_map]
    refine (List.isChain_range' start count 1).imp_of_mem_imp fun r s hr hs hrs => ?_
    rw [List.mem_range'_1] at hr hs
    rw [hrs]
    exact hgo r hr.1 (by omega)
  stops := ⟨_, by simp [List.getLast?_range', Nat.ne_of_gt hpos], hstop⟩

/-- Steps down a stretch, from each place to the one before. -/
theorem down (hpos : 0 < count) (hgo : ∀ r, start ≤ r → r + 1 < start + count → step (place (r + 1)) = .ok (place r))
    (hstop : step (place start) = .error stop) :
    Visits step (place (start + count - 1)) ((List.range' start count).map place).reverse stop where
  head := by simp [List.getLast?_range', Nat.ne_of_gt hpos]
  chain := by
    rw [List.isChain_reverse, List.isChain_map]
    refine (List.isChain_range' start count 1).imp_of_mem_imp fun r s hr hs hrs => ?_
    rw [List.mem_range'_1] at hr hs
    rw [hrs]
    exact hgo r hr.1 (by omega)
  stops := ⟨_, by simp [List.head?_range', Nat.ne_of_gt hpos], hstop⟩

end Visits

namespace Block

/-- The step to the next address, if that is usable. -/
def stepUp (b : Block f) (a : Address f) : Except Error (Address f) := (b.next a).bind Step.usable

/-- The step to the previous address, if that is usable. -/
def stepDown (b : Block f) (a : Address f) : Except Error (Address f) := (b.previous a).bind Step.usable

/-! ## Steps on ranks -/

section Steps

variable {b : Block f} {r : Nat}

theorem controls_place_iff (hr : r < b.hostMask.capacity) :
    b.Controls (b.hostMask.place r) ↔
      b.hostMask.rank b.base ≤ r ∧ r < b.hostMask.rank b.base + 2 ^ b.freeBits := by
  rw [controls_iff, HostMask.rank_place hr]
  exact and_iff_right (b.hostMask.permits_place r)

/-- A step ends in the block if the rank that it leads to is in the stretch of the block. -/
theorem land_place (hr : r < b.hostMask.capacity) (limit : Address f) (mark : Reserved) :
    b.land (.ok (b.hostMask.place r)) limit mark =
      if b.hostMask.rank b.base ≤ r ∧ r < b.hostMask.rank b.base + 2 ^ b.freeBits then
        .ok ⟨b.hostMask.place r, if b.ReservesEnds ∧ b.hostMask.place r = limit then some mark else none⟩
      else .error .addressAtEndOfRange := by
  have hcontains : b.Contains (b.hostMask.place r) ↔
      b.hostMask.rank b.base ≤ r ∧ r < b.hostMask.rank b.base + 2 ^ b.freeBits := by
    rw [← controls_place_iff hr]
    exact (and_iff_left (b.hostMask.permits_place r)).symm
  simp only [land, hcontains]

theorem next_place (hlo : b.hostMask.rank b.base ≤ r) (hhi : r < b.hostMask.rank b.base + 2 ^ b.freeBits) :
    b.next (b.hostMask.place r) =
      if r + 1 < b.hostMask.rank b.base + 2 ^ b.freeBits then
        .ok ⟨b.hostMask.place (r + 1),
          if b.ReservesEnds ∧ b.hostMask.place (r + 1) = b.broadcast then some .broadcast else none⟩
      else .error .addressAtEndOfRange := by
  have hfits := b.rank_base_add_le
  have hr : r < b.hostMask.capacity := by omega
  rw [next, if_pos ((controls_place_iff hr).2 ⟨hlo, hhi⟩), HostMask.next_eq (b.hostMask.permits_place r),
    HostMask.rank_place hr]
  by_cases hroom : r + 1 < b.hostMask.capacity
  · rw [if_pos hroom, land_place hroom]
    simp only [Nat.le_succ_of_le hlo, true_and]
  · rw [if_neg hroom, if_neg (by omega)]
    rfl

theorem previous_place (hlo : b.hostMask.rank b.base ≤ r) (hhi : r < b.hostMask.rank b.base + 2 ^ b.freeBits) :
    b.previous (b.hostMask.place r) =
      if b.hostMask.rank b.base < r then
        .ok ⟨b.hostMask.place (r - 1),
          if b.ReservesEnds ∧ b.hostMask.place (r - 1) = b.base then some .network else none⟩
      else .error .addressAtEndOfRange := by
  have hfits := b.rank_base_add_le
  have hr : r < b.hostMask.capacity := by omega
  rw [previous, if_pos ((controls_place_iff hr).2 ⟨hlo, hhi⟩), HostMask.previous_eq (b.hostMask.permits_place r),
    HostMask.rank_place hr]
  by_cases hroom : 0 < r
  · rw [if_pos hroom, land_place (by omega)]
    congr 1
    exact propext ⟨fun h => by omega, fun h => by omega⟩
  · rw [if_neg hroom, if_neg (by omega)]
    rfl

/-- Where the ends are reserved, the broadcast address is the last place of the stretch. -/
theorem place_eq_broadcast_iff (h : b.ReservesEnds) (hr : r < b.hostMask.capacity) :
    b.hostMask.place r = b.broadcast ↔ r + 1 = b.hostMask.rank b.base + 2 ^ b.freeBits := by
  have hnone := h.boundary?_eq_none
  have hbroadcast := HostMask.permits_of_boundary?_none hnone b.broadcast
  rw [← HostMask.rank_inj (b.hostMask.permits_place r) hbroadcast, HostMask.rank_place hr, ← rank_broadcast hnone,
    Nat.add_right_cancel_iff]

theorem place_eq_base_iff (hr : r < b.hostMask.capacity) :
    b.hostMask.place r = b.base ↔ r = b.hostMask.rank b.base := by
  rw [← HostMask.rank_inj (b.hostMask.permits_place r) b.base_permits, HostMask.rank_place hr]

/-- What ends a walk: the reserved end, or the end of the block. -/
def stopAt (b : Block f) (reserved : Error) : Error := if b.ReservesEnds then reserved else .addressAtEndOfRange

theorem stepUp_place (hlo : b.hostMask.rank b.base + b.margin ≤ r)
    (hhi : r + b.margin < b.hostMask.rank b.base + 2 ^ b.freeBits) :
    b.stepUp (b.hostMask.place r) =
      if r + 1 + b.margin < b.hostMask.rank b.base + 2 ^ b.freeBits then .ok (b.hostMask.place (r + 1))
      else .error (b.stopAt .broadcastAddress) := by
  have hfits := b.rank_base_add_le
  rw [stepUp, next_place (by omega) (by omega)]
  by_cases hends : b.ReservesEnds
  · have hmargin : b.margin = 1 := if_pos hends
    rw [hmargin] at hhi ⊢
    have hlast := place_eq_broadcast_iff hends (r := r + 1) (by omega)
    rw [if_pos hhi, stopAt, if_pos hends]
    by_cases hroom : r + 1 + 1 < b.hostMask.rank b.base + 2 ^ b.freeBits
    · have hunmarked : ¬ (b.ReservesEnds ∧ b.hostMask.place (r + 1) = b.broadcast) := by
        intro h
        have hend := hlast.1 h.2
        omega
      rw [if_neg hunmarked, if_pos hroom]
      rfl
    · have hmarked : b.hostMask.place (r + 1) = b.broadcast := hlast.2 (by omega)
      rw [if_pos ⟨hends, hmarked⟩, if_neg hroom]
      rfl
  · have hmargin : b.margin = 0 := if_neg hends
    have hunmarked : ¬ (b.ReservesEnds ∧ b.hostMask.place (r + 1) = b.broadcast) := fun h => hends h.1
    rw [hmargin, Nat.add_zero, stopAt, if_neg hends, if_neg hunmarked]
    split <;> rfl

theorem stepDown_place (hlo : b.hostMask.rank b.base + b.margin ≤ r)
    (hhi : r + b.margin < b.hostMask.rank b.base + 2 ^ b.freeBits) :
    b.stepDown (b.hostMask.place r) =
      if b.hostMask.rank b.base + b.margin < r then .ok (b.hostMask.place (r - 1))
      else .error (b.stopAt .networkAddress) := by
  have hfits := b.rank_base_add_le
  rw [stepDown, previous_place (by omega) (by omega)]
  by_cases hends : b.ReservesEnds
  · have hmargin : b.margin = 1 := if_pos hends
    rw [hmargin] at hlo ⊢
    have hfirst := place_eq_base_iff (b := b) (r := r - 1) (by omega)
    rw [if_pos (by omega), stopAt, if_pos hends]
    by_cases hroom : b.hostMask.rank b.base + 1 < r
    · have hunmarked : ¬ (b.ReservesEnds ∧ b.hostMask.place (r - 1) = b.base) := by
        intro h
        have hend := hfirst.1 h.2
        omega
      rw [if_neg hunmarked, if_pos hroom]
      rfl
    · have hmarked : b.hostMask.place (r - 1) = b.base := hfirst.2 (by omega)
      rw [if_pos ⟨hends, hmarked⟩, if_neg hroom]
      rfl
  · have hmargin : b.margin = 0 := if_neg hends
    have hunmarked : ¬ (b.ReservesEnds ∧ b.hostMask.place (r - 1) = b.base) := fun h => hends h.1
    rw [hmargin, Nat.add_zero, stopAt, if_neg hends, if_neg hunmarked]
    split <;> rfl

end Steps

/-! ## Walks of a block -/

/-- The addresses in use, in ascending order. -/
def used (b : Block f) : List (Address f) :=
  (List.range' (b.hostMask.rank b.base + b.margin) (2 ^ b.freeBits - 2 * b.margin)).map b.hostMask.place

theorem visits_up (b : Block f) : Visits b.stepUp b.first b.used (b.stopAt .broadcastAddress) := by
  have hmargin := b.two_mul_margin_lt
  rw [first_eq]
  refine .up (by omega) (fun r hlo hhi => ?_) ?_
  · rw [stepUp_place hlo (by omega), if_pos (by omega)]
  · rw [stepUp_place (by omega) (by omega), if_neg (by omega)]

theorem visits_down (b : Block f) : Visits b.stepDown b.last b.used.reverse (b.stopAt .networkAddress) := by
  have hmargin := b.two_mul_margin_lt
  have hlast : b.hostMask.rank b.base + 2 ^ b.freeBits - 1 - b.margin =
      b.hostMask.rank b.base + b.margin + (2 ^ b.freeBits - 2 * b.margin) - 1 := by omega
  rw [last_eq, hlast]
  refine .down (by omega) (fun r hlo hhi => ?_) ?_
  · rw [stepDown_place (by omega) (by omega), if_pos (by omega), Nat.add_sub_cancel]
  · rw [stepDown_place (by omega) (by omega), if_neg (by omega)]

/-- A listing holds the addresses in use, but for the last one of the whole IPv6 space. -/
theorem used_eq_listed (b : Block f) :
    b.used = (b.list 0 0).toList ++
      if f = .v6 ∧ b.prefixLength = 0 ∧ b.hostMask = .empty then [.ones] else [] := by
  rw [b.list_all_left.toList, rank_first, used]
  split
  · rename_i hwhole
    obtain ⟨rfl, hwhole⟩ := hwhole
    have hnone : b.hostMask.boundary? = none := by rw [hwhole.2]; rfl
    have hfits := b.rank_base_add_le
    have hpow := Nat.two_pow_pos Family.v6.bits
    rw [freeBits_whole hwhole, HostMask.capacity_of_none hnone] at hfits
    have hzero : b.hostMask.rank b.base = 0 := by omega
    have hones : [(Address.ones : Address .v6)] = (List.range' (0 + (2 ^ Family.v6.bits - 1)) 1).map b.hostMask.place := by
      rw [Nat.zero_add, List.range'_one, List.map_singleton, HostMask.place_of_none hnone, ← Address.toNat_ones,
        Address.ofNat_toNat]
    rw [b.margin_v6, hzero, freeBits_whole hwhole, count_whole hwhole, hones, ← List.map_append, List.range'_append_1,
      Nat.sub_add_cancel hpow]
    rfl
  · rename_i hpart
    rw [List.append_nil, count_eq hpart]

/-- The walk up from the first address visits what a listing yields, in order, and the walk down from the last one visits
it in reverse, for the whole IPv6 space without a mask with the highest address on top. The walks of an IPv4 block of at
most 30 bits stop at its reserved ends, all others where the block ends. -/
theorem walks_visit_listed (b : Block f) :
    ∃ listed visited, (b.list 0 0).Yields listed ∧
      visited = listed ++ (if f = .v6 ∧ b.prefixLength = 0 ∧ b.hostMask = .empty then [.ones] else []) ∧
      Visits b.stepUp b.first visited
        (if f = .v4 ∧ b.prefixLength ≤ 30 then .broadcastAddress else .addressAtEndOfRange) ∧
      Visits b.stepDown b.last visited.reverse
        (if f = .v4 ∧ b.prefixLength ≤ 30 then .networkAddress else .addressAtEndOfRange) := by
  have hup := b.visits_up
  have hdown := b.visits_down
  simp only [stopAt, reservesEnds_iff] at hup hdown
  refine ⟨(b.list 0 0).toList, b.used, ?_, b.used_eq_listed, hup, hdown⟩
  rw [b.list_all_left.toList]
  exact b.list_all_left.yields

end Block

end IpSpace
