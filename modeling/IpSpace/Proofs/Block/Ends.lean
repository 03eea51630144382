import IpSpace.Proofs.Block.Controlled

/-!
# The first and the last address in use

The ranks that a block controls are a stretch of `2 ^ freeBits` from the rank of its base on. Those in use are the
stretch without its `margin`, which is one rank at either end if the ends are reserved and else none. `first` and `last`
are computed on bytes and numbers; `first_eq` and `last_eq` say that they are the places at the ends of what is in use.
-/
namespace IpSpace

open MaskedByte (radix)

variable {f : Family}

/-- The leading bytes spell what is left of the number without the bytes below. -/
theorem Address.toNat_take (a : Address f) (i : Fin f.bytes) :
    BigEndian.toNat (a.octets.take i) = a.toNat / 256 ^ (f.bytes - i) := by
  have hpos : 0 < 256 ^ (f.bytes - i) := Nat.pow_pos (by decide)
  have hlow := BigEndian.toNat_lt (a.octets.drop i)
  have hsplit := BigEndian.toNat_append (a.octets.take i) (a.octets.drop i)
  rw [List.length_drop, a.length_octets] at hlow hsplit
  rw [List.take_append_drop] at hsplit
  rw [toNat, hsplit, Nat.mul_comm, Nat.mul_add_div hpos, Nat.div_eq_of_lt hlow, Nat.add_zero]

/-- The largest digit of the boundary byte. -/
theorem HostMask.max_eq {m : HostMask f} {b : Boundary f} (h : m.boundary? = some b) :
    b.max = UInt8.ofNat (radix b.value - 1) := by
  have hpos := radix_pos h
  have hle : b.value ≤ 0xff := UInt8.le_iff_toNat_le.2 (Nat.le_of_lt_succ b.value.toNat_lt)
  have hradix : radix b.value ≤ 256 := Nat.sub_le _ _
  rw [Boundary.max, ← UInt8.toNat_inj, UInt8.toNat_sub_of_le _ _ hle, UInt8.toNat_ofNat',
    Nat.mod_eq_of_lt (by omega), radix]
  show 255 - b.value.toNat = 256 - b.value.toNat - 1
  omega

theorem HostMask.length_v4 (m : HostMask .v4) : m.length = 0 := Nat.le_zero.1 m.length_le

namespace Block

/-! ## The margin -/

/-- How many addresses are reserved at either end. -/
def margin (b : Block f) : Nat := if b.ReservesEnds then 1 else 0

theorem reservesEnds_iff (b : Block f) : b.ReservesEnds ↔ f = .v4 ∧ b.prefixLength ≤ 30 := by
  have hbits : Family.v4.bits = 32 := rfl
  cases f with
  | v4 =>
    rw [ReservesEnds, freeBits, b.hostMask.length_v4, hbits]
    exact and_congr_right fun _ => by omega
  | v6 => exact iff_of_false (fun h => by cases h.1) (fun h => by cases h.1)

theorem margin_v6 (b : Block .v6) : b.margin = 0 := if_neg fun h => by cases h.1

/-- Only IPv4 blocks reserve their ends, and they have no host mask. -/
theorem ReservesEnds.boundary?_eq_none {b : Block f} (h : b.ReservesEnds) : b.hostMask.boundary? = none := by
  cases f with
  | v4 => exact HostMask.boundary?_eq_none_iff.2 b.hostMask.length_v4
  | v6 => cases h.1

theorem ReservesEnds.four_le {b : Block f} (h : b.ReservesEnds) : 4 ≤ 2 ^ b.freeBits :=
  show 2 ^ 2 ≤ 2 ^ b.freeBits from Nat.pow_le_pow_right (by decide) h.2

theorem two_mul_margin_lt (b : Block f) : 2 * b.margin < 2 ^ b.freeBits := by
  unfold margin
  split
  · rename_i h
    have hfour := h.four_le
    omega
  · exact Nat.two_pow_pos _

/-! ## The sizes of a block -/

theorem size_eq_two_pow {b : Block f} (h : b.hostMask.boundary? = none) : b.size = 2 ^ b.freeBits := by
  rw [size, Family.span, freeBits, HostMask.boundary?_eq_none_iff.1 h, Nat.sub_zero]

/-- Under a mask the prefix leaves bits free in the boundary byte and in the bytes above it. -/
theorem two_pow_freeBits {b : Block f} {m : Boundary f} (h : b.hostMask.boundary? = some m) :
    2 ^ b.freeBits = 2 ^ (8 * m.index - b.prefixLength) * radix m.value := by
  obtain ⟨r, hr1, hr8, -, hr, hlen⟩ := HostMask.exists_of_boundary? h
  have hi := b.hostMask_fits.le_index h
  rw [hr, ← Nat.pow_add, freeBits]
  congr 1; omega

/-- The block takes all values of the boundary byte and of those below. -/
theorem size_eq_mul {b : Block f} {m : Boundary f} (h : b.hostMask.boundary? = some m) :
    b.size = 2 ^ (8 * m.index - b.prefixLength) * 256 ^ (f.bytes - m.index) := by
  have hi := b.hostMask_fits.le_index h
  have hlt := m.index.isLt
  rw [size, Family.span, show (256 : Nat) = 2 ^ 8 from rfl, ← Nat.pow_mul, ← Nat.pow_add, Family.bits]
  congr 1; omega

/-! ## The ends -/

theorem first_eq (b : Block f) : b.first = b.hostMask.place (b.hostMask.rank b.base + b.margin) := by
  unfold first margin
  split
  · rename_i h
    have hnone := h.boundary?_eq_none
    have hfour := h.four_le
    have hfits := b.rank_base_add_le
    rw [HostMask.rank_of_none hnone, HostMask.capacity_of_none hnone] at hfits
    rw [HostMask.rank_of_none hnone, HostMask.place_of_none hnone, Address.next?, Address.add?, if_pos (by omega)]
    rfl
  · exact (HostMask.place_rank b.base_permits).symm

/-- The rank of the base counts the blocks of this size before it. -/
theorem rank_base_eq (b : Block f) : b.hostMask.rank b.base = b.base.toNat / b.size * 2 ^ b.freeBits := by
  rw [size, b.hostMask_fits.toNat_div_span b.base_permits]
  exact (Nat.div_mul_cancel b.dvd_rank_base).symm

/-- The leading bytes of the broadcast address are the highest in the block, so past them a multiple of the radix
begins. -/
theorem rank_base_add_eq {b : Block f} {m : Boundary f} (h : b.hostMask.boundary? = some m) :
    b.hostMask.rank b.base + 2 ^ b.freeBits =
      (BigEndian.toNat (b.broadcast.octets.take m.index) + 1) * radix m.value := by
  have hpos : 0 < 256 ^ (f.bytes - m.index) := Nat.pow_pos (by decide)
  have hend := b.toNat_broadcast_succ
  have hsteps : 0 < (b.base.toNat / b.size + 1) * 2 ^ (8 * m.index - b.prefixLength) :=
    Nat.mul_pos (Nat.succ_pos _) (Nat.two_pow_pos _)
  rw [← b.base_toNat, ← Nat.succ_mul, size_eq_mul h, ← Nat.mul_assoc, ← size_eq_mul h, Nat.succ_eq_add_one] at hend
  rw [rank_base_eq, ← Nat.succ_mul, two_pow_freeBits h, ← Nat.mul_assoc, Address.toNat_take, Nat.succ_eq_add_one]
  generalize (b.base.toNat / b.size + 1) * 2 ^ (8 * m.index - b.prefixLength) = steps at *
  obtain ⟨k, rfl⟩ := Nat.exists_eq_succ_of_ne_zero (Nat.ne_of_gt hsteps)
  rw [Nat.succ_mul] at hend
  have hdiv : b.broadcast.toNat / 256 ^ (f.bytes - m.index) = k := (Nat.div_eq_iff hpos).2 (by omega)
  rw [hdiv]

theorem last_eq (b : Block f) :
    b.last = b.hostMask.place (b.hostMask.rank b.base + 2 ^ b.freeBits - 1 - b.margin) := by
  have hend := b.toNat_broadcast_succ
  unfold last margin
  split
  · rename_i h
    have hnone := h.boundary?_eq_none
    have hfour := h.four_le
    rw [size_eq_two_pow hnone] at hend
    rw [HostMask.rank_of_none hnone, HostMask.place_of_none hnone, ← hend, Address.previous?, Address.sub?,
      if_pos (by omega)]
    rfl
  · split
    · rename_i hnone
      rw [size_eq_two_pow hnone] at hend
      rw [HostMask.rank_of_none hnone, HostMask.place_of_none hnone, ← hend]
      exact b.broadcast.ofNat_toNat.symm
    · rename_i m hm
      have hpos := HostMask.radix_pos hm
      have hhigh := BigEndian.ofNat_toNat (b.broadcast.octets.take m.index)
      rw [b.broadcast.length_take] at hhigh
      have hdigit : radix m.value - 1 < radix m.value := by omega
      have hplace : b.hostMask.place
          (BigEndian.toNat (b.broadcast.octets.take m.index) * radix m.value + (radix m.value - 1)) =
            .startingWith (BigEndian.ofNat m.index (BigEndian.toNat (b.broadcast.octets.take m.index)) ++
              [UInt8.ofNat (radix m.value - 1)]) := HostMask.place_digits hm hdigit
      rw [hhigh, ← HostMask.max_eq hm] at hplace
      rw [rank_base_add_eq hm, Nat.succ_mul, ← hplace]
      congr 1; omega

theorem first_permits (b : Block f) : b.hostMask.Permits b.first := by
  rw [first_eq]; exact b.hostMask.permits_place _

theorem rank_first (b : Block f) : b.hostMask.rank b.first = b.hostMask.rank b.base + b.margin := by
  have hmargin := b.two_mul_margin_lt
  have hfits := b.rank_base_add_le
  rw [first_eq, HostMask.rank_place (by omega)]

theorem last_permits (b : Block f) : b.hostMask.Permits b.last := by
  rw [last_eq]; exact b.hostMask.permits_place _

theorem rank_last (b : Block f) :
    b.hostMask.rank b.last = b.hostMask.rank b.base + 2 ^ b.freeBits - 1 - b.margin := by
  have hmargin := b.two_mul_margin_lt
  have hfits := b.rank_base_add_le
  rw [last_eq, HostMask.rank_place (by omega)]

/-- Without a host mask the broadcast address ends the stretch of the block. -/
theorem rank_broadcast {b : Block f} (h : b.hostMask.boundary? = none) :
    b.hostMask.rank b.broadcast + 1 = b.hostMask.rank b.base + 2 ^ b.freeBits := by
  rw [HostMask.rank_of_none h, HostMask.rank_of_none h, toNat_broadcast_succ, size_eq_two_pow h]

/-! ## The count -/

theorem count_add_le (b : Block f) : b.count + 2 * b.margin ≤ 2 ^ b.freeBits := by
  have hmargin := b.two_mul_margin_lt
  have hcount : b.count ≤ 2 ^ b.freeBits - 2 * b.margin := by
    unfold count margin; split <;> exact Nat.min_le_left _ _
  omega

theorem count_whole {b : Block .v6} (h : b.prefixLength = 0 ∧ b.hostMask = .empty) :
    b.count = 2 ^ Family.v6.bits - 1 := by
  rw [count, freeBits_whole h, if_neg fun hends => by cases hends.1]
  exact Nat.min_eq_right (Nat.sub_le _ _)

/-- The count is exact, save for the whole IPv6 space without a mask. -/
theorem count_eq {b : Block f} (h : ¬ (f = .v6 ∧ b.prefixLength = 0 ∧ b.hostMask = .empty)) :
    b.count = 2 ^ b.freeBits - 2 * b.margin := by
  have hcount : b.count = min (2 ^ b.freeBits - 2 * b.margin) (2 ^ f.bits - 1) := by
    unfold count margin; split <;> rfl
  have hle : 2 ^ b.freeBits ≤ 2 ^ f.bits :=
    Nat.pow_le_pow_right (by decide) (by rw [freeBits, Nat.sub_sub]; exact Nat.sub_le _ _)
  rw [hcount]
  apply Nat.min_eq_left
  by_cases hends : b.ReservesEnds
  · rw [margin, if_pos hends]; omega
  · have hfree : b.freeBits < f.bits := by
      cases f with
      | v4 => exact Nat.lt_of_not_le fun hlong => hends ⟨rfl, Nat.lt_of_lt_of_le (by decide) hlong⟩
      | v6 => exact freeBits_lt fun hwhole => h ⟨rfl, hwhole⟩
    have hlt := Nat.pow_lt_pow_right (show 1 < 2 by decide) hfree
    omega

end Block

end IpSpace
