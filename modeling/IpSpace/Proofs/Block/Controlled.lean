import IpSpace.Proofs.Block.Interval
import IpSpace.Proofs.HostMask.Stretch

/-!
# The addresses that a block controls

A host mask that fits a block begins below the prefix, so the prefix is part of the rank: a permitted address is in the
block when its rank is in a stretch of `2 ^ freeBits` ranks that begins at the rank of the base (`controls_iff`). The
base itself is permitted (`base_permits`), and the stretch lies below the capacity (`rank_base_add_le`).

`controlled` lists these addresses in ascending order. They are the places of a stretch of ranks, which gives
`controlled_eq` and, with the last address of the whole space left out as the count does, `listable_eq`.
-/
namespace IpSpace

open MaskedByte (radix)

variable {f : Family}

/-- Bytes past the kept bits are zero. -/
theorem Bytes.drop_clearAfter {n i : Nat} (h : n ≤ 8 * i) (bytes : List UInt8) :
    (clearAfter n bytes).drop i = List.replicate (bytes.length - i) 0 := by
  induction bytes generalizing n i with
  | nil => simp [clearAfter]
  | cons byte bytes ih =>
    cases i with
    | zero =>
      obtain rfl : n = 0 := by omega
      have hzero : byte &&& leading 0 = 0 := UInt8.and_zero
      rw [clearAfter, hzero, List.drop_zero, ← List.drop_zero (l := clearAfter _ _), ih (Nat.le_refl 0)]
      rfl
    | succ i =>
      rw [clearAfter, List.drop_succ_cons, ih (by omega), List.length_cons, Nat.add_sub_add_right]

/-- Dividing a number of two digits by a multiple of the radix drops the low digit. -/
theorem two_digits_div {hi lo r q : Nat} (h : lo < r) : (hi * r + lo) / (r * q) = hi / q := by
  rw [← Nat.div_div_eq_div_mul, Nat.mul_comm, Nat.mul_add_div (by omega), Nat.div_eq_of_lt h, Nat.add_zero]

namespace HostMask

/-! ## Masks that fit -/

/-- The prefix ends above the byte where the mask begins. -/
theorem Fits.le_index {m : HostMask f} {n : Nat} (h : m.Fits n) {b : Boundary f} (hb : m.boundary? = some b) :
    n ≤ 8 * b.index := by
  obtain ⟨hsum, hvalue, -⟩ := h b hb
  obtain ⟨r, hr1, hr8, hv, hr, hlen⟩ := exists_of_boundary? hb
  rcases hvalue with hff | hle
  · have hradix : radix b.value = 1 := by rw [hff]; rfl
    rw [hr, Nat.pow_eq_one] at hradix
    omega
  · exact hle

/-- On permitted addresses the prefix is the same part of the rank as of the number. -/
theorem Fits.toNat_div_span {m : HostMask f} {n : Nat} (h : m.Fits n) {a : Address f} (ha : m.Permits a) :
    a.toNat / f.span n = m.rank a / 2 ^ (f.bits - n - m.length) := by
  cases hb : m.boundary? with
  | none => rw [rank_of_none hb, boundary?_eq_none_iff.1 hb]; rfl
  | some b =>
    obtain ⟨r, hr1, hr8, -, hr, hlen⟩ := exists_of_boundary? hb
    have hi := h.le_index hb
    have hpos := b.index.isLt
    have hlow := two_digits_lt (a.octet b.index).toNat_lt (BigEndian.toNat_lt (a.octets.drop (b.index + 1)))
    have hspan : f.span n = 2 ^ 8 * 256 ^ (f.bytes - 1 - b.index) * 2 ^ (8 * b.index - n) := by
      rw [Family.span, show (256 : Nat) = 2 ^ 8 from rfl, ← Nat.pow_mul, ← Nat.pow_add, ← Nat.pow_add, Family.bits]
      congr 1; omega
    have hfree : 2 ^ (f.bits - n - m.length) = radix b.value * 2 ^ (8 * b.index - n) := by
      rw [hr, ← Nat.pow_add]
      congr 1; omega
    rw [List.length_drop, a.length_octets, show f.bytes - (b.index + 1) = f.bytes - 1 - b.index by omega] at hlow
    rw [rank_of_some hb, hfree, two_digits_div ((permits_iff hb).1 ha).1, hspan, a.toNat_eq b.index, Nat.add_mul,
      Nat.mul_assoc, Nat.add_assoc, two_digits_div hlow]

end HostMask

/-! ## The stretch of a block -/

namespace Block

theorem base_permits (b : Block f) : b.hostMask.Permits b.base := by
  cases hb : b.hostMask.boundary? with
  | none => exact HostMask.permits_of_boundary?_none hb _
  | some bd =>
    have hi := bd.index.isLt
    have haligned : Bytes.clearAfter b.prefixLength b.base.octets = b.base.octets :=
      congrArg Address.octets b.base_aligned
    have hzero := Bytes.drop_clearAfter (b.hostMask_fits.le_index hb) b.base.octets
    rw [haligned, b.base.length_octets] at hzero
    rw [b.base.drop_octets bd.index, show f.bytes - bd.index = f.bytes - (bd.index + 1) + 1 by omega, List.replicate_succ,
      List.cons.injEq] at hzero
    rw [HostMask.permits_iff hb, hzero.1]
    exact ⟨HostMask.radix_pos hb, hzero.2⟩

theorem contains_iff_rank_div {b : Block f} {a : Address f} (ha : b.hostMask.Permits a) :
    b.Contains a ↔ b.hostMask.rank a / 2 ^ b.freeBits = b.hostMask.rank b.base / 2 ^ b.freeBits := by
  rw [contains_iff_div, size, b.hostMask_fits.toNat_div_span ha, b.hostMask_fits.toNat_div_span b.base_permits]
  rfl

/-- No permitted address of the block is below the base, so its rank begins a stretch. -/
theorem dvd_rank_base (b : Block f) : 2 ^ b.freeBits ∣ b.hostMask.rank b.base := by
  have hpos := Nat.two_pow_pos b.freeBits
  have hle := Nat.div_mul_le_self (b.hostMask.rank b.base) (2 ^ b.freeBits)
  have hrank := HostMask.rank_place (Nat.lt_of_le_of_lt hle (HostMask.rank_lt b.base_permits))
  have hpermits := b.hostMask.permits_place (b.hostMask.rank b.base / 2 ^ b.freeBits * 2 ^ b.freeBits)
  have hin : b.Contains (b.hostMask.place (b.hostMask.rank b.base / 2 ^ b.freeBits * 2 ^ b.freeBits)) := by
    rw [contains_iff_rank_div hpermits, hrank, Nat.mul_div_cancel _ hpos]
  have hmin := (contains_iff_between.1 hin).1
  rw [HostMask.le_iff_rank_le b.base_permits hpermits, hrank] at hmin
  exact ⟨_, by rw [Nat.mul_comm]; exact Nat.le_antisymm hmin hle⟩

theorem rank_base_add_le (b : Block f) : b.hostMask.rank b.base + 2 ^ b.freeBits ≤ b.hostMask.capacity := by
  obtain ⟨q, hq⟩ := b.dvd_rank_base
  have hlt := HostMask.rank_lt b.base_permits
  have hdvd : 2 ^ b.freeBits ∣ b.hostMask.capacity := by
    rw [HostMask.capacity_eq]
    exact Nat.pow_dvd_pow 2 (by rw [freeBits]; omega)
  obtain ⟨c, hc⟩ := hdvd
  rw [hq, hc] at hlt ⊢
  rw [← Nat.mul_succ]
  exact Nat.mul_le_mul_left _ (Nat.lt_of_mul_lt_mul_left hlt)

theorem controls_iff {b : Block f} {a : Address f} :
    b.Controls a ↔ b.hostMask.Permits a ∧ b.hostMask.rank b.base ≤ b.hostMask.rank a ∧
      b.hostMask.rank a < b.hostMask.rank b.base + 2 ^ b.freeBits := by
  have hpos := Nat.two_pow_pos b.freeBits
  have hbase := Nat.div_mul_cancel b.dvd_rank_base
  rw [Controls, and_comm]
  refine and_congr_right fun ha => ?_
  rw [contains_iff_rank_div ha, Nat.div_eq_iff hpos, hbase]
  omega

end Block

/-! ## The list -/

namespace Address

variable (f) in
/-- All addresses of the family in ascending order. -/
def all : List (Address f) := (List.range (2 ^ f.bits)).map (ofNat f)

theorem mem_all (a : Address f) : a ∈ all f :=
  List.mem_map.2 ⟨a.toNat, List.mem_range.2 a.toNat_lt, a.ofNat_toNat⟩

theorem pairwise_all : (all f).Pairwise (· < ·) := by
  rw [all, List.pairwise_map]
  refine List.Pairwise.imp_of_mem ?_ List.pairwise_lt_range
  intro i j hi hj hij
  rw [List.mem_range] at hi hj
  rwa [lt_iff_toNat_lt, toNat_ofNat_of_lt hi, toNat_ofNat_of_lt hj]

end Address

namespace Block

/-- The addresses that the block controls, in ascending order. -/
def controlled (b : Block f) : List (Address f) := (Address.all f).filter (b.Controls ·)

theorem mem_controlled {b : Block f} {a : Address f} : a ∈ b.controlled ↔ b.Controls a := by
  simp [controlled, Address.mem_all]

theorem pairwise_controlled (b : Block f) : b.controlled.Pairwise (· < ·) := Address.pairwise_all.filter _

theorem controlled_eq (b : Block f) :
    b.controlled = (List.range' (b.hostMask.rank b.base) (2 ^ b.freeBits)).map b.hostMask.place := by
  refine HostMask.eq_map_place b.rank_base_add_le b.pairwise_controlled fun a => ?_
  rw [mem_controlled, controls_iff]

/-- The controlled addresses, save the last of the whole space: there the count falls one short. -/
def listable (b : Block f) : List (Address f) :=
  if b.prefixLength = 0 ∧ b.hostMask = .empty then b.controlled.filter (· ≠ .ones) else b.controlled

theorem mem_listable {b : Block f} {a : Address f} :
    a ∈ b.listable ↔ b.Controls a ∧ ¬ (b.prefixLength = 0 ∧ b.hostMask = .empty ∧ a = .ones) := by
  unfold listable
  split
  · rename_i hwhole
    simp [mem_controlled, hwhole]
  · rename_i hpart
    rw [mem_controlled, iff_self_and]
    exact fun _ h => hpart ⟨h.1, h.2.1⟩

theorem pairwise_listable (b : Block f) : b.listable.Pairwise (· < ·) := by
  unfold listable
  split
  · exact b.pairwise_controlled.filter _
  · exact b.pairwise_controlled

theorem freeBits_whole {b : Block f} (h : b.prefixLength = 0 ∧ b.hostMask = .empty) : b.freeBits = f.bits := by
  rw [freeBits, h.1, h.2]; rfl

/-- Only the whole space without a mask has all bits free. -/
theorem freeBits_lt {b : Block f} (h : ¬ (b.prefixLength = 0 ∧ b.hostMask = .empty)) : b.freeBits < f.bits := by
  have hpos := f.one_le_bits
  rw [freeBits]
  by_cases hshort : b.prefixLength = 0
  · have hlength : b.hostMask.length ≠ 0 := by
      intro hzero
      exact h ⟨hshort, HostMask.ext hzero⟩
    omega
  · omega

theorem listable_eq {b : Block f} (h : ¬ b.ReservesEnds) :
    b.listable = (List.range' (b.hostMask.rank b.base) b.count).map b.hostMask.place := by
  have hpow : 0 < 2 ^ f.bits := Nat.two_pow_pos _
  have hadd := b.rank_base_add_le
  rw [count, if_neg h, Nat.sub_zero]
  by_cases hwhole : b.prefixLength = 0 ∧ b.hostMask = .empty
  · have hnone : b.hostMask.boundary? = none := by rw [hwhole.2]; rfl
    have hfree := freeBits_whole hwhole
    rw [hfree, Nat.min_eq_right (Nat.sub_le _ _)]
    rw [hfree, HostMask.capacity_of_none hnone] at hadd
    refine HostMask.eq_map_place (by rw [HostMask.capacity_of_none hnone]; omega) b.pairwise_listable fun a => ?_
    have ha := a.toNat_lt
    have hlast : ¬ (b.prefixLength = 0 ∧ b.hostMask = .empty ∧ a = .ones) ↔ a.toNat ≠ 2 ^ f.bits - 1 := by
      rw [← Address.toNat_ones, ne_eq, Address.toNat_inj]
      simp [hwhole]
    rw [mem_listable, controls_iff, hlast, hfree, HostMask.rank_of_none hnone a, and_assoc]
    refine and_congr_right fun _ => ?_
    omega
  · have hlt := Nat.pow_lt_pow_right (show 1 < 2 by decide) (freeBits_lt hwhole)
    rw [Nat.min_eq_left (by omega), listable, if_neg hwhole]
    exact b.controlled_eq

end Block

end IpSpace
