import IpSpace.Proofs.HostMask.Rank

/-!
# Jumps are integer arithmetic on ranks

`HostMask.add` and `HostMask.sub` split the count at the radix of the boundary byte and carry into, or borrow from, the
bytes above it. On permitted addresses the two stages together add to the rank and take from it, exactly:
* `add_eq` succeeds where the sum is below the capacity,
* `sub_eq` succeeds where the count is at most the rank.

`jump_rank` puts the cases together, with the addresses that are refused and the masks that are.
-/
namespace IpSpace

open MaskedByte (radix)

variable {f : Family}

/-! ## One digit -/

namespace MaskedByte

/-- The carry is the quotient, unless a word is too narrow for it. -/
theorem add?_eq {mask value : UInt8} (h : value.toNat < radix mask) (count : Nat) :
    add? mask value count =
      some (min ((value.toNat + count) / radix mask) Word.max,
        UInt8.ofNat ((value.toNat + count) % radix mask)) := by
  have hr : 0 < radix mask := by omega
  have hsum : value.toNat + count = radix mask * (count / radix mask) + (count % radix mask + value.toNat) := by
    have := Nat.div_add_mod count (radix mask)
    omega
  rw [add?, if_pos h, hsum, Nat.mul_add_div hr, Nat.mul_add_mod]
  rfl

/-- The borrow pays for what the digit lacks. -/
theorem sub?_eq {mask value : UInt8} (h : value.toNat < radix mask) (count : Nat) :
    ∃ borrow digit, sub? mask value count = some (borrow, UInt8.ofNat digit) ∧ digit < radix mask ∧
      digit + count = value.toNat + borrow * radix mask := by
  have hcount := Nat.div_add_mod' count (radix mask)
  have hlt := Nat.mod_lt count (show radix mask > 0 by omega)
  rw [sub?, if_pos h]
  split
  · rename_i hle
    exact ⟨_, _, rfl, by omega, by omega⟩
  · rename_i hgt
    refine ⟨_, _, rfl, by omega, ?_⟩
    rw [Nat.add_mul]; omega

end MaskedByte

namespace HostMask

theorem index_eq_zero_iff {m : HostMask f} {b : Boundary f} (h : m.boundary? = some b) :
    b.index.val = 0 ↔ f.bits < m.length + 8 := by
  obtain ⟨r, hr1, hr8, -, -, hlen⟩ := exists_of_boundary? h
  omega

/-! ## Refusals -/

theorem jump_of_long {m : HostMask f} (h : f.bits < m.length + 8) (a : Address f) (count : Nat) :
    m.add a count = .error .badMaskLength ∧ m.sub a count = .error .badMaskLength := by
  have hbits := f.eight_le_bits
  cases hb : m.boundary? with
  | none => rw [boundary?_eq_none_iff.1 hb] at h; omega
  | some b =>
    have h0 := (index_eq_zero_iff hb).2 h
    rw [add, sub, hb]
    exact ⟨if_pos h0, if_pos h0⟩

theorem jump_of_not_permits {m : HostMask f} (h : m.length + 8 ≤ f.bits) {a : Address f} (hp : ¬ m.Permits a)
    (count : Nat) :
    m.add a count = .error .addressOutOfRange ∧ m.sub a count = .error .addressOutOfRange := by
  cases hb : m.boundary? with
  | none => exact absurd (permits_of_boundary?_none hb a) hp
  | some b =>
    have h0 : ¬ b.index.val = 0 := by rw [index_eq_zero_iff hb]; omega
    rw [add, sub, hb]
    simp [move, h0, hp]

/-! ## Permitted addresses -/

theorem index_le_maxWidth (i : Fin f.bytes) : i.val ≤ BigEndian.maxWidth := by
  have := i.isLt
  cases f <;> simp only [Family.bytes, BigEndian.maxWidth] at * <;> omega

/-- The bytes above the boundary spell less than the largest word. -/
theorem pow_index_le_max (i : Fin f.bytes) : 256 ^ i.val ≤ Word.max := by
  have hi : i.val ≤ 15 := by have := i.isLt; cases f <;> simp only [Family.bytes] at this <;> omega
  exact Nat.le_trans (Nat.pow_le_pow_right (by decide) hi) (by decide)

theorem add_eq {m : HostMask f} (h : m.length + 8 ≤ f.bits) {a : Address f} (hp : m.Permits a) (count : Nat) :
    m.add a count =
      if m.rank a + count < m.capacity then .ok (m.place (m.rank a + count))
      else .error .addressOutOfRange := by
  cases hb : m.boundary? with
  | none =>
    rw [add, hb, rank_of_none hb, capacity_of_none hb, place_of_none hb]
    simp only [Address.add?]
    split <;> rfl
  | some b =>
    have h0 : ¬ b.index.val = 0 := by rw [index_eq_zero_iff hb]; omega
    have hd := ((permits_iff hb).1 hp).1
    have hr := radix_pos hb
    -- the digit sum splits at the radix into a carry and the new digit
    have hdigit := Nat.mod_lt ((a.octet b.index).toNat + count) hr
    have hsum : m.rank a + count =
        (BigEndian.toNat (a.octets.take b.index) + ((a.octet b.index).toNat + count) / radix b.value) *
          radix b.value + ((a.octet b.index).toNat + count) % radix b.value := by
      rw [rank_of_some hb, Nat.add_mul, Nat.add_assoc, Nat.add_assoc, Nat.div_add_mod']
    rw [add, hb, hsum, place_digits hb hdigit, capacity_of_some hb]
    simp only [move, if_neg h0, if_pos hp, MaskedByte.add?_eq hd, BigEndian.add?_eq, a.length_take,
      index_le_maxWidth, true_and]
    generalize ((a.octet b.index).toNat + count) / radix b.value = carry at *
    generalize BigEndian.toNat (a.octets.take b.index) = high at *
    -- the sum fits where the digits above the boundary do, and these cannot hold a carry that is no word
    have hmax := pow_index_le_max b.index
    rcases Nat.lt_or_ge (high + carry) (256 ^ b.index.val) with hlt | hge
    · rw [Nat.min_eq_left (by omega), if_pos hlt, if_pos (two_digits_lt hlt hdigit)]
    · have hover := Nat.mul_le_mul_right (radix b.value) hge
      rw [if_neg (by omega), if_neg (by omega)]

theorem sub_eq {m : HostMask f} (h : m.length + 8 ≤ f.bits) {a : Address f} (hp : m.Permits a) (count : Nat) :
    m.sub a count =
      if count ≤ m.rank a then .ok (m.place (m.rank a - count)) else .error .addressOutOfRange := by
  cases hb : m.boundary? with
  | none =>
    rw [sub, hb, rank_of_none hb, place_of_none hb]
    simp only [Address.sub?]
    split <;> rfl
  | some b =>
    have h0 : ¬ b.index.val = 0 := by rw [index_eq_zero_iff hb]; omega
    have hd := ((permits_iff hb).1 hp).1
    obtain ⟨borrow, digit, hsub, hdigit, hpay⟩ := MaskedByte.sub?_eq hd count
    rw [sub, hb]
    simp only [move, if_neg h0, if_pos hp, hsub, BigEndian.sub?_eq, a.length_take, index_le_maxWidth, true_and]
    rcases Nat.lt_or_ge (BigEndian.toNat (a.octets.take b.index)) borrow with hlack | hpays
    · have hmul := Nat.mul_le_mul_right (radix b.value) (Nat.succ_le_of_lt hlack)
      rw [Nat.succ_mul] at hmul
      have hout : ¬ count ≤ m.rank a := by rw [rank_of_some hb]; omega
      rw [if_neg (by omega), if_neg hout]
    · have hmul := Nat.mul_le_mul_right (radix b.value) hpays
      have hin : count ≤ m.rank a := by rw [rank_of_some hb]; omega
      have hdiff : m.rank a - count =
          (BigEndian.toNat (a.octets.take b.index) - borrow) * radix b.value + digit := by
        rw [rank_of_some hb, Nat.sub_mul]; omega
      rw [if_pos hpays, if_pos hin, hdiff, place_digits hb hdigit]

/-- A jump moves the rank by the count, to the one permitted address there. It fails where there is none, at an
address that is not permitted, and under a mask that begins in the first byte. -/
theorem jump_rank (m : HostMask .v6) (a : Address .v6) (count : Nat) :
    (m.length ≤ 120 →
      (¬ m.Permits a →
        m.add a count = .error .addressOutOfRange ∧ m.sub a count = .error .addressOutOfRange) ∧
      (m.Permits a →
        (m.rank a + count < m.capacity →
          ∃ c, m.add a count = .ok c ∧ ∀ d, m.Permits d ∧ m.rank d = m.rank a + count ↔ d = c) ∧
        (m.capacity ≤ m.rank a + count → m.add a count = .error .addressOutOfRange) ∧
        (count ≤ m.rank a →
          ∃ c, m.sub a count = .ok c ∧ ∀ d, m.Permits d ∧ m.rank d = m.rank a - count ↔ d = c) ∧
        (m.rank a < count → m.sub a count = .error .addressOutOfRange))) ∧
    (120 < m.length → m.add a count = .error .badMaskLength ∧ m.sub a count = .error .badMaskLength) := by
  have hbits : Family.v6.bits = 128 := rfl
  refine ⟨fun hshort => ⟨fun hp => ?_, fun hp => ⟨fun hfits => ?_, fun hover => ?_, fun hin => ?_, fun hunder => ?_⟩⟩,
    fun hlong => jump_of_long (by omega) a count⟩
  · exact jump_of_not_permits (by omega) hp count
  · rw [add_eq (by omega) hp, if_pos hfits]
    exact ⟨_, rfl, fun _ => permits_and_rank_iff hfits⟩
  · rw [add_eq (by omega) hp, if_neg (by omega)]
  · rw [sub_eq (by omega) hp, if_pos hin]
    exact ⟨_, rfl, fun _ => permits_and_rank_iff (Nat.lt_of_le_of_lt (Nat.sub_le _ _) (rank_lt hp))⟩
  · rw [sub_eq (by omega) hp, if_neg (by omega)]

/-- Under a mask of 60 bits the last free value of the boundary byte carries into the byte above and the first masked one
is refused; a mask of 121 bits is refused. -/
theorem jump_rank_carry :
    (∃ c, (⟨60, by decide⟩ : HostMask .v6).add (.ofNat .v6 0x0f00000000000000) 1 = .ok c ∧
      (⟨60, by decide⟩ : HostMask .v6).Permits c ∧ (⟨60, by decide⟩ : HostMask .v6).rank c = 16) ∧
    (⟨60, by decide⟩ : HostMask .v6).add (.ofNat .v6 0x1000000000000000) 1 = .error .addressOutOfRange ∧
    (⟨121, by decide⟩ : HostMask .v6).add .zero 0 = .error .badMaskLength := by
  obtain ⟨c, hadd, hc⟩ := ((jump_rank ⟨60, by decide⟩ (.ofNat .v6 0x0f00000000000000) 1).1 (by decide)).2
    (by decide +kernel) |>.1 (by decide +kernel)
  obtain ⟨hpermits, hrank⟩ := (hc c).2 rfl
  have hstart : (⟨60, by decide⟩ : HostMask .v6).rank (.ofNat .v6 0x0f00000000000000) = 15 := by decide +kernel
  refine ⟨⟨c, hadd, hpermits, by rw [hrank, hstart]⟩, ?_, ?_⟩
  · exact (((jump_rank ⟨60, by decide⟩ (.ofNat .v6 0x1000000000000000) 1).1 (by decide)).1 (by decide +kernel)).1
  · exact ((jump_rank ⟨121, by decide⟩ .zero 0).2 (by decide)).1

end HostMask

end IpSpace
