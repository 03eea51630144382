import IpSpace.Proofs.Address.Masking
import IpSpace.Proofs.HostMask.Step
import IpSpace.Proofs.HostMask.Stretch

/-!
# Host masks bit by bit

The bytes of a host mask, read backwards, are the mask of as many leading bits (`fill_eq_clearAfter`). So the bits that an
address has under a host mask are those that masking leaves of its bytes read backwards (`and_octets`), and the mask
permits the address if that is nothing (`permits_iff_clearAfter`). This is a second reading of `HostMask.Permits`, which
compares the boundary byte with the largest value of its free bits.

Fewer leading bits of nothing are nothing, so a shorter mask permits what a longer one does (`Permits.of_length_le`).
-/
namespace IpSpace

variable {f : Family}

/-- A byte has no masked bit in use if it is a digit of the radix. -/
theorem and_leading_eq_zero_iff {byte : UInt8} {n : Nat} :
    byte &&& leading n = 0 ↔ byte.toNat < MaskedByte.radix (leading n) := by
  have hpos := Nat.two_pow_pos (8 - n)
  rw [← UInt8.toNat_inj, toNat_and_leading, UInt8.toNat_zero, MaskedByte.radix_leading, Nat.mul_eq_zero,
    Nat.div_eq_zero_iff_lt hpos]
  omega

namespace Bytes

/-- Where no bit is set there is none to clear. -/
theorem forall_mem_clearAfter {bytes : List UInt8} (h : ∀ byte ∈ bytes, byte = 0) (n : Nat) :
    ∀ byte ∈ clearAfter n bytes, byte = 0 := by
  induction bytes generalizing n with
  | nil => exact h
  | cons b bs ih =>
    rw [List.forall_mem_cons] at h
    rw [clearAfter, List.forall_mem_cons, h.1]
    exact ⟨UInt8.zero_and, ih h.2 (n - 8)⟩

end Bytes

namespace HostMask

variable {m n : HostMask f} {a : Address f}

theorem fill_eq_clearAfter (width length : Nat) :
    fill width length = Bytes.clearAfter length (List.replicate width 0xff) := by
  induction width generalizing length with
  | zero => rfl
  | succ width ih =>
    rw [fill, List.replicate_succ, Bytes.clearAfter, ih, Bytes.ones_and]

/-- The bits of an address under a mask. -/
theorem and_octets (m : HostMask f) (a : Address f) :
    List.zipWith (· &&& ·) a.octets m.octets = (Bytes.clearAfter m.length a.octets.reverse).reverse := by
  have hlen : a.octets.reverse.length = f.bytes := by rw [List.length_reverse, a.length_octets]
  have hmask := Bytes.clearAfter_eq_and m.length a.octets.reverse
  rw [hlen, ← fill_eq_clearAfter] at hmask
  rw [hmask, List.reverse_zipWith (by rw [hlen, length_fill]), List.reverse_reverse, octets]

theorem permits_iff_clearAfter :
    m.Permits a ↔ ∀ byte ∈ Bytes.clearAfter m.length a.octets.reverse, byte = 0 := by
  cases hb : m.boundary? with
  | none =>
    rw [boundary?_eq_none_iff.1 hb, Bytes.clearAfter_zero]
    exact iff_of_true (permits_of_boundary?_none hb a) fun _ => List.eq_of_mem_replicate
  | some b =>
    obtain ⟨r, -, hr8, hv, -, hlen⟩ := exists_of_boundary? hb
    have hi := b.index.isLt
    have hbelow : (a.octets.drop (b.index + 1)).length = f.bytes - (b.index + 1) := by
      rw [List.length_drop, a.length_octets]
    have hsplit : a.octets.reverse =
        (a.octets.drop (b.index + 1)).reverse ++ a.octet b.index :: (a.octets.take b.index).reverse := by
      simpa using congrArg List.reverse (a.octets_eq b.index)
    have hbits : m.length = 8 * (a.octets.drop (b.index + 1)).reverse.length + r := by
      rw [Family.bits] at hlen
      rw [List.length_reverse, hbelow]
      omega
    -- the bytes below the boundary stay, `r` bits of the one at it, and nothing of those above it
    rw [hsplit, hbits, Bytes.clearAfter_append, Bytes.clearAfter, Nat.sub_eq_zero_of_le hr8, Bytes.clearAfter_zero,
      List.forall_mem_append, List.forall_mem_cons, permits_iff hb, hv, ← and_leading_eq_zero_iff,
      List.eq_replicate_iff]
    constructor
    · rintro ⟨hdigit, -, hzero⟩
      exact ⟨fun byte hmem => hzero byte (List.mem_reverse.1 hmem), hdigit, fun _ => List.eq_of_mem_replicate⟩
    · rintro ⟨hzero, hdigit, -⟩
      exact ⟨hdigit, hbelow, fun byte hmem => hzero byte (List.mem_reverse.2 hmem)⟩

/-- A mask permits the addresses that have none of its bits. -/
theorem permits_iff_and_octets :
    m.Permits a ↔ ∀ byte ∈ List.zipWith (· &&& ·) a.octets m.octets, byte = 0 := by
  rw [permits_iff_clearAfter, and_octets]
  simp only [List.mem_reverse]

theorem Permits.of_length_le (h : n.length ≤ m.length) (hp : m.Permits a) : n.Permits a := by
  rw [permits_iff_clearAfter] at hp ⊢
  rw [← Nat.min_eq_right h, ← Bytes.clearAfter_clearAfter_min]
  exact Bytes.forall_mem_clearAfter hp n.length

theorem encard_permits (m : HostMask f) : {a | m.Permits a}.encard = (2 ^ (f.bits - m.length) : Nat) := by
  have hall : {a | m.Permits a} = m.stretch 0 m.capacity := by
    ext a
    exact mem_stretch_capacity.symm
  rw [hall, encard_stretch le_rfl (Nat.zero_le _), Nat.sub_zero, capacity_eq]

theorem of_eq_ok {length : Nat} (h : length ≤ f.longestHostMask) : of f length = .ok ⟨length, h⟩ := dif_pos h

/-- There is a mask of each length up to 128 bits. It permits the addresses that have none of its bits, as many as there
are numbers in the bits that it leaves, and each of them is permitted by the shorter masks too. -/
theorem permits_clear_bits {length : Nat} (h : length ≤ 128) :
    ∃ m : HostMask .v6, of .v6 length = .ok m ∧
      (∀ a, m.Permits a ↔ ∀ byte ∈ List.zipWith (· &&& ·) a.octets m.octets, byte = 0) ∧
      {a | m.Permits a}.encard = (2 ^ (128 - length) : Nat) ∧
      ∀ shorter ≤ length, ∃ n : HostMask .v6, of .v6 shorter = .ok n ∧ ∀ a, m.Permits a → n.Permits a :=
  ⟨⟨length, h⟩, of_eq_ok h, fun _ => permits_iff_and_octets, encard_permits _,
    fun shorter hle => ⟨⟨shorter, Nat.le_trans hle h⟩, of_eq_ok _, fun _ => Permits.of_length_le hle⟩⟩

/-- The masks of 60 and of 57 bits begin in the same byte. The largest value that the longer one leaves there has none of
its bits, so both permit it, and the next one is refused. -/
theorem permits_clear_bits_within_byte :
    60 ≤ 128 ∧ 57 ≤ 60 ∧ ∃ m n : HostMask .v6, of .v6 60 = .ok m ∧ of .v6 57 = .ok n ∧
      m.Permits (.ofNat .v6 0x0f00000000000000) ∧ n.Permits (.ofNat .v6 0x0f00000000000000) ∧
      ¬ m.Permits (.ofNat .v6 0x1000000000000000) ∧ {a | m.Permits a}.encard = (2 ^ (128 - 60) : Nat) := by
  obtain ⟨m, hm, hbits, hcard, hshorter⟩ := permits_clear_bits (show 60 ≤ 128 by decide)
  obtain ⟨n, hn, hnested⟩ := hshorter 57 (by decide)
  obtain rfl : ⟨60, by decide⟩ = m := Except.ok.inj ((of_eq_ok (by decide)).symm.trans hm)
  have hlargest := (hbits (.ofNat .v6 0x0f00000000000000)).2 (by decide +kernel)
  exact ⟨by decide, by decide, _, n, hm, hn, hlargest, hnested _ hlargest, mt (hbits _).1 (by decide +kernel), hcard⟩

end HostMask

end IpSpace
