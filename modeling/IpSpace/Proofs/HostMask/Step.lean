import IpSpace.HostMask.Step
import IpSpace.Proofs.HostMask.Rank

/-!
# Steps move the rank by one

`Direction.scan` works the bytes from the least significant one on. On a permitted address it meets three kinds of bytes
in turn, and each has its lemma:
* bytes that are masked whole, which are zero and are passed over (`scan_masked`),
* the byte at the boundary, a digit of its radix (`scan_digit`),
* the bytes above it, a number in base 256 (`scan_plain`).

`neighbour?` is a step among the numbers below a bound, and `neighbour?_two_digits` says how it is carried from one digit
to the next, in either direction. So a step of an address is one of its rank (`step_eq`), and it fails at the end of the
ranks.
-/
namespace IpSpace

open MaskedByte (radix)

variable {f : Family}

namespace BigEndian

theorem toNat_concat (bytes : List UInt8) (byte : UInt8) : toNat (bytes ++ [byte]) = toNat bytes * 256 + byte.toNat := by
  simp [toNat_append, toNat_cons]

/-- The lowest byte is written last. -/
theorem ofNat_two_digits {width high digit : Nat} (hh : high < 256 ^ width) (hd : digit < 256) :
    ofNat (width + 1) (high * 256 + digit) = ofNat width high ++ [UInt8.ofNat digit] := by
  have hfits : high * 256 + digit < 256 ^ (width + 1) := two_digits_lt hh hd
  refine toNat_inj (by simp) ?_
  rw [toNat_ofNat_of_lt hfits, toNat_concat, toNat_ofNat_of_lt hh, UInt8.toNat_ofNat',
    Nat.mod_eq_of_lt (show digit < 2 ^ 8 from hd)]

end BigEndian

/-- The free bits of a byte are used up when they hold the last digit. -/
theorem or_leading_eq_iff {byte : UInt8} {n : Nat} (h : byte.toNat < radix (leading n)) :
    byte ||| leading n = 0xff ↔ byte.toNat + 1 = radix (leading n) := by
  rw [MaskedByte.radix_leading] at h ⊢
  have hle : 2 ^ (8 - n) ≤ 2 ^ 8 := Nat.pow_le_pow_right (by decide) (Nat.sub_le 8 n)
  -- the digit lies below the bits of the mask, so the two together are their sum
  rw [← UInt8.toNat_inj, UInt8.toNat_or, Nat.or_comm, toNat_leading_shift, ← Nat.shiftLeft_add_eq_or_of_lt h,
    ← toNat_leading_shift, toNat_leading, show (0xff : UInt8).toNat = 255 from rfl]
  omega

namespace Direction

/-! ## Steps of numbers -/

/-- The number one step away, among those below a bound. -/
def neighbour? : Direction → Nat → Nat → Option Nat
  | up, bound, number => if number + 1 < bound then some (number + 1) else none
  | down, _, number => if 0 < number then some (number - 1) else none

/-- The digit that one that is used up turns into. -/
def turn : Direction → Nat → Nat
  | up, _ => 0
  | down, radix => radix - 1

theorem turn_lt (d : Direction) {radix : Nat} (h : 0 < radix) : d.turn radix < radix := by
  cases d <;> simp only [turn] <;> omega

theorem lt_of_neighbour? {d : Direction} {bound number next : Nat} (h : number < bound)
    (hnext : d.neighbour? bound number = some next) : next < bound := by
  cases d <;> simp only [neighbour?, Option.ite_none_right_eq_some, Option.some.injEq] at hnext <;> omega

/-- A step is taken by the low digit, or passed on to the high one if the low one is used up. -/
theorem neighbour?_two_digits (d : Direction) {high digit bound r : Nat} (hh : high < bound) (hd : digit < r) :
    d.neighbour? (bound * r) (high * r + digit) =
      ((d.neighbour? r digit).map (high * r + ·)).or ((d.neighbour? bound high).map (· * r + d.turn r)) := by
  cases d with
  | up =>
    simp only [neighbour?, turn]
    by_cases hlow : digit + 1 < r
    · have hlt := two_digits_lt hh hlow
      rw [if_pos hlow, if_pos (by omega), Nat.add_assoc]
      rfl
    · have hcount : high * r + digit + 1 = (high + 1) * r := by rw [Nat.succ_mul]; omega
      rw [if_neg hlow, hcount]
      by_cases hhigh : high + 1 < bound
      · rw [if_pos hhigh, if_pos (Nat.mul_lt_mul_of_pos_right hhigh (by omega))]
        rfl
      · have hover := Nat.mul_le_mul_right r (Nat.le_of_not_lt hhigh)
        rw [if_neg hhigh, if_neg (by omega)]
        rfl
  | down =>
    simp only [neighbour?, turn]
    by_cases hlow : 0 < digit
    · rw [if_pos hlow, if_pos (by omega), Nat.add_sub_assoc hlow]
      rfl
    · rw [if_neg hlow]
      by_cases hhigh : 0 < high
      · have hmul := Nat.mul_le_mul_right r hhigh
        rw [if_pos hhigh, if_pos (by omega)]
        simp only [Option.map_none, Option.map_some, Option.none_or, Option.some.injEq, Nat.sub_mul]
        omega
      · rw [if_neg hhigh, Nat.eq_zero_of_not_pos hhigh, Nat.zero_mul, if_neg (by omega)]
        rfl

/-! ## Kinds of bytes -/

/-- What a byte is reset to is its digit after the turn. -/
theorem reset_leading (d : Direction) (n : Nat) : d.reset (leading n) = UInt8.ofNat (d.turn (radix (leading n))) := by
  cases d with
  | up => rfl
  | down =>
    have hle : leading n ≤ 0xff := UInt8.le_iff_toNat_le.2 (Nat.le_of_lt_succ (leading n).toNat_lt)
    have hradix : radix (leading n) ≤ 256 := Nat.sub_le _ _
    have hpos := Nat.two_pow_pos (8 - n)
    rw [← MaskedByte.radix_leading] at hpos
    rw [reset, turn, ← UInt8.toNat_inj, UInt8.toNat_sub_of_le _ _ hle, UInt8.toNat_ofNat',
      Nat.mod_eq_of_lt (by omega), radix]
    show 255 - (leading n).toNat = 256 - (leading n).toNat - 1
    omega

/-- A byte that is used up has no neighbour in the direction of the step, and any other takes it. -/
theorem neighbour?_radix (d : Direction) {n : Nat} {byte : UInt8} (h : byte.toNat < radix (leading n)) :
    (d.neighbour? (radix (leading n)) byte.toNat).map UInt8.ofNat =
      if d.UsedUp (leading n) byte then none else some (d.take byte) := by
  cases d with
  | up =>
    have hused : up.UsedUp (leading n) byte ↔ byte.toNat + 1 = radix (leading n) := or_leading_eq_iff h
    rw [neighbour?]
    by_cases hlast : byte.toNat + 1 = radix (leading n)
    · rw [if_pos (hused.2 hlast), if_neg (by omega)]
      rfl
    · rw [if_neg (mt hused.1 hlast), if_pos (by omega), Option.map_some, UInt8.ofNat_add, UInt8.ofNat_toNat]
      rfl
  | down =>
    have hused : down.UsedUp (leading n) byte ↔ byte.toNat = 0 := by
      show byte = 0 ↔ _
      rw [← UInt8.toNat_inj, UInt8.toNat_zero]
    rw [neighbour?]
    by_cases hzero : byte.toNat = 0
    · rw [if_pos (hused.2 hzero), if_neg (by omega)]
      rfl
    · have hpos := Nat.pos_of_ne_zero hzero
      rw [if_neg (mt hused.1 hzero), if_pos hpos, Option.map_some, UInt8.ofNat_sub hpos, UInt8.ofNat_toNat]
      rfl

theorem scan_digit (d : Direction) {n : Nat} {byte : UInt8} (h : byte.toNat < radix (leading n))
    (masks bytes : List UInt8) :
    d.scan (leading n :: masks) (byte :: bytes) =
      ((d.neighbour? (radix (leading n)) byte.toNat).map (UInt8.ofNat · :: bytes)).or
        ((d.scan masks bytes).map (UInt8.ofNat (d.turn (radix (leading n))) :: ·)) := by
  have hdigit : (d.neighbour? (radix (leading n)) byte.toNat).map (UInt8.ofNat · :: bytes) =
      if d.UsedUp (leading n) byte then none else some (d.take byte :: bytes) := by
    have hmap := congrArg (Option.map (· :: bytes)) (neighbour?_radix d h)
    rw [Option.map_map] at hmap
    refine hmap.trans ?_
    split <;> rfl
  rw [scan, hdigit, ← reset_leading]
  by_cases hmask : leading n = 0xff
  · -- the only digit of a whole masked byte is zero, and it is always used up
    have hradix : radix (leading n) = 1 := by rw [hmask]; rfl
    obtain rfl : byte = 0 := by rw [← UInt8.toNat_inj, UInt8.toNat_zero]; omega
    rw [hmask, if_pos rfl, if_pos rfl]
    cases d <;> rfl
  · rw [if_neg hmask]
    split <;> rfl

theorem scan_masked (d : Direction) (k : Nat) (masks bytes : List UInt8) :
    d.scan (List.replicate k 0xff ++ masks) (List.replicate k 0 ++ bytes) =
      (d.scan masks bytes).map (List.replicate k 0 ++ ·) := by
  induction k with
  | zero => simp
  | succ k ih =>
    simp only [List.replicate_succ, List.cons_append, scan, if_true, ih, Option.map_map]
    rfl

/-- A step of bytes without masks is one of their number. -/
theorem scan_plain (d : Direction) (bytes : List UInt8) :
    d.scan (List.replicate bytes.length 0) bytes =
      (d.neighbour? (256 ^ bytes.length) (BigEndian.toNat bytes.reverse)).map
        fun number => (BigEndian.ofNat bytes.length number).reverse := by
  induction bytes with
  | nil => cases d <;> rfl
  | cons byte bytes ih =>
    have hbyte : byte.toNat < 256 := byte.toNat_lt
    have hlt := BigEndian.toNat_lt bytes.reverse
    have hhigh := BigEndian.ofNat_toNat bytes.reverse
    have hdigit := d.scan_digit (n := 0) hbyte (List.replicate bytes.length 0) bytes
    rw [List.length_reverse] at hlt hhigh
    rw [List.length_cons, List.replicate_succ, List.reverse_cons, BigEndian.toNat_concat, Nat.pow_succ,
      neighbour?_two_digits d hlt hbyte, Option.map_or, Option.map_map, Option.map_map]
    refine hdigit.trans ?_
    rw [ih, Option.map_map]
    congr 1
    · refine Option.map_congr fun digit hmem => ?_
      have hd := lt_of_neighbour? hbyte hmem
      simp [BigEndian.ofNat_two_digits hlt hd, hhigh]
    · refine Option.map_congr fun high hmem => ?_
      have hh := lt_of_neighbour? hlt hmem
      have hd := d.turn_lt (show 0 < 256 by decide)
      simp [BigEndian.ofNat_two_digits hh hd]
      rfl

end Direction

namespace HostMask

/-! ## The mask as kinds of bytes -/

theorem fill_zero (width : Nat) : fill width 0 = List.replicate width 0 := by
  induction width with
  | zero => rfl
  | succ width ih => rw [fill, Nat.zero_sub, ih, List.replicate_succ]; rfl

theorem fill_of_boundary?_none {m : HostMask f} (h : m.boundary? = none) :
    fill f.bytes m.length = List.replicate f.bytes 0 := by
  rw [boundary?_eq_none_iff.1 h, fill_zero]

theorem fill_eq {width k r : Nat} (hk : k < width) (hr : r ≤ 8) :
    fill width (8 * k + r) = List.replicate k 0xff ++ leading r :: List.replicate (width - (k + 1)) 0 := by
  induction k generalizing width with
  | zero =>
    obtain ⟨width, rfl⟩ : ∃ w, width = w + 1 := ⟨width - 1, by omega⟩
    rw [fill, Nat.mul_zero, Nat.zero_add, Nat.sub_eq_zero_of_le hr, fill_zero]
    simp
  | succ k ih =>
    obtain ⟨width, rfl⟩ : ∃ w, width = w + 1 := ⟨width - 1, by omega⟩
    rw [fill, leading_of_le (by omega), show 8 * (k + 1) + r - 8 = 8 * k + r by omega, ih (by omega),
      List.replicate_succ, List.cons_append, Nat.add_sub_add_right]

theorem fill_of_boundary? {m : HostMask f} {b : Boundary f} (h : m.boundary? = some b) :
    fill f.bytes m.length =
      List.replicate (f.bytes - (b.index + 1)) 0xff ++ b.value :: List.replicate b.index 0 := by
  obtain ⟨r, hr1, hr8, hv, -, hlen⟩ := exists_of_boundary? h
  have hi := b.index.isLt
  have hsum : m.length = 8 * (f.bytes - (b.index + 1)) + r := by rw [Family.bits] at hlen; omega
  rw [hsum, fill_eq (by omega) hr8, ← hv]
  congr 3; omega

/-- The bytes of a permitted address, least significant first, as the mask has them. -/
theorem reverse_octets {m : HostMask f} {b : Boundary f} (h : m.boundary? = some b) {a : Address f}
    (hp : m.Permits a) :
    a.octets.reverse = List.replicate (f.bytes - (b.index + 1)) 0 ++
      a.octet b.index :: (a.octets.take b.index).reverse := by
  have hsplit := congrArg List.reverse (a.octets_eq b.index)
  rw [((permits_iff h).1 hp).2] at hsplit
  simpa using hsplit

theorem reverse_octets_place {m : HostMask f} {b : Boundary f} (h : m.boundary? = some b) {high digit : Nat}
    (hd : digit < radix b.value) :
    (m.place (high * radix b.value + digit)).octets.reverse = List.replicate (f.bytes - (b.index + 1)) 0 ++
      UInt8.ofNat digit :: (BigEndian.ofNat b.index high).reverse := by
  have hi := b.index.isLt
  rw [place_digits h hd, Address.octets_startingWith (by rw [List.length_append, BigEndian.length_ofNat]; exact hi)]
  simp

/-! ## Steps -/

theorem step_of_scan {d : Direction} {m : HostMask f} {a : Address f} {stepped : Option (Address f)}
    (h : d.scan (fill f.bytes m.length) a.octets.reverse = stepped.map (·.octets.reverse)) :
    m.step d a = stepped.elim (.error .addressOutOfRange) .ok := by
  unfold step
  split
  · rename_i bytes hbytes
    obtain ⟨c, rfl, rfl⟩ := Option.map_eq_some_iff.1 (h.symm.trans hbytes)
    show Except.ok _ = Except.ok c
    congr 1
    ext1
    exact List.reverse_reverse _
  · rename_i hnone
    rw [Option.map_eq_none_iff.1 (h.symm.trans hnone)]
    rfl

theorem step_eq (d : Direction) {m : HostMask f} {a : Address f} (hp : m.Permits a) :
    m.step d a =
      ((d.neighbour? m.capacity (m.rank a)).map m.place).elim (.error .addressOutOfRange) .ok := by
  refine step_of_scan ?_
  cases hb : m.boundary? with
  | none =>
    have hplain := d.scan_plain a.octets.reverse
    rw [List.length_reverse, List.reverse_reverse, a.length_octets, ← fill_of_boundary?_none hb,
      ← Family.two_pow_bits] at hplain
    rw [hplain, rank_of_none hb, capacity_of_none hb, Option.map_map]
    refine Option.map_congr fun number _ => ?_
    rw [Function.comp_apply, place_of_none hb]
    rfl
  | some b =>
    obtain ⟨r, -, -, hv, -, -⟩ := exists_of_boundary? hb
    have hd := ((permits_iff hb).1 hp).1
    have hlt := a.toNat_take_lt b.index
    have hhigh := BigEndian.ofNat_toNat (a.octets.take b.index)
    have hplain := d.scan_plain (a.octets.take b.index).reverse
    rw [a.length_take] at hhigh
    rw [List.length_reverse, List.reverse_reverse, a.length_take] at hplain
    have hdigit := d.scan_digit (hv ▸ hd) (List.replicate b.index 0) (a.octets.take b.index).reverse
    rw [← hv] at hdigit
    rw [fill_of_boundary? hb, reverse_octets hb hp, Direction.scan_masked, hdigit, hplain, rank_of_some hb,
      capacity_of_some hb, Direction.neighbour?_two_digits d hlt hd]
    simp only [Option.map_or, Option.map_map]
    congr 1
    · -- the boundary takes the step
      refine Option.map_congr fun digit hmem => ?_
      have hd' := Direction.lt_of_neighbour? hd hmem
      simp only [Function.comp_apply, reverse_octets_place hb hd', hhigh]
    · -- the bytes above it do
      refine Option.map_congr fun high hmem => ?_
      have hd' := d.turn_lt (radix_pos hb)
      simp only [Function.comp_apply, reverse_octets_place hb hd']

theorem next_eq {m : HostMask f} {a : Address f} (hp : m.Permits a) :
    m.next a =
      if m.rank a + 1 < m.capacity then .ok (m.place (m.rank a + 1)) else .error .addressOutOfRange := by
  rw [next, step_eq .up hp, Direction.neighbour?]
  split <;> rfl

theorem previous_eq {m : HostMask f} {a : Address f} (hp : m.Permits a) :
    m.previous a = if 0 < m.rank a then .ok (m.place (m.rank a - 1)) else .error .addressOutOfRange := by
  rw [previous, step_eq .down hp, Direction.neighbour?]
  split <;> rfl

end HostMask

end IpSpace
