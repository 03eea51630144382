import IpSpace.HostMask.Jump
import IpSpace.Proofs.Address.Octets

/-!
# The rank of an address under a host mask

The free bits of an address spell a number, its `rank`: the boundary byte is its lowest digit, of radix `256 - mask`, and
the bytes above the boundary are the digits above it. Among the addresses that the mask permits,
* `rank_lt`, `place_rank`, `permits_place`, `rank_place`: rank is a bijection to the numbers below `capacity`, which
  `place` inverts,
* `capacity_eq`: there are `2 ^ (f.bits - length)` of them,
* `lt_iff_rank_lt`: rank keeps the order.
-/
namespace IpSpace

open MaskedByte (radix)

variable {f : Family}

theorem BigEndian.toNat_replicate_zero (n : Nat) : toNat (List.replicate n 0) = 0 := by
  induction n with
  | zero => rfl
  | succ n ih => rw [List.replicate_succ, toNat_cons, ih]; simp

/-- A digit is worth less than one unit of the digit above. -/
theorem two_digits_lt {hi lo bound r : Nat} (hh : hi < bound) (h : lo < r) : hi * r + lo < bound * r := by
  have := Nat.mul_le_mul_right r (Nat.succ_le_of_lt hh)
  rw [Nat.succ_mul] at this
  omega

/-- Numbers of two digits are ordered by the high digit, then the low one, whatever the radix. -/
theorem two_digits_lt_iff {hi lo hi' lo' r : Nat} (h : lo < r) (h' : lo' < r) :
    hi * r + lo < hi' * r + lo' ↔ hi < hi' ∨ hi = hi' ∧ lo < lo' := by
  rcases Nat.lt_trichotomy hi hi' with hlt | rfl | hgt
  · have := two_digits_lt hlt h
    omega
  · omega
  · have := two_digits_lt hgt h'
    omega

theorem MaskedByte.radix_leading (n : Nat) : radix (leading n) = 2 ^ (8 - n) := by
  have hle : 2 ^ (8 - n) ≤ 2 ^ 8 := Nat.pow_le_pow_right (by decide) (by omega)
  rw [radix, toNat_leading]
  generalize 2 ^ (8 - n) = x at hle ⊢
  omega

namespace Address

theorem octets_startingWith {bytes : List UInt8} (h : bytes.length ≤ f.bytes) :
    (startingWith bytes : Address f).octets = bytes ++ List.replicate (f.bytes - bytes.length) 0 := by
  simp [startingWith, List.take_append, List.take_of_length_le h]

end Address

namespace HostMask

/-! ## The boundary -/

theorem boundary?_eq_none_iff {m : HostMask f} : m.boundary? = none ↔ m.length = 0 := by
  unfold boundary?; split <;> simp [*]

/-- `r` bits of the boundary byte are masked, and all bytes below it. -/
theorem exists_of_boundary? {m : HostMask f} {b : Boundary f} (h : m.boundary? = some b) :
    ∃ r, 1 ≤ r ∧ r ≤ 8 ∧ b.value = leading r ∧ radix b.value = 2 ^ (8 - r) ∧
      m.length + 8 * (b.index + 1) = f.bits + r := by
  unfold boundary? at h
  split at h
  · cases h
  · rename_i hm
    cases h
    have hl := Nat.le_trans m.length_le f.longestHostMask_le_bits
    have hpos := f.bytes_pos
    refine ⟨(m.length - 1) % 8 + 1, by omega, by omega, rfl, ?_, ?_⟩
    · exact MaskedByte.radix_leading _
    · rw [Family.bits] at hl ⊢
      simp only
      omega

theorem radix_pos {m : HostMask f} {b : Boundary f} (h : m.boundary? = some b) : 0 < radix b.value := by
  obtain ⟨r, -, -, -, hr, -⟩ := exists_of_boundary? h
  rw [hr]; exact Nat.two_pow_pos _

theorem permits_of_boundary?_none {m : HostMask f} (h : m.boundary? = none) (a : Address f) : m.Permits a := by
  intro b hb; rw [h] at hb; cases hb

/-- A permitted address has a digit of the radix in the boundary byte and zeros below it. -/
theorem permits_iff {m : HostMask f} {b : Boundary f} (h : m.boundary? = some b) {a : Address f} :
    m.Permits a ↔ (a.octet b.index).toNat < radix b.value ∧
      a.octets.drop (b.index + 1) = List.replicate (f.bytes - (b.index + 1)) 0 := by
  have hv := b.value.toNat_lt
  have hmax : b.max.toNat = 255 - b.value.toNat := by
    rw [Boundary.max, UInt8.toNat_sub_of_le _ _ (UInt8.le_iff_toNat_le.2 (Nat.le_of_lt_succ hv))]; rfl
  have hlen : (a.octets.drop (b.index + 1)).length = f.bytes - (b.index + 1) := by
    rw [List.length_drop, a.length_octets]
  rw [List.eq_replicate_iff, radix]
  constructor
  · intro hp
    obtain ⟨h1, h2⟩ := hp b h
    rw [UInt8.le_iff_toNat_le, hmax] at h1
    exact ⟨by omega, hlen, h2⟩
  · rintro ⟨h1, -, h2⟩ c hc
    obtain rfl : b = c := Option.some.inj (h.symm.trans hc)
    refine ⟨?_, h2⟩
    rw [UInt8.le_iff_toNat_le, hmax]; omega

/-! ## Rank and place -/

/-- The number that the free bits of the address spell. -/
def rank (m : HostMask f) (a : Address f) : Nat :=
  match m.boundary? with
  | none => a.toNat
  | some b => BigEndian.toNat (a.octets.take b.index) * (256 - b.value.toNat) + (a.octet b.index).toNat

/-- How many numbers the free bits can spell. -/
def capacity (m : HostMask f) : Nat :=
  match m.boundary? with
  | none => 2 ^ f.bits
  | some b => 256 ^ b.index.val * (256 - b.value.toNat)

/-- The permitted address whose free bits spell the number. -/
def place (m : HostMask f) (number : Nat) : Address f :=
  match m.boundary? with
  | none => .ofNat f number
  | some b =>
    .startingWith (BigEndian.ofNat b.index (number / radix b.value) ++ [UInt8.ofNat (number % radix b.value)])

theorem rank_of_none {m : HostMask f} (h : m.boundary? = none) (a : Address f) : m.rank a = a.toNat := by
  rw [rank, h]

theorem rank_of_some {m : HostMask f} {b : Boundary f} (h : m.boundary? = some b) (a : Address f) :
    m.rank a = BigEndian.toNat (a.octets.take b.index) * radix b.value + (a.octet b.index).toNat := by
  rw [rank, h]; rfl

theorem capacity_of_none {m : HostMask f} (h : m.boundary? = none) : m.capacity = 2 ^ f.bits := by
  rw [capacity, h]

theorem capacity_of_some {m : HostMask f} {b : Boundary f} (h : m.boundary? = some b) :
    m.capacity = 256 ^ b.index.val * radix b.value := by
  rw [capacity, h]; rfl

theorem place_of_none {m : HostMask f} (h : m.boundary? = none) (number : Nat) :
    m.place number = .ofNat f number := by
  rw [place, h]

theorem place_of_some {m : HostMask f} {b : Boundary f} (h : m.boundary? = some b) (number : Nat) :
    m.place number =
      .startingWith (BigEndian.ofNat b.index (number / radix b.value) ++ [UInt8.ofNat (number % radix b.value)]) := by
  rw [place, h]

theorem capacity_eq (m : HostMask f) : m.capacity = 2 ^ (f.bits - m.length) := by
  cases h : m.boundary? with
  | none => rw [capacity_of_none h, boundary?_eq_none_iff.1 h]; rfl
  | some b =>
    obtain ⟨r, -, hr8, -, hr, hlen⟩ := exists_of_boundary? h
    rw [capacity_of_some h, hr, show (256 : Nat) = 2 ^ 8 from rfl, ← Nat.pow_mul, ← Nat.pow_add]
    congr 1; omega

theorem rank_lt {m : HostMask f} {a : Address f} (hp : m.Permits a) : m.rank a < m.capacity := by
  cases h : m.boundary? with
  | none => rw [rank_of_none h, capacity_of_none h]; exact a.toNat_lt
  | some b =>
    rw [rank_of_some h, capacity_of_some h]
    exact two_digits_lt (a.toNat_take_lt b.index) ((permits_iff h).1 hp).1

/-- The bytes of a place: the digits above the boundary, the digit at it, and zeros. -/
theorem octets_place {m : HostMask f} {b : Boundary f} (h : m.boundary? = some b) (number : Nat) :
    (m.place number).octets = BigEndian.ofNat b.index (number / radix b.value) ++
      UInt8.ofNat (number % radix b.value) :: List.replicate (f.bytes - (b.index + 1)) 0 := by
  have hi := b.index.isLt
  rw [place_of_some h, Address.octets_startingWith (by rw [List.length_append, BigEndian.length_ofNat]; exact hi)]
  simp

/-- The place of a number given by the digit at the boundary and what stands above it. -/
theorem place_digits {m : HostMask f} {b : Boundary f} (h : m.boundary? = some b) {high digit : Nat}
    (hd : digit < radix b.value) :
    m.place (high * radix b.value + digit) =
      .startingWith (BigEndian.ofNat b.index high ++ [UInt8.ofNat digit]) := by
  rw [place_of_some h, Nat.mul_comm, Nat.mul_add_div (radix_pos h), Nat.div_eq_of_lt hd, Nat.mul_add_mod,
    Nat.mod_eq_of_lt hd, Nat.add_zero]

theorem take_place {m : HostMask f} {b : Boundary f} (h : m.boundary? = some b) (number : Nat) :
    (m.place number).octets.take b.index = BigEndian.ofNat b.index (number / radix b.value) := by
  rw [octets_place h, List.take_append_of_le_length (by simp), List.take_of_length_le (by simp)]

theorem octet_place {m : HostMask f} {b : Boundary f} (h : m.boundary? = some b) (number : Nat) :
    (m.place number).octet b.index = UInt8.ofNat (number % radix b.value) := by
  rw [Address.octet, List.get_eq_getElem]
  simp [octets_place h]

theorem toNat_octet_place {m : HostMask f} {b : Boundary f} (h : m.boundary? = some b) (number : Nat) :
    ((m.place number).octet b.index).toNat = number % radix b.value := by
  have hlt := Nat.mod_lt number (radix_pos h)
  have hle : radix b.value ≤ 256 := Nat.sub_le _ _
  rw [octet_place h, UInt8.toNat_ofNat']
  exact Nat.mod_eq_of_lt (by omega)

theorem permits_place (m : HostMask f) (number : Nat) : m.Permits (m.place number) := by
  cases h : m.boundary? with
  | none => exact permits_of_boundary?_none h _
  | some b =>
    rw [permits_iff h, toNat_octet_place h, octets_place h]
    refine ⟨Nat.mod_lt _ (radix_pos h), ?_⟩
    simp [List.drop_append]

theorem rank_place {m : HostMask f} {number : Nat} (hn : number < m.capacity) : m.rank (m.place number) = number := by
  cases h : m.boundary? with
  | none =>
    rw [capacity_of_none h] at hn
    rw [rank_of_none h, place_of_none h, Address.toNat_ofNat_of_lt hn]
  | some b =>
    rw [capacity_of_some h] at hn
    rw [rank_of_some h, take_place h, toNat_octet_place h,
      BigEndian.toNat_ofNat_of_lt ((Nat.div_lt_iff_lt_mul (radix_pos h)).2 hn)]
    exact Nat.div_add_mod' number (radix b.value)

theorem place_rank {m : HostMask f} {a : Address f} (hp : m.Permits a) : m.place (m.rank a) = a := by
  cases h : m.boundary? with
  | none => rw [rank_of_none h, place_of_none h]; exact a.ofNat_toNat
  | some b =>
    obtain ⟨hd, hz⟩ := (permits_iff h).1 hp
    have hhi := BigEndian.ofNat_toNat (a.octets.take b.index)
    rw [a.length_take] at hhi
    have hdiv : m.rank a / radix b.value = BigEndian.toNat (a.octets.take b.index) := by
      rw [rank_of_some h, Nat.mul_comm, Nat.mul_add_div (radix_pos h), Nat.div_eq_of_lt hd, Nat.add_zero]
    have hmod : m.rank a % radix b.value = (a.octet b.index).toNat := by
      rw [rank_of_some h, Nat.mul_comm, Nat.mul_add_mod, Nat.mod_eq_of_lt hd]
    ext1
    rw [octets_place h, hdiv, hmod, UInt8.ofNat_toNat, ← hz, hhi, ← a.octets_eq b.index]

/-- The permitted address of a rank is its place, and there is no other. -/
theorem permits_and_rank_iff {m : HostMask f} {number : Nat} (hn : number < m.capacity) {a : Address f} :
    m.Permits a ∧ m.rank a = number ↔ a = m.place number := by
  constructor
  · rintro ⟨hp, rfl⟩
    exact (place_rank hp).symm
  · rintro rfl
    exact ⟨m.permits_place number, rank_place hn⟩

/-- Rank keeps the order of permitted addresses. -/
theorem lt_iff_rank_lt {m : HostMask f} {a c : Address f} (ha : m.Permits a) (hc : m.Permits c) :
    a < c ↔ m.rank a < m.rank c := by
  rw [Address.lt_iff_toNat_lt]
  cases h : m.boundary? with
  | none => rw [rank_of_none h, rank_of_none h]
  | some b =>
    obtain ⟨hda, hza⟩ := (permits_iff h).1 ha
    obtain ⟨hdc, hzc⟩ := (permits_iff h).1 hc
    have hle : radix b.value ≤ 256 := Nat.sub_le _ _
    rw [rank_of_some h, rank_of_some h, a.toNat_eq b.index, c.toNat_eq b.index, hza, hzc,
      BigEndian.toNat_replicate_zero, Nat.add_zero, Nat.add_zero, Nat.mul_lt_mul_right (Nat.pow_pos (by decide)),
      two_digits_lt_iff hda hdc, two_digits_lt_iff (by omega) (by omega)]

theorem le_iff_rank_le {m : HostMask f} {a c : Address f} (ha : m.Permits a) (hc : m.Permits c) :
    a ≤ c ↔ m.rank a ≤ m.rank c := by
  rw [← not_lt, lt_iff_rank_lt hc ha, Nat.not_lt]

end HostMask

end IpSpace
