import IpSpace.Proofs.Address.Rounding

/-!
# Masking bit by bit

`toNat_clearAfter` and `toNat_setAfter` read masking as rounding. Here it is read on the bits. Both functions change each
byte by itself, told only how many of the first `n` bits are left there (`Bytes.each`):
* `each_append`, `each_of_lt`: whole bytes stay, one byte is changed, and nothing is left of the others,
* `clearAfter_eq_and`, `setAfter_eq_or`: clearing is the bitwise *and* with the mask of `n` leading bits, and setting the
  bitwise *or* with its complement,
* `clearAfter_clearAfter_min`: clearing twice is clearing after the fewer bits.

`masking_rounds` puts the two readings together.
-/
namespace IpSpace

/-! ## One byte -/

theorem leading_min_eight (n : Nat) : leading (min n 8) = leading n := by
  rw [leading, leading, show 8 - min n 8 = 8 - n by omega]

theorem leading_and_leading (m n : Nat) : leading m &&& leading n = leading (min m n) := by
  have key : ∀ i j : Fin 9, leading i &&& leading j = leading (min i.val j.val) := by decide
  have h := key ⟨min m 8, by omega⟩ ⟨min n 8, by omega⟩
  rwa [leading_min_eight, leading_min_eight, show min (min m 8) (min n 8) = min (min m n) 8 by omega,
    leading_min_eight] at h

/-! ## Byte by byte -/

namespace Bytes

theorem and_leading_whole (n : Nat) (b : UInt8) (h : 8 ≤ n) : b &&& leading n = b := by
  rw [leading_of_le h]; exact UInt8.and_neg_one

theorem or_leading_whole (n : Nat) (b : UInt8) (h : 8 ≤ n) : b ||| ~~~leading n = b := by
  rw [leading_of_le h]; exact UInt8.or_zero

theorem and_leading_zero (b : UInt8) : b &&& leading 0 = 0 := UInt8.and_zero

theorem or_leading_zero (b : UInt8) : b ||| ~~~leading 0 = 0xff := UInt8.or_neg_one

theorem ones_and (b : UInt8) : 0xff &&& b = b := UInt8.neg_one_and

/-- Changes each byte by `g`, which is told how many of the first `n` bits are left at that byte. -/
def each (g : Nat → UInt8 → UInt8) : Nat → List UInt8 → List UInt8
  | _, [] => []
  | n, b :: bs => g n b :: each g (n - 8) bs

theorem clearAfter_eq_each (n : Nat) (bytes : List UInt8) :
    clearAfter n bytes = each (fun n b => b &&& leading n) n bytes := by
  induction bytes generalizing n with
  | nil => rfl
  | cons b bs ih => rw [clearAfter, each, ih]

theorem setAfter_eq_each (n : Nat) (bytes : List UInt8) :
    setAfter n bytes = each (fun n b => b ||| ~~~leading n) n bytes := by
  induction bytes generalizing n with
  | nil => rfl
  | cons b bs ih => rw [setAfter, each, ih]

section

variable {g : Nat → UInt8 → UInt8} {blank : UInt8} (hwhole : ∀ n b, 8 ≤ n → g n b = b) (hblank : ∀ b, g 0 b = blank)

include hblank in
theorem each_zero (bytes : List UInt8) : each g 0 bytes = List.replicate bytes.length blank := by
  induction bytes with
  | nil => rfl
  | cons b bs ih => rw [each, ih, hblank, List.length_cons, List.replicate_succ]

include hwhole in
/-- The whole bytes among the first bits stay. -/
theorem each_append (n : Nat) (bytes rest : List UInt8) :
    each g (8 * bytes.length + n) (bytes ++ rest) = bytes ++ each g n rest := by
  induction bytes with
  | nil => simp
  | cons b bs ih =>
    rw [List.length_cons, List.cons_append, each, hwhole _ _ (by omega),
      show 8 * (bs.length + 1) + n - 8 = 8 * bs.length + n by omega, ih, List.cons_append]

include hwhole in
theorem each_of_le {n : Nat} {bytes : List UInt8} (h : 8 * bytes.length ≤ n) : each g n bytes = bytes := by
  obtain ⟨k, rfl⟩ := Nat.exists_eq_add_of_le h
  have happend := each_append hwhole k bytes []
  rwa [List.append_nil, each, List.append_nil] at happend

include hwhole hblank in
/-- The whole bytes stay, then comes the byte in which the first `n` bits end, and then nothing but blank ones. -/
theorem each_of_lt {n : Nat} {bytes : List UInt8} (h : n / 8 < bytes.length) :
    each g n bytes =
      bytes.take (n / 8) ++ g (n % 8) bytes[n / 8] :: List.replicate (bytes.length - (n / 8 + 1)) blank := by
  have hwholes : (bytes.take (n / 8)).length = n / 8 := List.length_take_of_le (Nat.le_of_lt h)
  have happend := each_append hwhole (n % 8) (bytes.take (n / 8)) (bytes.drop (n / 8))
  rw [hwholes, Nat.div_add_mod, List.take_append_drop] at happend
  have hmod : n % 8 - 8 = 0 := by omega
  rw [happend, List.drop_eq_getElem_cons h, each, hmod, each_zero hblank, List.length_drop]

/-- If `g` combines every byte with what it makes of `unit`, the bytes are combined with what is made of that many units. -/
theorem each_eq_zipWith {op : UInt8 → UInt8 → UInt8} {unit : UInt8} (hop : ∀ n b, g n b = op b (g n unit)) (n : Nat)
    (bytes : List UInt8) :
    each g n bytes = List.zipWith op bytes (each g n (List.replicate bytes.length unit)) := by
  induction bytes generalizing n with
  | nil => rfl
  | cons b bs ih => rw [List.length_cons, List.replicate_succ, each, each, List.zipWith_cons_cons, ← ih, ← hop]

end

theorem clearAfter_eq_and (n : Nat) (bytes : List UInt8) :
    clearAfter n bytes = List.zipWith (· &&& ·) bytes (clearAfter n (List.replicate bytes.length 0xff)) := by
  rw [clearAfter_eq_each, clearAfter_eq_each]
  exact each_eq_zipWith (fun n b => by rw [ones_and]) n bytes

theorem setAfter_eq_or (n : Nat) (bytes : List UInt8) :
    setAfter n bytes = List.zipWith (· ||| ·) bytes (setAfter n (List.replicate bytes.length 0)) := by
  rw [setAfter_eq_each, setAfter_eq_each]
  exact each_eq_zipWith (fun n b => by rw [UInt8.zero_or]) n bytes

theorem clearAfter_clearAfter_min (m n : Nat) (bytes : List UInt8) :
    clearAfter n (clearAfter m bytes) = clearAfter (min m n) bytes := by
  induction bytes generalizing m n with
  | nil => rfl
  | cons b bs ih =>
    rw [clearAfter, clearAfter, clearAfter, ih, UInt8.and_assoc, leading_and_leading,
      show min (m - 8) (n - 8) = min m n - 8 by omega]

theorem clearAfter_zero (bytes : List UInt8) : clearAfter 0 bytes = List.replicate bytes.length 0 := by
  rw [clearAfter_eq_each, each_zero and_leading_zero]

theorem clearAfter_append (n : Nat) (bytes rest : List UInt8) :
    clearAfter (8 * bytes.length + n) (bytes ++ rest) = bytes ++ clearAfter n rest := by
  rw [clearAfter_eq_each, clearAfter_eq_each, each_append and_leading_whole]

end Bytes

/-! ## Addresses -/

namespace Address

variable {f : Family}

theorem clearAfter_clearAfter_min (a : Address f) (m n : Nat) :
    (a.clearAfter m).clearAfter n = a.clearAfter (min m n) := by
  ext1; exact Bytes.clearAfter_clearAfter_min m n a.octets

theorem octets_clearAfter (a : Address f) (n : Nat) :
    (a.clearAfter n).octets = List.zipWith (· &&& ·) a.octets (ones.clearAfter n : Address f).octets := by
  have h := Bytes.clearAfter_eq_and n a.octets
  rwa [a.length_octets] at h

theorem octets_setAfter (a : Address f) (n : Nat) :
    (a.setAfter n).octets = List.zipWith (· ||| ·) a.octets (zero.setAfter n : Address f).octets := by
  have h := Bytes.setAfter_eq_or n a.octets
  rwa [a.length_octets] at h

theorem clearAfter_le (a : Address f) (n : Nat) : a.clearAfter n ≤ a := by
  rw [le_iff_toNat_le, toNat_clearAfter]
  exact Nat.div_mul_le_self a.toNat (f.span n)

theorem le_setAfter (a : Address f) (n : Nat) : a ≤ a.setAfter n := by
  have hrest := Nat.mod_lt a.toNat (f.span_pos n)
  have hsum := Nat.div_add_mod' a.toNat (f.span n)
  rw [le_iff_toNat_le, toNat_setAfter]
  omega

theorem clearAfter_le_clearAfter {a c : Address f} (h : a ≤ c) (n : Nat) : a.clearAfter n ≤ c.clearAfter n := by
  rw [le_iff_toNat_le] at h
  rw [le_iff_toNat_le, toNat_clearAfter, toNat_clearAfter]
  exact Nat.mul_le_mul_right _ (Nat.div_le_div_right h)

theorem setAfter_le_setAfter {a c : Address f} (h : a ≤ c) (n : Nat) : a.setAfter n ≤ c.setAfter n := by
  have hclear := clearAfter_le_clearAfter h n
  rw [le_iff_toNat_le, toNat_clearAfter, toNat_clearAfter] at hclear
  rw [le_iff_toNat_le, toNat_setAfter, toNat_setAfter]
  omega

/-- Clearing the bits after the first `n` rounds down to a multiple of the number of addresses that share them, and setting
them goes to the last address before the next multiple. A length past the end is the whole address. -/
theorem masking_rounds (f : Family) (n : Nat) :
    f.span n = 2 ^ (f.bits - min n f.bits) ∧
    (∀ a : Address f, (a.clearAfter n).toNat = f.span n * (a.toNat / f.span n) ∧
      (a.setAfter n).toNat = f.span n * (a.toNat / f.span n) + f.span n - 1 ∧
      a.clearAfter n ≤ a ∧ a ≤ a.setAfter n) ∧
    (∀ (a : Address f) (k : Nat), (a.clearAfter n).clearAfter k = a.clearAfter (min n k)) ∧
    (∀ a c : Address f, a ≤ c → a.clearAfter n ≤ c.clearAfter n ∧ a.setAfter n ≤ c.setAfter n) ∧
    ∀ a : Address f,
      (a.clearAfter n).octets = List.zipWith (· &&& ·) a.octets (ones.clearAfter n : Address f).octets ∧
      (a.setAfter n).octets = List.zipWith (· ||| ·) a.octets (zero.setAfter n : Address f).octets := by
  have hpos := f.span_pos n
  refine ⟨?_, fun a => ⟨?_, ?_, a.clearAfter_le n, a.le_setAfter n⟩, fun a k => a.clearAfter_clearAfter_min n k,
    fun _ _ h => ⟨clearAfter_le_clearAfter h n, setAfter_le_setAfter h n⟩,
    fun a => ⟨a.octets_clearAfter n, a.octets_setAfter n⟩⟩
  · rw [Family.span, show f.bits - min n f.bits = f.bits - n by omega]
  · rw [toNat_clearAfter, Nat.mul_comm]
  · rw [toNat_setAfter, Nat.mul_comm, Nat.add_sub_assoc hpos]

/-- In the middle of a byte: 20 bits of 192.168.77.200 lead to the ends of 192.168.64.0 to 192.168.79.255. -/
theorem masking_rounds_within_byte :
    (.ofNat .v4 0xc0a84dc8 : Address .v4) ≤ .ofNat .v4 0xc0a84fff ∧
    ((.ofNat .v4 0xc0a84dc8 : Address .v4).clearAfter 20).toNat = 4096 * (0xc0a84dc8 / 4096) ∧
    (.ofNat .v4 0xc0a84dc8 : Address .v4).setAfter 20 ≤ (.ofNat .v4 0xc0a84fff : Address .v4).setAfter 20 := by
  have hle : (.ofNat .v4 0xc0a84dc8 : Address .v4) ≤ .ofNat .v4 0xc0a84fff := by decide +kernel
  have hnumber : (.ofNat .v4 0xc0a84dc8 : Address .v4).toNat = 0xc0a84dc8 := by decide +kernel
  have hspan : Family.v4.span 20 = 4096 := by decide
  obtain ⟨-, hround, -, hmono, -⟩ := masking_rounds .v4 20
  refine ⟨hle, ?_, (hmono _ _ hle).2⟩
  rw [(hround _).1, hnumber, hspan]

end Address

end IpSpace
