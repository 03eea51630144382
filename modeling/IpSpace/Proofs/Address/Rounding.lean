import IpSpace.Address.Any
import Mathlib.Order.Basic

/-!
# Addresses as numbers

`Address.toNat` carries the order of a family (`lt_iff_toNat_lt`), so addresses are linearly ordered, and the partial
operations on them are arithmetic on the numbers below `2 ^ f.bits`.

Masking is rounding. The addresses that share their first `n` bits are `f.span n` in number and follow each other:
* `toNat_clearAfter`: clearing all bits after the first `n` rounds down to a multiple of `f.span n`,
* `toNat_setAfter`: setting them gives the last number before the next multiple.

For addresses of either family, `between_iff` says what lies between two addresses of one family: addresses of that
family between them, and nothing of the other.
-/
namespace IpSpace

/-- The number of addresses that share their first `n` bits. -/
def Family.span (f : Family) (n : Nat) : Nat := 2 ^ (f.bits - n)

theorem Family.span_pos (f : Family) (n : Nat) : 0 < f.span n := Nat.two_pow_pos _

/-- Spans of longer prefixes divide those of shorter ones. -/
theorem Family.span_dvd (f : Family) {m n : Nat} (h : m ≤ n) : f.span n ∣ f.span m :=
  Nat.pow_dvd_pow 2 (by omega)

/-- Each prefix is shared by two prefixes of one bit more, and so on. -/
theorem Family.span_eq_mul (f : Family) {m n : Nat} (h : m ≤ n) (hn : n ≤ f.bits) :
    f.span m = 2 ^ (n - m) * f.span n := by
  rw [span, span, ← Nat.pow_add]
  congr 1; omega

/-- A prefix of one bit less is shared by twice as many addresses. -/
theorem Family.two_mul_span {f : Family} {n : Nat} (h : 1 ≤ n) (hn : n ≤ f.bits) :
    2 * f.span n = f.span (n - 1) := by
  rw [f.span_eq_mul (Nat.sub_le n 1) hn, Nat.sub_sub_self h, Nat.pow_one]

@[simp] theorem Family.span_bits (f : Family) : f.span f.bits = 1 := by simp [span]

theorem Family.eight_le_bits (f : Family) : 8 ≤ f.bits := by
  have := f.bytes_pos
  rw [bits]; omega

theorem Family.one_le_bits (f : Family) : 1 ≤ f.bits := Nat.le_trans (by decide) f.eight_le_bits

theorem Family.two_mul_span_one (f : Family) : 2 * f.span 1 = 2 ^ f.bits := by
  rw [span, Nat.mul_comm, ← Nat.pow_succ, Nat.succ_eq_add_one, Nat.sub_add_cancel f.one_le_bits]

/-! ## One byte -/

theorem toNat_leading (n : Nat) : (leading n).toNat = 256 - 2 ^ (8 - n) := by
  have hpos := Nat.two_pow_pos (8 - n)
  rw [leading, UInt8.toNat_ofNat']; omega

theorem leading_of_le {n : Nat} (h : 8 ≤ n) : leading n = 0xff := by
  rw [leading, Nat.sub_eq_zero_of_le h]; rfl

/-- The leading bits are a run of ones that is shifted to its place. -/
theorem toNat_leading_shift (n : Nat) : (leading n).toNat = (2 ^ (8 - (8 - n)) - 1) <<< (8 - n) := by
  rw [toNat_leading, Nat.shiftLeft_eq, Nat.sub_mul, ← Nat.pow_add, Nat.sub_add_cancel (Nat.sub_le 8 n), Nat.one_mul]

theorem toNat_and_leading (b : UInt8) (n : Nat) :
    (b &&& leading n).toNat = b.toNat / 2 ^ (8 - n) * 2 ^ (8 - n) := by
  have hb : b.toNat < 2 ^ 8 := b.toNat_lt
  rw [UInt8.toNat_and, toNat_leading_shift, ← Nat.shiftRight_eq_div_pow, ← Nat.shiftLeft_eq]
  generalize 8 - n = k
  -- bits below the run are cleared on both sides, those of the run are kept, and past it the byte has none
  refine Nat.eq_of_testBit_eq fun i => ?_
  rw [Nat.testBit_and, Nat.testBit_shiftLeft, Nat.testBit_two_pow_sub_one, Nat.testBit_shiftLeft,
    Nat.testBit_shiftRight]
  rcases Nat.lt_or_ge i k with hlow | hhigh
  · simp [Nat.not_le.2 hlow]
  · rcases Nat.lt_or_ge i 8 with hin | hout
    · simp [hhigh, show i - k < 8 - k by omega]
    · simp [hhigh, Nat.testBit_lt_two_pow (Nat.lt_of_lt_of_le hb (Nat.pow_le_pow_right (by decide) hout))]

theorem toNat_or_not_leading (b : UInt8) (n : Nat) :
    (b ||| ~~~leading n).toNat = b.toNat / 2 ^ (8 - n) * 2 ^ (8 - n) + (2 ^ (8 - n) - 1) := by
  have hpos := Nat.two_pow_pos (8 - n)
  have hnot : (~~~leading n).toNat = 2 ^ (8 - n) - 1 := by
    have hle : 2 ^ (8 - n) ≤ 2 ^ 8 := Nat.pow_le_pow_right (by decide) (by omega)
    rw [UInt8.toNat_not, toNat_leading, UInt8.size]
    omega
  rw [UInt8.toNat_or, hnot, ← Nat.shiftRight_eq_div_pow, ← Nat.shiftLeft_eq,
    Nat.shiftLeft_add_eq_or_of_lt (Nat.sub_one_lt_of_lt hpos)]
  refine Nat.eq_of_testBit_eq fun i => ?_
  rw [Nat.testBit_or, Nat.testBit_or, Nat.testBit_shiftLeft, Nat.testBit_shiftRight, Nat.testBit_two_pow_sub_one]
  rcases Nat.lt_or_ge i (8 - n) with hlow | hhigh
  · simp [hlow]
  · simp [hhigh]

/-! ## Lists of bytes -/

namespace Bytes

open BigEndian

/-- Rounding a two-part number at a place inside its low part leaves the high part. -/
theorem round_low (b t : Nat) {e w : Nat} (h : e ≤ w) :
    (b * 2 ^ w + t) / 2 ^ e * 2 ^ e = b * 2 ^ w + t / 2 ^ e * 2 ^ e := by
  obtain ⟨d, rfl⟩ := Nat.exists_eq_add_of_le h
  have hpos := Nat.two_pow_pos e
  rw [Nat.pow_add, show b * (2 ^ e * 2 ^ d) = 2 ^ e * (b * 2 ^ d) by rw [Nat.mul_left_comm],
    Nat.mul_add_div hpos, Nat.add_mul, Nat.mul_comm (b * 2 ^ d)]

/-- Rounding a two-part number at a place inside its high part drops the low part. -/
theorem round_high (b t : Nat) {k w : Nat} (h : t < 2 ^ w) :
    (b * 2 ^ w + t) / 2 ^ (w + k) * 2 ^ (w + k) = b / 2 ^ k * 2 ^ k * 2 ^ w := by
  have hpos := Nat.two_pow_pos w
  rw [Nat.pow_add, ← Nat.div_div_eq_div_mul, Nat.mul_comm b, Nat.mul_add_div hpos, Nat.div_eq_of_lt h,
    Nat.add_zero, Nat.mul_comm (2 ^ w), ← Nat.mul_assoc]

theorem toNat_clearAfter (n : Nat) (bytes : List UInt8) :
    toNat (clearAfter n bytes) =
      toNat bytes / 2 ^ (8 * bytes.length - n) * 2 ^ (8 * bytes.length - n) := by
  induction bytes generalizing n with
  | nil => simp [clearAfter]
  | cons b bs ih =>
    have ht := toNat_lt bs
    rw [show (256 : Nat) = 2 ^ 8 from rfl, ← Nat.pow_mul] at ht
    rw [clearAfter, toNat_cons, toNat_cons, length_clearAfter, ih, toNat_and_leading, List.length_cons,
      show (256 : Nat) = 2 ^ 8 from rfl, ← Nat.pow_mul]
    rcases Nat.lt_or_ge n 8 with hn | hn
    · rw [show 8 * (bs.length + 1) - n = 8 * bs.length + (8 - n) by omega, round_high _ _ ht,
        show 8 * bs.length - (n - 8) = 8 * bs.length by omega, Nat.div_eq_of_lt ht]
      omega
    · rw [show 8 * (bs.length + 1) - n = 8 * bs.length - (n - 8) by omega, round_low _ _ (by omega),
        show 8 - n = 0 by omega]
      simp

theorem toNat_setAfter (n : Nat) (bytes : List UInt8) :
    toNat (setAfter n bytes) = toNat (clearAfter n bytes) + (2 ^ (8 * bytes.length - n) - 1) := by
  induction bytes generalizing n with
  | nil => simp [clearAfter, setAfter]
  | cons b bs ih =>
    rw [setAfter, clearAfter, toNat_cons, toNat_cons, length_setAfter, length_clearAfter, ih,
      toNat_or_not_leading, toNat_and_leading, List.length_cons, show (256 : Nat) = 2 ^ 8 from rfl,
      ← Nat.pow_mul]
    rcases Nat.lt_or_ge n 8 with hn | hn
    · rw [show 8 * (bs.length + 1) - n = (8 - n) + 8 * bs.length by omega, Nat.pow_add,
        show 8 * bs.length - (n - 8) = 8 * bs.length by omega]
      have hk := Nat.two_pow_pos (8 - n)
      have hw := Nat.two_pow_pos (8 * bs.length)
      -- with `k` the free values of the byte: `(k - 1) * w + (w - 1) = k * w - 1`
      have hsum : (2 ^ (8 - n) - 1) * 2 ^ (8 * bs.length) + 2 ^ (8 * bs.length) =
          2 ^ (8 - n) * 2 ^ (8 * bs.length) := by
        rw [← Nat.succ_mul]; congr 1; omega
      rw [Nat.add_mul]; omega
    · rw [show 8 * (bs.length + 1) - n = 8 * bs.length - (n - 8) by omega, show 8 - n = 0 by omega]
      simp only [Nat.pow_zero, Nat.sub_self, Nat.add_zero]
      omega

end Bytes

/-! ## Addresses -/

namespace Address

variable {f : Family}

instance : LinearOrder (Address f) where
  le_refl a := le_iff_toNat_le.2 (Nat.le_refl _)
  le_trans a b c hab hbc := le_iff_toNat_le.2 (Nat.le_trans (le_iff_toNat_le.1 hab) (le_iff_toNat_le.1 hbc))
  le_antisymm a b hab hba := toNat_inj.1 (Nat.le_antisymm (le_iff_toNat_le.1 hab) (le_iff_toNat_le.1 hba))
  le_total a b := by
    rw [le_iff_toNat_le, le_iff_toNat_le]; exact Nat.le_total _ _
  lt_iff_le_not_ge a b := by
    rw [lt_iff_toNat_lt, le_iff_toNat_le, le_iff_toNat_le]; omega
  toDecidableLE := inferInstance
  toDecidableEq := inferInstance
  toDecidableLT := inferInstance
  toOrd := inferInstance
  compare_eq_compareOfLessAndEq _ _ := rfl

/-- The order of the bytes is the order of the numbers they spell. -/
theorem compare_toNat (a b : Address f) : compare a.toNat b.toNat = compare a b := by
  show compareOfLessAndEq a.toNat b.toNat = compareOfLessAndEq a b
  simp only [compareOfLessAndEq, lt_iff_toNat_lt, toNat_inj]

theorem toNat_clearAfter (a : Address f) (n : Nat) :
    (a.clearAfter n).toNat = a.toNat / f.span n * f.span n := by
  rw [Family.span, Family.bits, ← a.length_octets]
  exact Bytes.toNat_clearAfter n a.octets

theorem toNat_setAfter (a : Address f) (n : Nat) :
    (a.setAfter n).toNat = a.toNat / f.span n * f.span n + (f.span n - 1) := by
  rw [← toNat_clearAfter, Family.span, Family.bits, ← a.length_octets]
  exact Bytes.toNat_setAfter n a.octets

@[simp] theorem clearAfter_bits (a : Address f) : a.clearAfter f.bits = a := by
  rw [← toNat_inj, toNat_clearAfter, Family.span_bits, Nat.div_one, Nat.mul_one]

@[simp] theorem setAfter_bits (a : Address f) : a.setAfter f.bits = a := by
  rw [← toNat_inj, toNat_setAfter, Family.span_bits, Nat.div_one, Nat.mul_one]; rfl

theorem clearAfter_eq_self {a : Address f} {n : Nat} (h : f.span n ∣ a.toNat) : a.clearAfter n = a := by
  rw [← toNat_inj, toNat_clearAfter, Nat.div_mul_cancel h]

/-- Two addresses share their first `n` bits if they round down to the same number. -/
theorem clearAfter_eq_iff (a b : Address f) (n : Nat) :
    a.clearAfter n = b.clearAfter n ↔ a.toNat / f.span n = b.toNat / f.span n := by
  rw [← toNat_inj, toNat_clearAfter, toNat_clearAfter]
  exact Nat.mul_left_inj (Nat.pos_iff_ne_zero.1 (f.span_pos n))

theorem toNat_zero : (zero : Address f).toNat = 0 := by
  cases f <;> rfl

@[simp] theorem zero_clearAfter (n : Nat) : (zero : Address f).clearAfter n = zero := by
  rw [← toNat_inj, toNat_clearAfter, toNat_zero, Nat.zero_div, Nat.zero_mul]

theorem toNat_ones : (ones : Address f).toNat = 2 ^ f.bits - 1 := by
  cases f <;> rfl

theorem zero_le (a : Address f) : zero ≤ a := by
  rw [le_iff_toNat_le, toNat_zero]; exact Nat.zero_le _

theorem le_ones (a : Address f) : a ≤ ones := by
  have := a.toNat_lt
  rw [le_iff_toNat_le, toNat_ones]; omega

theorem add?_eq_some_iff {a b : Address f} {count : Nat} :
    a.add? count = some b ↔ b.toNat = a.toNat + count := by
  unfold add?
  split
  · rename_i h
    rw [Option.some.injEq, ← toNat_inj, toNat_ofNat_of_lt h]; exact eq_comm
  · have := b.toNat_lt
    simp only [reduceCtorEq, false_iff]; omega

theorem exists_add?_iff {a : Address f} {count : Nat} :
    (∃ b, a.add? count = some b) ↔ a.toNat + count < 2 ^ f.bits := by
  rw [add?, ← Option.isSome_iff_exists, Option.isSome_ite]

theorem next?_eq_some_iff {a b : Address f} : a.next? = some b ↔ b.toNat = a.toNat + 1 := add?_eq_some_iff

theorem lt_of_next? {a b : Address f} (h : a.next? = some b) : a < b := by
  rw [lt_iff_toNat_lt, next?_eq_some_iff.1 h]; omega

theorem sub?_eq_some_iff {a b : Address f} {count : Nat} :
    a.sub? count = some b ↔ b.toNat + count = a.toNat := by
  have hlt := a.toNat_lt
  unfold sub?
  split
  · rw [Option.some.injEq, ← toNat_inj, toNat_ofNat_of_lt (by omega)]
    omega
  · simp only [reduceCtorEq, false_iff]
    omega

theorem exists_sub?_iff {a : Address f} {count : Nat} : (∃ b, a.sub? count = some b) ↔ count ≤ a.toNat := by
  rw [sub?, ← Option.isSome_iff_exists, Option.isSome_ite]

theorem previous?_eq_some_iff {a b : Address f} : a.previous? = some b ↔ a.toNat = b.toNat + 1 :=
  sub?_eq_some_iff.trans eq_comm

theorem next?_eq_none_iff {a : Address f} : a.next? = none ↔ a = ones := by
  have hpos := Nat.two_pow_pos f.bits
  have hlt := a.toNat_lt
  rw [next?, add?, ← toNat_inj, toNat_ones]
  split <;> simp <;> omega

theorem previous?_eq_none_iff {a : Address f} : a.previous? = none ↔ a = zero := by
  rw [previous?, sub?, ← toNat_inj, toNat_zero]
  split <;> simp <;> omega

/-- Below another address there is always a next one. -/
theorem exists_next?_of_lt {a b : Address f} (h : a < b) : ∃ c, a.next? = some c ∧ a < c ∧ c ≤ b := by
  have hab := lt_iff_toNat_lt.1 h
  have hb := b.toNat_lt
  have hc : (ofNat f (a.toNat + 1)).toNat = a.toNat + 1 := toNat_ofNat_of_lt (by omega)
  refine ⟨ofNat f (a.toNat + 1), next?_eq_some_iff.2 hc, ?_, ?_⟩
  · rw [lt_iff_toNat_lt, hc]; omega
  · rw [le_iff_toNat_le, hc]; omega

end Address

/-! ## Either family -/

namespace AnyAddress

instance : LE AnyAddress := leOfOrd

instance : LT AnyAddress := ltOfOrd

variable {f : Family}

theorem compare_mk (a b : Address f) : compare (⟨f, a⟩ : AnyAddress) ⟨f, b⟩ = compare a b := by
  cases f <;> rfl

theorem mk_le_mk {a b : Address f} : (⟨f, a⟩ : AnyAddress) ≤ ⟨f, b⟩ ↔ a ≤ b := by
  show (compare (⟨f, a⟩ : AnyAddress) ⟨f, b⟩).isLE ↔ _
  rw [compare_mk, ← Ordering.ne_gt_iff_isLE]; exact compare_le_iff_le

theorem mk_lt_mk {a b : Address f} : (⟨f, a⟩ : AnyAddress) < ⟨f, b⟩ ↔ a < b := by
  show compare (⟨f, a⟩ : AnyAddress) ⟨f, b⟩ = .lt ↔ _
  rw [compare_mk]; exact compare_lt_iff_lt

/-- Between two addresses of one family there are addresses of that family only. -/
theorem between_iff {a b : Address f} {x : AnyAddress} :
    (⟨f, a⟩ ≤ x ∧ x ≤ ⟨f, b⟩) ↔ ∃ c : Address f, x = ⟨f, c⟩ ∧ a ≤ c ∧ c ≤ b := by
  constructor
  · rintro ⟨hax, hxb⟩
    obtain ⟨g, c⟩ := x
    by_cases hg : g = f
    · subst hg
      exact ⟨c, rfl, mk_le_mk.1 hax, mk_le_mk.1 hxb⟩
    · exfalso
      cases f <;> cases g
      · exact hg rfl
      · cases hxb
      · cases hax
      · exact hg rfl
  · rintro ⟨c, rfl, hac, hcb⟩
    exact ⟨mk_le_mk.2 hac, mk_le_mk.2 hcb⟩

end AnyAddress

end IpSpace
