import IpSpace.Bytes.Word

/-!
# Numbers as bytes, most significant first

`toNat` reads a list of bytes as a number in base 256 and `ofNat` writes a number at a given width. The two are mutual
inverses at every width (`ofNat_toNat`, `toNat_ofNat`), and at equal width the order of the numbers is the
lexicographic order of the bytes (`lt_iff_toNat_lt`).

`add?` and `sub?` read the bytes as a word, compute, and write the result at the same width. There is no wraparound: a
result that does not fit is `none` (`add?_eq`, `sub?_eq`).
-/
namespace IpSpace.BigEndian

/-- The number that `bytes` spell. -/
def toNat (bytes : List UInt8) : Nat :=
  bytes.foldl (fun value byte => 256 * value + byte.toNat) 0

/-- The lowest `width` bytes of `value`. -/
def ofNat : Nat → Nat → List UInt8
  | 0, _ => []
  | width + 1, value => UInt8.ofNat (value / 256 ^ width) :: ofNat width value

/-! ## The two are inverse -/

theorem foldl_eq (bytes : List UInt8) (start : Nat) :
    bytes.foldl (fun value byte => 256 * value + byte.toNat) start =
      start * 256 ^ bytes.length + toNat bytes := by
  induction bytes generalizing start with
  | nil => simp [toNat]
  | cons b bs ih =>
    simp only [toNat, List.foldl_cons, List.length_cons]
    rw [ih, ih (256 * 0 + b.toNat), Nat.pow_succ]
    simp only [Nat.mul_zero, Nat.zero_add, Nat.add_mul]
    rw [Nat.mul_comm 256 start, Nat.mul_assoc, Nat.mul_comm 256, Nat.add_assoc]

@[simp] theorem toNat_nil : toNat [] = 0 := rfl

theorem toNat_cons (b : UInt8) (bs : List UInt8) :
    toNat (b :: bs) = b.toNat * 256 ^ bs.length + toNat bs := by
  rw [toNat, List.foldl_cons, foldl_eq]; simp

theorem toNat_append (as bs : List UInt8) :
    toNat (as ++ bs) = toNat as * 256 ^ bs.length + toNat bs := by
  rw [toNat, List.foldl_append, foldl_eq]; rfl

theorem toNat_lt (bytes : List UInt8) : toNat bytes < 256 ^ bytes.length := by
  induction bytes with
  | nil => simp
  | cons b bs ih =>
    have hb : b.toNat + 1 ≤ 256 := b.toNat_lt
    have := Nat.mul_le_mul_right (256 ^ bs.length) hb
    rw [Nat.add_mul] at this
    rw [toNat_cons, List.length_cons, Nat.pow_succ]
    omega

@[simp] theorem length_ofNat (width value : Nat) : (ofNat width value).length = width := by
  induction width with
  | zero => rfl
  | succ width ih => simp [ofNat, ih]

theorem toNat_ofNat (width value : Nat) : toNat (ofNat width value) = value % 256 ^ width := by
  induction width with
  | zero => simp [ofNat, Nat.mod_one]
  | succ width ih =>
    rw [ofNat, toNat_cons, length_ofNat, ih, Nat.pow_succ, Nat.mod_mul, UInt8.toNat_ofNat']
    have : (2 : Nat) ^ 8 = 256 := rfl
    rw [this, Nat.mul_comm, Nat.add_comm]

theorem toNat_ofNat_of_lt {width value : Nat} (h : value < 256 ^ width) : toNat (ofNat width value) = value := by
  rw [toNat_ofNat, Nat.mod_eq_of_lt h]

/-- At equal width the number determines the bytes. -/
theorem toNat_inj {as bs : List UInt8} (hl : as.length = bs.length) (h : toNat as = toNat bs) : as = bs := by
  induction as generalizing bs with
  | nil => exact (List.length_eq_zero_iff.1 hl.symm).symm
  | cons a as ih =>
    cases bs with
    | nil => simp at hl
    | cons b bs =>
      simp only [List.length_cons, Nat.add_right_cancel_iff] at hl
      have ha := toNat_lt as
      have hb := toNat_lt bs
      rw [toNat_cons, toNat_cons, hl] at h
      rw [hl] at ha
      have hp : 0 < 256 ^ bs.length := Nat.pow_pos (by decide)
      have hq : a.toNat = b.toNat := by
        have h1 := congrArg (· / 256 ^ bs.length) h
        simpa [Nat.mul_add_div hp, Nat.mul_comm _ (256 ^ bs.length), Nat.div_eq_of_lt ha, Nat.div_eq_of_lt hb] using h1
      rw [hq] at h
      rw [ih hl (by omega), UInt8.toNat_inj.1 hq]

theorem ofNat_toNat (bytes : List UInt8) : ofNat bytes.length (toNat bytes) = bytes :=
  toNat_inj (length_ofNat _ _) (toNat_ofNat_of_lt (toNat_lt bytes))

/-! ## Order -/

/-- At equal width bytes are ordered as their numbers. -/
theorem lt_iff_toNat_lt {as bs : List UInt8} (hl : as.length = bs.length) : as < bs ↔ toNat as < toNat bs := by
  induction as generalizing bs with
  | nil =>
    rw [List.length_eq_zero_iff.1 hl.symm]
    simp
  | cons a as ih =>
    cases bs with
    | nil => simp at hl
    | cons b bs =>
      simp only [List.length_cons, Nat.add_right_cancel_iff] at hl
      have ha := toNat_lt as
      have hb := toNat_lt bs
      rw [hl] at ha
      rw [List.cons_lt_cons_iff, toNat_cons, toNat_cons, hl, UInt8.lt_iff_toNat_lt, ih hl]
      constructor
      · rintro (h | ⟨rfl, h⟩)
        · have := Nat.mul_le_mul_right (256 ^ bs.length) (Nat.succ_le_of_lt h)
          rw [Nat.succ_mul] at this
          omega
        · omega
      · intro h
        rcases Nat.lt_trichotomy a.toNat b.toNat with hab | hab | hab
        · exact .inl hab
        · rw [hab] at h
          exact .inr ⟨UInt8.toNat_inj.1 hab, by omega⟩
        · have := Nat.mul_le_mul_right (256 ^ bs.length) (Nat.succ_le_of_lt hab)
          rw [Nat.succ_mul] at this
          omega

/-! ## Arithmetic that keeps the width -/

/-- The widest number that is read, in bytes. -/
def maxWidth : Nat := 16

/-- The word that `bytes` spell: `none` if there are too many of them. Models `from_be_bytes`. -/
def read? (bytes : List UInt8) : Option Nat :=
  if bytes.length ≤ maxWidth then some (toNat bytes) else none

/-- The word `value` in `width` bytes: `none` if it has a bit beyond them. Models `to_be_bytes`. -/
def write? (width value : Nat) : Option (List UInt8) :=
  if (Word.shiftRight? value (8 * width)).getD 0 = 0 then some (ofNat width value) else none

/-- Adds `count`. Models `increment_unmasked_bytes`. -/
def add? (bytes : List UInt8) (count : Nat) : Option (List UInt8) := do
  let sum ← Word.add? (← read? bytes) count
  write? bytes.length sum

/-- Takes `count` away. Models `decrement_unmasked_bytes`. -/
def sub? (bytes : List UInt8) (count : Nat) : Option (List UInt8) := do
  let difference ← Word.sub? (← read? bytes) count
  write? bytes.length difference

/-- A word has no bits beyond the widest number, and its bits beyond a narrower one are what the shift leaves. -/
theorem write?_eq {width value : Nat} (hw : width ≤ maxWidth) (hv : value ≤ Word.max) :
    write? width value = if value < 256 ^ width then some (ofNat width value) else none := by
  have hfits : (Word.shiftRight? value (8 * width)).getD 0 = 0 ↔ value < 256 ^ width := by
    rw [Word.shiftRight?]
    split
    · rw [Option.getD_some, Nat.shiftRight_eq_div_pow, Nat.pow_mul]
      exact Nat.div_eq_zero_iff_lt (Nat.pow_pos (by decide))
    · rename_i hbits
      obtain rfl : width = 16 := by rw [maxWidth] at hw; rw [Word.bits] at hbits; omega
      rw [Word.max, Word.bits] at hv
      exact iff_of_true rfl (by omega)
  simp only [write?, hfits]

theorem add?_eq (bytes : List UInt8) (count : Nat) :
    add? bytes count =
      if bytes.length ≤ maxWidth ∧ toNat bytes + count < 256 ^ bytes.length then
        some (ofNat bytes.length (toNat bytes + count))
      else none := by
  by_cases hw : bytes.length ≤ maxWidth
  · have hmax : 256 ^ bytes.length ≤ Word.max + 1 := Nat.pow_le_pow_right (by decide) hw
    simp only [add?, read?, Word.add?, hw, if_true, true_and, Option.bind_eq_bind, Option.bind_some]
    split
    · exact write?_eq hw ‹_›
    · rw [Option.bind_none, if_neg (by omega)]
  · simp [add?, read?, hw]

theorem sub?_eq (bytes : List UInt8) (count : Nat) :
    sub? bytes count =
      if bytes.length ≤ maxWidth ∧ count ≤ toNat bytes then
        some (ofNat bytes.length (toNat bytes - count))
      else none := by
  have hlt := toNat_lt bytes
  by_cases hw : bytes.length ≤ maxWidth
  · have hmax : 256 ^ bytes.length ≤ Word.max + 1 := Nat.pow_le_pow_right (by decide) hw
    simp only [sub?, read?, Word.sub?, hw, if_true, true_and, Option.bind_eq_bind, Option.bind_some]
    split
    · rw [Option.bind_some, write?_eq hw (by omega), if_pos (by omega)]
    · rfl
  · simp [sub?, read?, hw]

end IpSpace.BigEndian
