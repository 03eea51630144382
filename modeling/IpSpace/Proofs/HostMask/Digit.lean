import IpSpace.Proofs.HostMask.Jump

/-!
# The two stages of a jump

A jump moves the digit in the partly masked byte first, and then the bytes above it by what the digit passes on. Each
stage is arithmetic on natural numbers, exact for every count that a word holds, and each is told by one equation:
* `MaskedByte.add?_eq_some_iff`, `MaskedByte.sub?_eq_some_iff`: what is passed on and the new digit are the two digits of
  a number, which determine each other. Any mask gives a radix, also one whose set bits do not adjoin.
* `BigEndian.add?_eq_some_iff`, `BigEndian.sub?_eq_some_iff`: the bytes keep their number, and what they spell moves by
  the count.

Both equations read alike in the two directions, so a move up is undone by the same move down.
-/
namespace IpSpace

/-- A number is spelled by two digits in one way only. -/
theorem two_digits_inj {hi lo hi' lo' r : Nat} (h : lo < r) (h' : lo' < r) :
    hi * r + lo = hi' * r + lo' ↔ hi = hi' ∧ lo = lo' := by
  have hlt : hi * r + lo < hi' * r + lo' ↔ _ := two_digits_lt_iff h h'
  have hgt : hi' * r + lo' < hi * r + lo ↔ _ := two_digits_lt_iff h' h
  omega

namespace MaskedByte

variable {mask value digit : UInt8} {count passed : Nat}

theorem add?_eq_none_iff : add? mask value count = none ↔ radix mask ≤ value.toNat := by
  unfold add?
  split <;> simp <;> omega

theorem sub?_eq_none_iff : sub? mask value count = none ↔ radix mask ≤ value.toNat := by
  unfold sub?
  split
  · split <;> simp <;> omega
  · simp; omega

/-- What is passed on is at most the count: the digit that is moved is worth less than one of it. -/
theorem passed_le {r low high : Nat} (hlow : low < r) (h : passed * r + high = low + count) : passed ≤ count := by
  by_contra hgt
  have hmul := Nat.mul_le_mul_right r (Nat.succ_le_of_lt (Nat.lt_of_not_le hgt))
  have hcount := Nat.le_mul_of_pos_right count (show 0 < r by omega)
  rw [Nat.succ_mul] at hmul
  omega

theorem add?_eq_some_iff (h : count ≤ Word.max) :
    add? mask value count = some (passed, digit) ↔
      value.toNat < radix mask ∧ digit.toNat < radix mask ∧
        passed * radix mask + digit.toNat = value.toNat + count := by
  have hbyte : radix mask ≤ 256 := Nat.sub_le _ _
  rcases Nat.lt_or_ge value.toNat (radix mask) with hv | hv
  · have hsum := Nat.div_add_mod' (value.toNat + count) (radix mask)
    have hrest := Nat.mod_lt (value.toNat + count) (show radix mask > 0 by omega)
    have hword := Nat.le_trans (passed_le hv hsum) h
    rw [add?_eq hv, Nat.min_eq_left hword, Option.some.injEq, Prod.mk.injEq, ← UInt8.toNat_inj, UInt8.toNat_ofNat',
      Nat.mod_eq_of_lt (show _ < 2 ^ 8 by omega)]
    constructor
    · rintro ⟨rfl, hdigit⟩
      exact ⟨hv, by omega, by omega⟩
    · rintro ⟨-, hdigit, hmoved⟩
      exact (two_digits_inj hrest hdigit).1 (hsum.trans hmoved.symm)
  · rw [add?_eq_none_iff.2 hv]
    simp only [reduceCtorEq, false_iff]
    omega

theorem sub?_eq_some_iff :
    sub? mask value count = some (passed, digit) ↔
      value.toNat < radix mask ∧ digit.toNat < radix mask ∧
        passed * radix mask + value.toNat = digit.toNat + count := by
  have hbyte : radix mask ≤ 256 := Nat.sub_le _ _
  rcases Nat.lt_or_ge value.toNat (radix mask) with hv | hv
  · obtain ⟨borrow, rest, hsub, hrest, hpay⟩ := sub?_eq hv count
    rw [hsub, Option.some.injEq, Prod.mk.injEq, ← UInt8.toNat_inj, UInt8.toNat_ofNat',
      Nat.mod_eq_of_lt (show _ < 2 ^ 8 by omega)]
    constructor
    · rintro ⟨rfl, hdigit⟩
      exact ⟨hv, by omega, by omega⟩
    · rintro ⟨-, hdigit, hmoved⟩
      -- two digits and the count on either side
      have hsame : borrow * radix mask + digit.toNat = passed * radix mask + rest := by omega
      obtain ⟨hpassed, hdigit'⟩ := (two_digits_inj hdigit hrest).1 hsame
      exact ⟨hpassed, hdigit'.symm⟩
  · rw [sub?_eq_none_iff.2 hv]
    simp only [reduceCtorEq, false_iff]
    omega

/-- A digit is moved down to another one where that one is moved up to it, and both pass on the same. -/
theorem sub?_eq_some_iff_add? (h : count ≤ Word.max) :
    sub? mask digit count = some (passed, value) ↔ add? mask value count = some (passed, digit) := by
  rw [sub?_eq_some_iff, add?_eq_some_iff h]
  exact and_left_comm

/-- The digit in a partly masked byte moves by any word, up and down, to the digit that it has to be, and passes on
exactly what is left. The way down from there leads back. -/
theorem digit_moves_exactly (mask value : UInt8) {count : Nat} (h : count ≤ Word.max) :
    (add? mask value count = none ↔ radix mask ≤ value.toNat) ∧
    (sub? mask value count = none ↔ radix mask ≤ value.toNat) ∧
    (value.toNat < radix mask →
      (∃ carry digit, add? mask value count = some (carry, digit) ∧ carry ≤ Word.max ∧
        digit.toNat < radix mask ∧ carry * radix mask + digit.toNat = value.toNat + count ∧
        sub? mask digit count = some (carry, value)) ∧
      ∃ borrow digit, sub? mask value count = some (borrow, digit) ∧ borrow ≤ Word.max ∧
        digit.toNat < radix mask ∧ digit.toNat + count = value.toNat + borrow * radix mask) := by
  refine ⟨add?_eq_none_iff, sub?_eq_none_iff, fun hv => ⟨?_, ?_⟩⟩
  · obtain ⟨⟨carry, digit⟩, hadd⟩ := Option.ne_none_iff_exists'.1 (mt add?_eq_none_iff.1 (Nat.not_le.2 hv))
    obtain ⟨-, hdigit, hsum⟩ := (add?_eq_some_iff h).1 hadd
    exact ⟨carry, digit, hadd, Nat.le_trans (passed_le hv hsum) h, hdigit, hsum, (sub?_eq_some_iff_add? h).2 hadd⟩
  · obtain ⟨⟨borrow, digit⟩, hsub⟩ := Option.ne_none_iff_exists'.1 (mt sub?_eq_none_iff.1 (Nat.not_le.2 hv))
    obtain ⟨-, hdigit, hpay⟩ := sub?_eq_some_iff.1 hsub
    exact ⟨borrow, digit, hsub, Nat.le_trans (passed_le hdigit hpay) h, hdigit, by omega⟩

/-- Under a mask of bits that do not adjoin, 63 values are left: the last of them moves up by the largest word and back,
and the byte after it is no digit. -/
theorem digit_moves_exactly_widest :
    Word.max ≤ Word.max ∧ radix 0xc1 ≤ (0x3f : UInt8).toNat ∧ add? 0xc1 0x3f Word.max = none ∧
    (0x3e : UInt8).toNat < radix 0xc1 ∧
    ∃ carry digit, add? 0xc1 0x3e Word.max = some (carry, digit) ∧ carry * 63 + digit.toNat = 62 + Word.max ∧
      sub? 0xc1 digit Word.max = some (carry, 0x3e) := by
  refine ⟨Nat.le_refl _, by decide, (digit_moves_exactly 0xc1 0x3f (Nat.le_refl _)).1.2 (by decide), by decide, ?_⟩
  obtain ⟨carry, digit, hadd, -, -, hsum, hsub⟩ := ((digit_moves_exactly 0xc1 0x3e (Nat.le_refl _)).2.2 (by decide)).1
  exact ⟨carry, digit, hadd, hsum, hsub⟩

end MaskedByte

namespace BigEndian

variable {bytes moved : List UInt8} {count : Nat}

/-- Bytes are those of a number at a width where they spell it. -/
theorem ofNat_eq_iff {width value : Nat} (h : value < 256 ^ width) :
    ofNat width value = moved ↔ moved.length = width ∧ toNat moved = value := by
  constructor
  · rintro rfl
    exact ⟨length_ofNat _ _, toNat_ofNat_of_lt h⟩
  · rintro ⟨rfl, rfl⟩
    exact ofNat_toNat moved

theorem add?_eq_some_iff :
    add? bytes count = some moved ↔
      bytes.length ≤ maxWidth ∧ moved.length = bytes.length ∧ toNat moved = toNat bytes + count := by
  rw [add?_eq, Option.ite_none_right_eq_some, Option.some.injEq]
  constructor
  · rintro ⟨⟨hw, hfits⟩, hmoved⟩
    exact ⟨hw, (ofNat_eq_iff hfits).1 hmoved⟩
  · rintro ⟨hw, hlen, hsum⟩
    have hfits := toNat_lt moved
    rw [hlen, hsum] at hfits
    exact ⟨⟨hw, hfits⟩, (ofNat_eq_iff hfits).2 ⟨hlen, hsum⟩⟩

theorem sub?_eq_some_iff :
    sub? bytes count = some moved ↔
      bytes.length ≤ maxWidth ∧ moved.length = bytes.length ∧ toNat moved + count = toNat bytes := by
  have hfits : toNat bytes - count < 256 ^ bytes.length := Nat.lt_of_le_of_lt (Nat.sub_le _ _) (toNat_lt bytes)
  rw [sub?_eq, Option.ite_none_right_eq_some, Option.some.injEq, ofNat_eq_iff hfits]
  omega

/-- At most sixteen bytes move up by any count that leaves them room and down by any count that they spell at least, and
no others move. The bytes stay as many as they are, and what they spell moves by the count. -/
theorem bytes_move_exactly (bytes : List UInt8) (count : Nat) :
    ((∃ moved, add? bytes count = some moved) ↔
      bytes.length ≤ 16 ∧ toNat bytes + count < 256 ^ bytes.length) ∧
    (∀ moved, add? bytes count = some moved →
      moved.length = bytes.length ∧ toNat moved = toNat bytes + count) ∧
    ((∃ moved, sub? bytes count = some moved) ↔ bytes.length ≤ 16 ∧ count ≤ toNat bytes) ∧
    ∀ moved, sub? bytes count = some moved →
      moved.length = bytes.length ∧ toNat moved = toNat bytes - count := by
  refine ⟨?_, fun moved hmoved => (add?_eq_some_iff.1 hmoved).2, ?_, fun moved hmoved => ?_⟩
  · rw [add?_eq, ← Option.isSome_iff_exists, Option.isSome_ite]
    exact Iff.rfl
  · rw [sub?_eq, ← Option.isSome_iff_exists, Option.isSome_ite]
    exact Iff.rfl
  · obtain ⟨-, hlen, hdiff⟩ := sub?_eq_some_iff.1 hmoved
    exact ⟨hlen, Nat.eq_sub_of_add_eq hdiff⟩

/-- The widest bytes that are all set have no room for one more, and the empty ones spell zero. -/
theorem bytes_move_exactly_full :
    (∃ moved, sub? (List.replicate 16 0xff) 1 = some moved ∧ moved.length = 16) ∧
    (¬ ∃ moved, add? (List.replicate 16 0xff) 1 = some moved) ∧
    (∃ moved, add? [] 0 = some moved ∧ moved.length = 0) ∧ ¬ ∃ moved, sub? [] 1 = some moved := by
  obtain ⟨hup, -, hdown, hlen⟩ := bytes_move_exactly (List.replicate 16 0xff) 1
  obtain ⟨moved, hmoved⟩ := hdown.2 (by decide +kernel)
  obtain ⟨hzero, hzeroLen, -, -⟩ := bytes_move_exactly [] 0
  obtain ⟨empty, hempty⟩ := hzero.2 (by decide)
  exact ⟨⟨moved, hmoved, (hlen moved hmoved).1⟩, mt hup.1 (by decide +kernel),
    ⟨empty, hempty, (hzeroLen empty hempty).1⟩, mt (bytes_move_exactly [] 1).2.2.1.1 (by decide)⟩

end BigEndian

end IpSpace
