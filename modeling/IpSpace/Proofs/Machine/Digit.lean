import IpSpace.HostMask.Digit
import IpSpace.Bytes.BigEndian
import IpSpace.Proofs.Machine.Checked

/-!
# Digits and words with checked operations

A jump under a host mask moves the digit in a partly masked byte and then the bytes above it, which are read as one word.
Counts are words of `Word.bits` bits and positions words of 64 bits.

The digit cannot overflow because the count is split by the radix first (`digitAdd_eq`), and the borrow is raised by one
only where the radix is at least two (`digitSub_eq`).
-/
namespace IpSpace

/-! ## Numbers as bytes -/

namespace BigEndian

/-- The lowest bytes of a number are the last ones of it written wider. -/
theorem drop_ofNat (k width value : Nat) : (ofNat (k + width) value).drop k = ofNat width value := by
  induction k with
  | zero => rw [Nat.zero_add]; rfl
  | succ k ih => rw [Nat.succ_add, ofNat, List.drop_succ_cons, ih]

end BigEndian

namespace Machine

/-! ## One digit -/

/-- Adds `count` to the digit `value`: the carry and the new digit. Models `increment_boundary_byte`. -/
def digitAdd (mask value : UInt8) (count : Nat) : Checked (Option (Nat × UInt8)) := do
  let radix ← Checked.sub 256 mask.toNat
  if radix ≤ value.toNat then return none
  else
    let sum ← Checked.add Word.bits (← Checked.mod count radix) value.toNat
    let carry := Word.saturatingAdd (← Checked.div count radix) (← Checked.div sum radix)
    return some (carry, ← Checked.byte (← Checked.mod sum radix))

/-- Takes `count` from the digit `value`: the borrow and the new digit. Models `decrement_boundary_byte`. -/
def digitSub (mask value : UInt8) (count : Nat) : Checked (Option (Nat × UInt8)) := do
  let radix ← Checked.sub 256 mask.toNat
  if radix ≤ value.toNat then return none
  else
    let borrow ← Checked.div count radix
    let rest ← Checked.mod count radix
    if value.toNat < rest then
      let borrow ← Checked.add Word.bits borrow 1
      let raised ← Checked.add Word.bits value.toNat radix
      return some (borrow, ← Checked.byte (← Checked.sub raised rest))
    else return some (borrow, ← Checked.byte (← Checked.sub value.toNat rest))

theorem radix_ok (mask : UInt8) : Checked.sub 256 mask.toNat = .ok (MaskedByte.radix mask) :=
  Checked.sub_ok (Nat.le_of_lt mask.toNat_lt)

theorem digitAdd_eq (mask value : UInt8) (count : Nat) :
    digitAdd mask value count = .ok (MaskedByte.add? mask value count) := by
  have hbyte : MaskedByte.radix mask ≤ 256 := Nat.sub_le _ _
  rw [digitAdd, MaskedByte.add?, radix_ok, Checked.ok_bind]
  generalize MaskedByte.radix mask = radix at *
  rcases Nat.lt_or_ge value.toNat radix with hlt | hge
  · have hpos : 0 < radix := by omega
    have hcount := Nat.mod_lt count hpos
    have hsum := Nat.mod_lt (count % radix + value.toNat) hpos
    have hword : count % radix + value.toNat < 2 ^ Word.bits := by rw [Word.bits]; omega
    rw [if_neg (Nat.not_le.2 hlt), if_pos hlt]
    simp only [Checked.mod_ok hpos, Checked.div_ok hpos, Checked.add_ok hword, Checked.ok_bind,
      Checked.byte_ok (Nat.lt_of_lt_of_le hsum hbyte)]
    rfl
  · rw [if_pos hge, if_neg (Nat.not_lt.2 hge)]; rfl

theorem digitSub_eq (mask value : UInt8) {count : Nat} (h : count < 2 ^ Word.bits) :
    digitSub mask value count = .ok (MaskedByte.sub? mask value count) := by
  have hbyte : MaskedByte.radix mask ≤ 256 := Nat.sub_le _ _
  rw [digitSub, MaskedByte.sub?, radix_ok, Checked.ok_bind]
  generalize MaskedByte.radix mask = radix at *
  rcases Nat.lt_or_ge value.toNat radix with hlt | hge
  · have hpos : 0 < radix := by omega
    have hrest := Nat.mod_lt count hpos
    rw [if_neg (Nat.not_le.2 hlt), if_pos hlt]
    simp only [Checked.mod_ok hpos, Checked.div_ok hpos, Checked.ok_bind]
    rcases Nat.lt_or_ge value.toNat (count % radix) with hlack | hpays
    · -- a digit of radix one is zero and so is the rest, so here the borrow is at most half the count
      have htwo : 2 ≤ radix := by omega
      have hhalf : count / radix ≤ count / 2 := Nat.div_le_div_left htwo (by decide)
      have hborrow : count / radix + 1 < 2 ^ Word.bits := by rw [Word.bits] at *; omega
      have hraised : value.toNat + radix < 2 ^ Word.bits := by rw [Word.bits]; omega
      rw [if_pos hlack, if_neg (Nat.not_le.2 hlack), Checked.add_ok hborrow, Checked.ok_bind, Checked.add_ok hraised,
        Checked.ok_bind, Checked.sub_ok (by omega), Checked.ok_bind, Checked.byte_ok (by omega)]
      rfl
    · rw [if_neg (Nat.not_lt.2 hpays), if_pos hpays, Checked.sub_ok hpays, Checked.ok_bind,
        Checked.byte_ok (by omega)]
      rfl
  · rw [if_pos hge, if_neg (Nat.not_lt.2 hge)]; rfl

/-! ## The bytes above it -/

/-- The word that `bytes` spell: `none` if there are too many of them. Models `from_be_bytes`. -/
def readWord (bytes : List UInt8) : Checked (Option Nat) :=
  if BigEndian.maxWidth < bytes.length then return none
  else some <$> bytes.foldlM (fun value byte => do return (← Checked.shiftLeft Word.bits value 8) ||| byte.toNat) 0

/-- The word `value` in `width` bytes: `none` if it has a bit beyond them, or the width in bits is wider than 32 bits.
Models `to_be_bytes`. -/
def writeWord (width value : Nat) : Checked (Option (List UInt8)) := do
  let bits ← Checked.mul 64 8 width
  if bits ≤ 0xffffffff ∧ (Word.shiftRight? value bits).getD 0 = 0 then
    let octets := BigEndian.ofNat BigEndian.maxWidth value
    return some (← Checked.drop octets (← Checked.sub BigEndian.maxWidth width))
  else return none

/-- Reads `bytes` as a word, computes, and writes the result in as many bytes. -/
def moveWord (op : Nat → Nat → Option Nat) (bytes : List UInt8) (count : Nat) : Checked (Option (List UInt8)) := do
  match (← readWord bytes).bind (op · count) with
  | none => return none
  | some value => writeWord bytes.length value

/-- A byte more is a shift by eight bits, which a word that is not yet full has room for. -/
theorem foldlM_shift (bytes : List UInt8) {k value : Nat} (hv : value < 256 ^ k)
    (hk : k + bytes.length ≤ BigEndian.maxWidth) :
    bytes.foldlM (fun value byte => do return (← Checked.shiftLeft Word.bits value 8) ||| byte.toNat) value =
      (.ok (bytes.foldl (fun value byte => 256 * value + byte.toNat) value) : Checked Nat) := by
  induction bytes generalizing k value with
  | nil => rfl
  | cons byte bytes ih =>
    rw [List.length_cons] at hk
    have hbyte : byte.toNat < 2 ^ 8 := byte.toNat_lt
    have hnext : 256 * value + byte.toNat < 256 ^ (k + 1) := by rw [Nat.pow_succ]; omega
    have hword : 256 ^ (k + 1) ≤ 2 ^ Word.bits :=
      Nat.pow_le_pow_right (n := 256) (by decide) (show k + 1 ≤ 16 by rw [BigEndian.maxWidth] at hk; omega)
    have hor : value * 2 ^ 8 ||| byte.toNat = 256 * value + byte.toNat := by
      rw [Nat.mul_comm, ← Nat.two_pow_add_eq_or_of_lt hbyte]
    rw [List.foldlM_cons, Checked.shiftLeft_ok (by decide) (by omega), Checked.ok_bind, hor]
    exact ih hnext (by omega)

theorem readWord_eq (bytes : List UInt8) : readWord bytes = .ok (BigEndian.read? bytes) := by
  unfold readWord BigEndian.read?
  split
  · rename_i hlong
    rw [if_neg (Nat.not_le.2 hlong)]; rfl
  · rename_i hshort
    rw [if_pos (Nat.not_lt.1 hshort), foldlM_shift bytes (k := 0) (by decide) (by omega)]
    rfl

theorem writeWord_eq {width : Nat} (h : width ≤ BigEndian.maxWidth) (value : Nat) :
    writeWord width value = .ok (BigEndian.write? width value) := by
  have hmax : BigEndian.maxWidth = 16 := rfl
  obtain ⟨k, hk⟩ := Nat.exists_eq_add_of_le' h
  rw [writeWord, BigEndian.write?, Checked.mul_ok (by omega), Checked.ok_bind]
  have hbits : 8 * width ≤ 0xffffffff := by omega
  simp only [hbits, true_and]
  split
  · rw [Checked.sub_ok h, Checked.ok_bind, hk, Nat.add_sub_cancel,
      Checked.drop_ok (by rw [BigEndian.length_ofNat]; omega), BigEndian.drop_ofNat]
    rfl
  · rfl

theorem moveWord_eq (op : Nat → Nat → Option Nat) (bytes : List UInt8) (count : Nat) :
    moveWord op bytes count =
      .ok (((BigEndian.read? bytes).bind (op · count)).bind (BigEndian.write? bytes.length)) := by
  rw [moveWord, readWord_eq, Checked.ok_bind]
  cases hop : (BigEndian.read? bytes).bind (op · count) with
  | none => rfl
  | some value =>
    have hw : bytes.length ≤ BigEndian.maxWidth := by
      refine Decidable.byContradiction fun hlong => ?_
      rw [BigEndian.read?, if_neg hlong] at hop
      cases hop
    exact writeWord_eq hw value

/-- The bytes that spell `count` more. Models `increment_unmasked_bytes`. -/
def bytesAdd : List UInt8 → Nat → Checked (Option (List UInt8)) := moveWord Word.add?

/-- The bytes that spell `count` less. Models `decrement_unmasked_bytes`. -/
def bytesSub : List UInt8 → Nat → Checked (Option (List UInt8)) := moveWord Word.sub?

theorem bytesAdd_eq (bytes : List UInt8) (count : Nat) : bytesAdd bytes count = .ok (BigEndian.add? bytes count) := by
  rw [bytesAdd, moveWord_eq, Option.bind_assoc]; rfl

theorem bytesSub_eq (bytes : List UInt8) (count : Nat) : bytesSub bytes count = .ok (BigEndian.sub? bytes count) := by
  rw [bytesSub, moveWord_eq, Option.bind_assoc]; rfl

end Machine

end IpSpace
