import IpSpace.Proofs.Address.Masking
import IpSpace.Proofs.Machine.Checked

/-!
# Masking with checked operations

`clearAfter` and `setAfter` find the byte in which the first `n` bits end by its position, and treat the whole bytes
before it and the ones after it as ranges. Lengths in bits are words of 8 bits and positions words of 64 bits. The
functions on lists work byte by byte; `Bytes.clearAfter_of_lt` and `Bytes.setAfter_of_lt` bring them to the same three
parts.
-/
namespace IpSpace

variable {f : Family}

theorem Family.bytes_le (f : Family) : f.bytes ≤ 16 := by cases f <;> decide

/-! ## The three parts of masked bytes -/

namespace Bytes

variable {n : Nat} {bytes : List UInt8}

theorem clearAfter_of_lt (h : n / 8 < bytes.length) :
    clearAfter n bytes =
      bytes.take (n / 8) ++ (bytes[n / 8] &&& leading (n % 8)) :: List.replicate (bytes.length - (n / 8 + 1)) 0 := by
  rw [clearAfter_eq_each, each_of_lt and_leading_whole and_leading_zero h]

theorem clearAfter_of_le (h : 8 * bytes.length ≤ n) : clearAfter n bytes = bytes := by
  rw [clearAfter_eq_each, each_of_le and_leading_whole h]

theorem setAfter_of_lt (h : n / 8 < bytes.length) :
    setAfter n bytes =
      bytes.take (n / 8) ++ (bytes[n / 8] ||| ~~~leading (n % 8)) :: List.replicate (bytes.length - (n / 8 + 1)) 0xff := by
  rw [setAfter_eq_each, each_of_lt or_leading_whole or_leading_zero h]

theorem setAfter_of_le (h : 8 * bytes.length ≤ n) : setAfter n bytes = bytes := by
  rw [setAfter_eq_each, each_of_le or_leading_whole h]

end Bytes

namespace Machine

/-! ## Masks of addresses -/

/-- The byte whose first `n` bits are set. Models `mask`. -/
def leading (n : Nat) : Checked UInt8 := do
  let low ← Checked.shiftRight 8 0xff n
  return ~~~UInt8.ofNat low

/-- As many bytes as the family has. -/
def address (octets : List UInt8) : Checked (Address f) :=
  if h : octets.length = f.bytes then .ok ⟨octets, h⟩ else .error .bounds

/-- Keeps the first `n` bits and clears the rest. Models `AddressBuffer.prefix`. -/
def clearAfter (a : Address f) (n : Nat) : Checked (Address f) := do
  let n := min n f.bits
  let wholes := n / 8
  let octets ← Checked.overwrite (List.replicate f.bytes 0) wholes (← Checked.take a.octets wholes)
  if n % 8 = 0 then address octets
  else address (← Checked.set octets wholes ((← Checked.index a.octets wholes) &&& (← leading (n % 8))))

/-- Keeps the first `n` bits and sets the rest. Models `AddressBuffer.host_bits_set`. -/
def setAfter (a : Address f) (n : Nat) : Checked (Address f) := do
  let n := min n f.bits
  let wholes := n / 8
  let (octets, wholes) ←
    if n % 8 = 0 then pure (a.octets, wholes)
    else do
      let octets ← Checked.set a.octets wholes ((← Checked.index a.octets wholes) ||| ~~~(← leading (n % 8)))
      pure (octets, ← Checked.add 64 wholes 1)
  let rest ← Checked.drop octets wholes
  address (octets.take wholes ++ rest.map fun _ => 0xff)

theorem leading_eq {n : Nat} (h : n < 8) : leading n = .ok (IpSpace.leading n) := by
  have hbyte : ∀ k : Fin 8, ~~~UInt8.ofNat (0xff / 2 ^ k.val) = IpSpace.leading k := by decide
  rw [leading, Checked.shiftRight_ok h, Checked.ok_bind, hbyte ⟨n, h⟩]; rfl

theorem address_ok (a : Address f) {octets : List UInt8} (h : octets = a.octets) : address octets = .ok a := by
  subst h; exact dif_pos a.length_octets

theorem clearAfter_eq (a : Address f) (n : Nat) : clearAfter a n = .ok (a.clearAfter n) := by
  have hlen := a.length_octets
  have hbits : f.bits = 8 * f.bytes := rfl
  rcases Nat.lt_or_ge n f.bits with hlt | hge
  · have hwhole : n / 8 < a.octets.length := by omega
    have hmodel := Bytes.clearAfter_of_lt hwhole
    have hsucc : f.bytes - n / 8 = a.octets.length - (n / 8 + 1) + 1 := by omega
    have hcopy : Checked.overwrite (List.replicate f.bytes 0) (n / 8) (a.octets.take (n / 8)) =
        .ok (a.octets.take (n / 8) ++ 0 :: List.replicate (a.octets.length - (n / 8 + 1)) 0) := by
      rw [Checked.overwrite_ok (by simp; omega) (by simp; omega), List.drop_replicate, hsucc, List.replicate_succ]
    simp only [clearAfter, Nat.min_eq_left (Nat.le_of_lt hlt), Checked.take_ok (Nat.le_of_lt hwhole),
      Checked.ok_bind, hcopy]
    split
    · rename_i hrest
      rw [hrest, Bytes.and_leading_zero] at hmodel
      exact address_ok _ hmodel.symm
    · have hplace : (a.octets.take (n / 8)).length = n / 8 := by simp; omega
      rw [Checked.index_ok hwhole, leading_eq (Nat.mod_lt n (by decide)), Checked.ok_bind, Checked.ok_bind,
        Checked.set_ok (by simp; omega), Checked.ok_bind, List.set_append_right _ _ (by omega), hplace, Nat.sub_self]
      exact address_ok _ hmodel.symm
  · -- all bytes are whole
    have hwhole : f.bits / 8 = f.bytes := by omega
    have hrest : f.bits % 8 = 0 := by omega
    have hmodel : (a.clearAfter n).octets = a.octets := Bytes.clearAfter_of_le (by omega)
    have hall : a.octets.take f.bytes = a.octets := by rw [← hlen, List.take_length]
    simp only [clearAfter, Nat.min_eq_right hge, hwhole, hrest, if_true, hall, Checked.take_ok (Nat.le_of_eq hlen.symm),
      Checked.ok_bind, Checked.overwrite_ok (Nat.le_of_eq (List.length_replicate.symm)) hlen]
    exact address_ok _ (by simp [hmodel])

theorem setAfter_eq (a : Address f) (n : Nat) : setAfter a n = .ok (a.setAfter n) := by
  have hlen := a.length_octets
  have hbits : f.bits = 8 * f.bytes := rfl
  rcases Nat.lt_or_ge n f.bits with hlt | hge
  · have hwhole : n / 8 < a.octets.length := by omega
    have hmodel : (a.setAfter n).octets = _ := Bytes.setAfter_of_lt hwhole
    have hfits : n / 8 + 1 < 2 ^ 64 := by have := f.bytes_le; omega
    simp only [setAfter, Nat.min_eq_left (Nat.le_of_lt hlt)]
    split
    · rename_i hrest
      have hsucc : f.bytes - n / 8 = a.octets.length - (n / 8 + 1) + 1 := by omega
      rw [hrest, Bytes.or_leading_zero] at hmodel
      simp only [Checked.pure_eq, Checked.ok_bind, Checked.drop_ok (Nat.le_of_lt hwhole)]
      exact address_ok _ (by rw [hmodel, List.map_const', List.length_drop, hlen, hsucc, hlen, List.replicate_succ])
    · simp only [Checked.index_ok hwhole, leading_eq (Nat.mod_lt n (show 0 < 8 by decide)), Checked.pure_eq,
        Checked.ok_bind, Checked.set_ok hwhole, Checked.add_ok hfits]
      rw [Checked.drop_ok (by rw [List.length_set]; omega)]
      refine address_ok _ ?_
      rw [hmodel, List.take_add_one, List.take_set_of_le (Nat.le_refl _), List.map_const', List.length_drop,
        List.length_set, List.getElem?_set_self hwhole, List.append_assoc]
      rfl
  · -- all bytes are whole
    have hwhole : f.bits / 8 = f.bytes := by omega
    have hrest : f.bits % 8 = 0 := by omega
    have hmodel : (a.setAfter n).octets = a.octets := Bytes.setAfter_of_le (by omega)
    simp only [setAfter, Nat.min_eq_right hge, hwhole, hrest, if_true, Checked.pure_eq, Checked.ok_bind,
      Checked.drop_ok (Nat.le_of_eq hlen.symm)]
    exact address_ok _ (by rw [hmodel, ← hlen]; simp)

/-- The address with one byte replaced, if it has a byte there. Models `Address4.with_octet` and
`Address6.with_octet`. -/
def setOctet (a : Address f) (index : Nat) (value : UInt8) : Trial (Address f) := do
  match a.octets[index]? with
  | none => throw .addressOutOfRange
  | some _ => address (← Checked.set a.octets index value)

theorem setOctet_eq (a : Address f) (index : Nat) (value : UInt8) :
    (setOctet a index value).run = .ok (a.setOctet index value) := by
  have hlen := a.length_octets
  unfold setOctet Address.setOctet
  by_cases hi : index < f.bytes
  · have hin : index < a.octets.length := by omega
    rw [List.getElem?_eq_getElem hin, if_pos hi, Checked.set_ok hin, Trial.lift_ok_bind,
      address_ok ⟨a.octets.set index value, by rw [List.length_set, hlen]⟩ rfl]
    rfl
  · rw [List.getElem?_eq_none (by omega), if_neg hi]; rfl

/-! ## Sums of addresses -/

/-- The address `count` further up: `none` if the sum overflows. Models `Address4.checked_add` and
`Address6.checked_add`. -/
def addTo (a : Address f) (count : Nat) : Option (Address f) :=
  (Checked.add f.bits a.toNat count).toOption.map (.ofNat f)

/-- The address `count` further down: `none` if the difference underflows. Models `Address4.checked_sub` and
`Address6.checked_sub`. -/
def subFrom (a : Address f) (count : Nat) : Option (Address f) := (Checked.sub a.toNat count).toOption.map (.ofNat f)

theorem addTo_eq (a : Address f) (count : Nat) : addTo a count = a.add? count := by
  unfold addTo Checked.add Address.add?
  split <;> rfl

theorem subFrom_eq (a : Address f) (count : Nat) : subFrom a count = a.sub? count := by
  unfold subFrom Checked.sub Address.sub?
  split <;> rfl

end Machine

end IpSpace
