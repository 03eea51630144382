import IpSpace.Bytes.Word

/-!
# A partly masked byte as a digit

The free bits of a byte under a mask count from zero up to `255 - mask`, so the byte is a digit of radix
`256 - mask`. `add?` and `sub?` move such a digit by any count and give what is carried into, or borrowed from, the
digit above. The count is split by the radix before the digit comes in, so all that is computed on the way is at most
the count or below twice the radix.
-/
namespace IpSpace.MaskedByte

/-- The number of values that a byte can take under a mask. Models `capacity`. -/
def radix (mask : UInt8) : Nat := 256 - mask.toNat

/-- Adds `count` to the digit `value`: the carry and the new digit. `none` if `value` is no digit under the mask. Models
`increment_boundary_byte`. -/
def add? (mask value : UInt8) (count : Nat) : Option (Nat × UInt8) :=
  if value.toNat < radix mask then
    let sum := count % radix mask + value.toNat
    some (Word.saturatingAdd (count / radix mask) (sum / radix mask), UInt8.ofNat (sum % radix mask))
  else none

/-- Takes `count` from the digit `value`: the borrow and the new digit. `none` if `value` is no digit under the mask.
Models `decrement_boundary_byte`. -/
def sub? (mask value : UInt8) (count : Nat) : Option (Nat × UInt8) :=
  if value.toNat < radix mask then
    if count % radix mask ≤ value.toNat then
      some (count / radix mask, UInt8.ofNat (value.toNat - count % radix mask))
    else some (count / radix mask + 1, UInt8.ofNat (value.toNat + radix mask - count % radix mask))
  else none

end IpSpace.MaskedByte
