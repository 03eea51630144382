import IpSpace.Bytes.Word

/-!
# Leading bits

`leading n` is the byte whose first `n` bits are set. On a list of bytes, most significant first, `clearAfter n` keeps
the first `n` bits and clears the rest and `setAfter n` keeps them and sets the rest; a length past the end keeps
everything.
-/
namespace IpSpace

/-- The byte with its first `n` bits set: all of them from eight on. Models `mask`. -/
def leading (n : Nat) : UInt8 := UInt8.ofNat (256 - 2 ^ (8 - n))

namespace Bytes

/-- Keeps the first `n` bits and clears the rest. Models the bytes of `AddressBuffer.prefix`. -/
def clearAfter : Nat → List UInt8 → List UInt8
  | _, [] => []
  | n, b :: bs => (b &&& leading n) :: clearAfter (n - 8) bs

/-- Keeps the first `n` bits and sets the rest. Models the bytes of `AddressBuffer.host_bits_set`. -/
def setAfter : Nat → List UInt8 → List UInt8
  | _, [] => []
  | n, b :: bs => (b ||| ~~~leading n) :: setAfter (n - 8) bs

@[simp] theorem length_clearAfter (n : Nat) (bytes : List UInt8) : (clearAfter n bytes).length = bytes.length := by
  induction bytes generalizing n with
  | nil => rfl
  | cons b bs ih => simp [clearAfter, ih]

@[simp] theorem length_setAfter (n : Nat) (bytes : List UInt8) : (setAfter n bytes).length = bytes.length := by
  induction bytes generalizing n with
  | nil => rfl
  | cons b bs ih => simp [setAfter, ih]

/-- Bits once cleared stay cleared. -/
@[simp] theorem clearAfter_clearAfter (n : Nat) (bytes : List UInt8) :
    clearAfter n (clearAfter n bytes) = clearAfter n bytes := by
  induction bytes generalizing n with
  | nil => rfl
  | cons b bs ih => simp [clearAfter, ih, UInt8.and_assoc]

end Bytes

end IpSpace
