import IpSpace.Error
import IpSpace.Bytes.BigEndian
import IpSpace.Bytes.Leading

/-!
# Addresses

An address of a family is its bytes, most significant first. It is ordered as its bytes are, lexicographically, and
`toNat` is the number they spell. `lt_iff_toNat_lt` says that the two orders agree, and `ofNat_toNat` with
`toNat_ofNat` that addresses are the numbers below `2 ^ f.bits`.
-/
namespace IpSpace

/-- The bytes of an address. Models `Address4` and `Address6`. -/
@[ext] structure Address (f : Family) where
  octets : List UInt8
  length_octets : octets.length = f.bytes
deriving DecidableEq

namespace Address

variable {f : Family}

/-! ## Order -/

instance : LT (Address f) := ⟨fun a b => a.octets < b.octets⟩

instance : LE (Address f) := ⟨fun a b => a.octets ≤ b.octets⟩

instance (a b : Address f) : Decidable (a < b) := inferInstanceAs (Decidable (a.octets < b.octets))

instance (a b : Address f) : Decidable (a ≤ b) := inferInstanceAs (Decidable (a.octets ≤ b.octets))

instance : Ord (Address f) := ⟨fun a b => compareOfLessAndEq a b⟩

/-! ## Bytes -/

/-- The byte at a position, the most significant one being at 0. -/
def octet (a : Address f) (index : Fin f.bytes) : UInt8 :=
  a.octets.get (index.cast a.length_octets.symm)

/-- The address with one byte replaced. Models `Address4.with_octet` and `Address6.with_octet`. -/
def setOctet (a : Address f) (index : Nat) (value : UInt8) : Except Error (Address f) :=
  if index < f.bytes then .ok ⟨a.octets.set index value, by rw [List.length_set, a.length_octets]⟩
  else .error .addressOutOfRange

/-- The address that begins with `bytes` and is zero after them. Models `assemble`. -/
def startingWith (bytes : List UInt8) : Address f :=
  ⟨(bytes ++ List.replicate f.bytes 0).take f.bytes, by simp⟩

/-- The lowest address. -/
def zero : Address f := ⟨List.replicate f.bytes 0, List.length_replicate⟩

/-- The highest address. -/
def ones : Address f := ⟨List.replicate f.bytes 0xff, List.length_replicate⟩

/-- Keeps the first `n` bits and clears the rest. Models `AddressBuffer.prefix`. -/
def clearAfter (a : Address f) (n : Nat) : Address f :=
  ⟨Bytes.clearAfter n a.octets, by rw [Bytes.length_clearAfter, a.length_octets]⟩

/-- Keeps the first `n` bits and sets the rest. Models `AddressBuffer.host_bits_set`. -/
def setAfter (a : Address f) (n : Nat) : Address f :=
  ⟨Bytes.setAfter n a.octets, by rw [Bytes.length_setAfter, a.length_octets]⟩

@[simp] theorem clearAfter_clearAfter (a : Address f) (n : Nat) :
    (a.clearAfter n).clearAfter n = a.clearAfter n := by
  ext1; exact Bytes.clearAfter_clearAfter n a.octets

/-! ## Numbers -/

/-- The number that the bytes spell. Models `Address4.to_bits` and `Address6.to_bits`. -/
def toNat (a : Address f) : Nat := BigEndian.toNat a.octets

variable (f) in
/-- The address whose number is `value`, or its lowest `f.bits` bits. Models `Address4.from_bits` and
`Address6.from_bits`. -/
def ofNat (value : Nat) : Address f := ⟨BigEndian.ofNat f.bytes value, BigEndian.length_ofNat _ _⟩

theorem toNat_lt (a : Address f) : a.toNat < 2 ^ f.bits := by
  rw [Family.two_pow_bits, ← a.length_octets]; exact BigEndian.toNat_lt _

@[simp] theorem ofNat_toNat (a : Address f) : ofNat f a.toNat = a := by
  ext1; exact (congrArg (BigEndian.ofNat · _) a.length_octets.symm).trans (BigEndian.ofNat_toNat _)

theorem toNat_ofNat (value : Nat) : (ofNat f value).toNat = value % 2 ^ f.bits := by
  rw [Family.two_pow_bits]; exact BigEndian.toNat_ofNat _ _

theorem toNat_ofNat_of_lt {value : Nat} (h : value < 2 ^ f.bits) : (ofNat f value).toNat = value := by
  rw [toNat_ofNat, Nat.mod_eq_of_lt h]

theorem toNat_inj {a b : Address f} : a.toNat = b.toNat ↔ a = b :=
  ⟨fun h => by rw [← ofNat_toNat a, h, ofNat_toNat], fun h => h ▸ rfl⟩

theorem lt_iff_toNat_lt {a b : Address f} : a < b ↔ a.toNat < b.toNat :=
  BigEndian.lt_iff_toNat_lt (a.length_octets.trans b.length_octets.symm)

theorem le_iff_toNat_le {a b : Address f} : a ≤ b ↔ a.toNat ≤ b.toNat := by
  rw [← Nat.not_lt, ← lt_iff_toNat_lt]; exact Iff.rfl

/-! ## Arithmetic without wraparound -/

/-- The address `count` further up. Models `Address4.checked_add` and `Address6.checked_add`. -/
def add? (a : Address f) (count : Nat) : Option (Address f) :=
  if a.toNat + count < 2 ^ f.bits then some (ofNat f (a.toNat + count)) else none

/-- The address `count` further down. Models `Address4.checked_sub` and `Address6.checked_sub`. -/
def sub? (a : Address f) (count : Nat) : Option (Address f) :=
  if count ≤ a.toNat then some (ofNat f (a.toNat - count)) else none

/-- The address one up: `none` at the top of the address space. Models `AddressBuffer.checked_next`. -/
def next? (a : Address f) : Option (Address f) := a.add? 1

/-- The address one down: `none` at the bottom of the address space. Models `AddressBuffer.checked_previous`. -/
def previous? (a : Address f) : Option (Address f) := a.sub? 1

end Address

end IpSpace
