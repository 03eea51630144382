import IpSpace.Address.Basic

/-!
# Host masks

A host mask reserves the low bits of an address for something other than allocation. It is given by its length. Whole
bytes are masked from the right; in the byte where the mask begins, its *boundary*, the masked bits are taken from the
left, so that the free bits of that byte count up from zero:

| length | boundary byte | free values |
|--------|---------------|-------------|
| 56     | `0xff`        | 0           |
| 57     | `0x80`        | 0 to 127    |
| 60     | `0xf0`        | 0 to 15     |
| 63     | `0xfe`        | 0 to 1      |

A mask *permits* the addresses that leave its bits clear.
-/
namespace IpSpace

/-- A host mask, by how many bits it masks. Models `HostMask`, whose `size` is the length. -/
@[ext] structure HostMask (f : Family) where
  length : Nat
  length_le : length ≤ f.longestHostMask
deriving DecidableEq

/-- The byte in which a host mask begins, and its position. Models `BoundaryByte`. -/
structure Boundary (f : Family) where
  value : UInt8
  index : Fin f.bytes
deriving DecidableEq

/-- The largest value that the free bits of the byte can hold. Models `BoundaryByte.max`. -/
def Boundary.max {f : Family} (b : Boundary f) : UInt8 := 0xff - b.value

namespace HostMask

variable {f : Family}

instance : Ord (HostMask f) := ⟨fun m n => compare m.length n.length⟩

/-- The mask that masks nothing. Models `HostMask.new` at zero bits. -/
def empty : HostMask f := ⟨0, Nat.zero_le _⟩

/-- The mask of `length` bits, if the family has masks that long. Models `HostMask.new`. -/
def of (f : Family) (length : Nat) : Except Error (HostMask f) :=
  if h : length ≤ f.longestHostMask then .ok ⟨length, h⟩ else .error .badMaskLength

/-- The bytes of a mask of `length` bits, least significant first. Models the loop of `HostMask.new`. -/
def fill : Nat → Nat → List UInt8
  | 0, _ => []
  | width + 1, length => leading length :: fill width (length - 8)

@[simp] theorem length_fill (width length : Nat) : (fill width length).length = width := by
  induction width generalizing length with
  | zero => rfl
  | succ width ih => simp [fill, ih]

/-- The bytes of the mask, most significant first. Models `HostMask.octets`. -/
def octets (m : HostMask f) : List UInt8 := (fill f.bytes m.length).reverse

/-- Where the mask begins. A length that is a multiple of eight begins with a whole byte, whose only free value is zero.
Models `HostMask.boundary_byte`. -/
def boundary? (m : HostMask f) : Option (Boundary f) :=
  if m.length = 0 then none
  else some
    { value := leading ((m.length - 1) % 8 + 1)
      index := ⟨f.bytes - 1 - (m.length - 1) / 8, by have := f.bytes_pos; omega⟩ }

/-- The address leaves the bits of the mask clear. Models `HostMask.permits`. -/
def Permits (m : HostMask f) (a : Address f) : Prop :=
  ∀ b ∈ m.boundary?, a.octet b.index ≤ b.max ∧ ∀ byte ∈ a.octets.drop (b.index + 1), byte = 0

instance (m : HostMask f) (a : Address f) : Decidable (m.Permits a) :=
  inferInstanceAs (Decidable (∀ b ∈ m.boundary?, _))

end HostMask

end IpSpace
