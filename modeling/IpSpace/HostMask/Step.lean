import IpSpace.HostMask.Basic

/-!
# One step under a host mask

`next` and `previous` count the free bits of an address up and down by one, carrying across the masked ones. Bytes are
worked from the least significant one on: a byte that is masked whole must be zero and is passed over, a byte whose
free bits are used up is reset and passes the step on, and any other byte takes it.
-/
namespace IpSpace

/-- Where a step goes. -/
inductive Direction where
  | up
  | down
deriving DecidableEq

namespace Direction

/-- The free bits of the byte leave no room for the step. -/
def UsedUp : Direction → UInt8 → UInt8 → Prop
  | up, mask, byte => byte ||| mask = 0xff
  | down, _, byte => byte = 0

instance : (d : Direction) → (mask byte : UInt8) → Decidable (d.UsedUp mask byte)
  | up, mask, byte => inferInstanceAs (Decidable (byte ||| mask = 0xff))
  | down, _, byte => inferInstanceAs (Decidable (byte = 0))

/-- What a byte that is used up is reset to: upwards zero, downwards the largest value of its free bits. -/
def reset : Direction → UInt8 → UInt8
  | up, _ => 0
  | down, mask => 0xff - mask

/-- The byte that takes the step. -/
def take : Direction → UInt8 → UInt8
  | up, byte => byte + 1
  | down, byte => byte - 1

/-- One step in bytes given least significant first, beside the bytes of the mask. `none` if a whole masked byte is in
use or the step is passed on by the last byte. Models the loops of `HostMask.next_address` and
`HostMask.previous_address`. -/
def scan (d : Direction) : List UInt8 → List UInt8 → Option (List UInt8)
  | mask :: masks, byte :: bytes =>
    if mask = 0xff then
      if byte = 0 then (d.scan masks bytes).map (byte :: ·) else none
    else if d.UsedUp mask byte then (d.scan masks bytes).map (d.reset mask :: ·)
    else some (d.take byte :: bytes)
  | _, _ => none

theorem length_of_scan {d : Direction} {masks bytes scanned : List UInt8} (h : d.scan masks bytes = some scanned) :
    scanned.length = bytes.length := by
  induction masks generalizing bytes scanned with
  | nil => simp [scan] at h
  | cons mask masks ih =>
    cases bytes with
    | nil => simp [scan] at h
    | cons byte bytes =>
      simp only [scan] at h
      split at h
      · split at h
        · obtain ⟨r, hr, rfl⟩ := Option.map_eq_some_iff.1 h
          simp [ih hr]
        · cases h
      · split at h
        · obtain ⟨r, hr, rfl⟩ := Option.map_eq_some_iff.1 h
          simp [ih hr]
        · cases h; rfl

end Direction

namespace HostMask

variable {f : Family}

/-- The address one step away in the free bits. -/
def step (d : Direction) (m : HostMask f) (a : Address f) : Except Error (Address f) :=
  match h : d.scan (fill f.bytes m.length) a.octets.reverse with
  | some bytes =>
    .ok ⟨bytes.reverse, by
      rw [List.length_reverse, Direction.length_of_scan h, List.length_reverse, a.length_octets]⟩
  | none => .error .addressOutOfRange

/-- The address one up in the free bits. Models `HostMask.next_address`. -/
def next (m : HostMask f) (a : Address f) : Except Error (Address f) := m.step .up a

/-- The address one down in the free bits. Models `HostMask.previous_address`. -/
def previous (m : HostMask f) (a : Address f) : Except Error (Address f) := m.step .down a

end HostMask

end IpSpace
