import IpSpace.HostMask.Basic
import IpSpace.HostMask.Digit

/-!
# Many steps under a host mask at once

The free bits of a permitted address are a number whose lowest digit is the boundary byte, of radix `256 - mask`, and
whose higher digits are the bytes above it. `add` and `sub` move that number by any count. With no mask it is the
address itself. A mask that begins in the first byte leaves nothing to carry into and is refused.
-/
namespace IpSpace.HostMask

variable {f : Family}

/-- Moves the free bits of `a`: the digit in the boundary byte by `digit`, and the bytes above it by what `digit` passes
on. Models what `HostMask.increment` and `HostMask.decrement` do under a mask, with `HostMask.check`. -/
def move (digit : UInt8 → UInt8 → Nat → Option (Nat × UInt8)) (bytes : List UInt8 → Nat → Option (List UInt8))
    (m : HostMask f) (b : Boundary f) (a : Address f) (count : Nat) : Except Error (Address f) :=
  if b.index.val = 0 then .error .badMaskLength
  else if m.Permits a then
    match digit b.value (a.octet b.index) count with
    | none => .error .addressOutOfRange
    | some (passed, value) =>
      match bytes (a.octets.take b.index) passed with
      | none => .error .addressOutOfRange
      | some high => .ok (Address.startingWith (high ++ [value]))
  else .error .addressOutOfRange

/-- The address `count` up in the free bits. Models `HostMask.increment`. -/
def add (m : HostMask f) (a : Address f) (count : Nat) : Except Error (Address f) :=
  match m.boundary? with
  | none => (a.add? count).elim (.error .addressOutOfRange) .ok
  | some b => move MaskedByte.add? BigEndian.add? m b a count

/-- The address `count` down in the free bits. Models `HostMask.decrement`. -/
def sub (m : HostMask f) (a : Address f) (count : Nat) : Except Error (Address f) :=
  match m.boundary? with
  | none => (a.sub? count).elim (.error .addressOutOfRange) .ok
  | some b => move MaskedByte.sub? BigEndian.sub? m b a count

end IpSpace.HostMask
