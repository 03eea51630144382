import IpSpace.Bytes.Word

/-!
# Numerals of bounded width

A number in a base up to sixteen is written without leading zeros, in lower case, and read from one to `width` digits
of either case.
-/
namespace IpSpace.Text

/-- What a digit counts for. -/
def digitValue? (c : Char) : Option Nat :=
  if '0' ≤ c ∧ c ≤ '9' then some (c.toNat - 48)
  else if 'a' ≤ c ∧ c ≤ 'f' then some (c.toNat - 87)
  else if 'A' ≤ c ∧ c ≤ 'F' then some (c.toNat - 55)
  else none

/-- What a digit of the base counts for. -/
def digitOf? (base : Nat) (c : Char) : Option Nat := (digitValue? c).filter (· < base)

namespace Numeral

/-- The number that the digits after those of `value` make. -/
def readFrom? (base : Nat) : Nat → List Char → Option Nat
  | value, [] => some value
  | value, c :: cs => do readFrom? base (base * value + (← digitOf? base c)) cs

/-- Reads one to `width` digits and nothing else. -/
def read? (base width : Nat) (cs : List Char) : Option Nat :=
  if cs ≠ [] ∧ cs.length ≤ width then readFrom? base 0 cs else none

/-- The lowest `width` digits of a number. -/
def digits (base : Nat) : Nat → Nat → List Char
  | 0, _ => []
  | width + 1, value => Nat.digitChar (value / base ^ width % base) :: digits base width value

/-- Drops leading zeros, but never the last digit. -/
def trim : List Char → List Char
  | c :: d :: cs => if c = '0' then trim (d :: cs) else c :: d :: cs
  | cs => cs

/-- A number of up to `width` digits. -/
def write (base width value : Nat) : List Char := trim (digits base width value)

end Numeral

end IpSpace.Text
