/-!
# Words

Counts are words of 128 bits, and so is a number on its way from bytes to bytes. A word is a natural number here; each
operation says what becomes of a result that 128 bits cannot hold.
-/

namespace IpSpace

/-- A power of numbers is the built-in one in all of this namespace, so that `2 ^ n` is the same term in a module that
imports Mathlib, with a power of its own, and in one that does not. Scoped, since it concerns no one else. -/
scoped instance natPow : Pow Nat Nat := instPowNat

namespace Word

/-- The width of a word. -/
def bits : Nat := 128

/-- The largest word. -/
def max : Nat := 2 ^ bits - 1

/-- The sum, or the largest word if the sum is larger. Models `saturating_add`. -/
def saturatingAdd (m n : Nat) : Nat := min (m + n) max

/-- The sum, if it is a word. Models `checked_add`. -/
def add? (m n : Nat) : Option Nat := if m + n ≤ max then some (m + n) else none

/-- The difference, if there is one. Models `checked_sub`. -/
def sub? (m n : Nat) : Option Nat := if n ≤ m then some (m - n) else none

/-- Drops the lowest `n` bits, if a word has more than `n`. Models `checked_shr`. -/
def shiftRight? (m n : Nat) : Option Nat := if n < bits then some (m >>> n) else none

end Word

end IpSpace
