import IpSpace.Address.Basic

/-!
# Addresses of either family

An address together with its family. Every IPv4 address comes before every IPv6 one; within a family the order is the
one of `Address`.
-/
namespace IpSpace

/-- An address and its family. Models `Address`. -/
structure AnyAddress where
  family : Family
  address : Address family
deriving DecidableEq

namespace AnyAddress

instance : Ord AnyAddress where
  compare
    | ⟨.v4, a⟩, ⟨.v4, b⟩ => compare a b
    | ⟨.v6, a⟩, ⟨.v6, b⟩ => compare a b
    | a, b => compare a.family b.family

/-- Two addresses of one family. -/
structure Pair where
  family : Family
  first : Address family
  last : Address family

/-- The two addresses as a pair, if they are of one family. Models the match on the families in `find_between` and
`cover_range`. -/
def pair? : AnyAddress → AnyAddress → Option Pair
  | ⟨.v4, a⟩, ⟨.v4, b⟩ => some ⟨.v4, a, b⟩
  | ⟨.v6, a⟩, ⟨.v6, b⟩ => some ⟨.v6, a, b⟩
  | _, _ => none

@[simp] theorem pair?_same {f : Family} (a b : Address f) : pair? ⟨f, a⟩ ⟨f, b⟩ = some ⟨f, a, b⟩ := by
  cases f <;> rfl

theorem pair?_eq_none {a b : AnyAddress} (h : a.family ≠ b.family) : a.pair? b = none := by
  obtain ⟨f, a⟩ := a
  obtain ⟨g, b⟩ := b
  cases f <;> cases g
  · exact absurd rfl h
  · rfl
  · rfl
  · exact absurd rfl h

end AnyAddress

end IpSpace
