import IpSpace.Proofs.Block.Listing

/-!
# Calls on one listing

Calls of four kinds share a listing: each finds the state that the ones before it left. `Call.read` is what they would
answer if a listing were a position in a fixed list of addresses and nothing else. `list_answers` says that any number
of calls, in any order, answers the same, with the list that the listing yields when it is only popped.

The invariant is `Stands`: what the listing has left (`Left`) is the list from the position on. Each call keeps it
(`Stands.apply`), so a run of calls does (`Stands.run`).
-/
namespace IpSpace

variable {f : Family}

namespace Listing

/-! ## What is left -/

/-- The addresses that the listing has left, and it counts them right. -/
structure Left (l : Listing f) (rest : List (Address f)) : Prop where
  yields : l.Yields rest
  remaining : l.remaining = rest.length

theorem remaining_of_pop {l rest : Listing f} {a : Address f} (h : l.pop = (some a, rest)) :
    l.remaining = rest.remaining + 1 := by
  unfold pop at h
  split at h
  · cases h
  · split at h
    · cases h
    · rename_i hpos _ _
      simp only [Prod.mk.injEq] at h
      obtain ⟨-, rfl⟩ := h
      simp only
      omega

/-- The bounds that a size hint gives when it is asked with so many addresses left. -/
def hint (left : Nat) : Nat × Option Nat :=
  if left ≤ longestHint then (left, some left) else (longestHint, none)

namespace Left

variable {l : Listing f} {rest : List (Address f)}

theorem pop_nil (h : Left l []) : l.pop = (none, l) := by
  cases h.yields with
  | nil hpop => exact hpop

theorem pop_cons {a : Address f} (h : Left l (a :: rest)) : ∃ next, l.pop = (some a, next) ∧ Left next rest := by
  cases h.yields with
  | @cons _ next _ _ hpop hyields =>
    have hcount := h.remaining
    rw [remaining_of_pop hpop, List.length_cons, Nat.add_right_cancel_iff] at hcount
    exact ⟨next, hpop, hyields, hcount⟩

theorem nth (h : Left l rest) (n : Nat) : (l.nth n).1 = rest[n]? ∧ Left (l.nth n).2 (rest.drop (n + 1)) := by
  induction n generalizing l rest with
  | zero =>
    rw [Listing.nth]
    cases rest with
    | nil => rw [h.pop_nil]; exact ⟨rfl, h⟩
    | cons a rest =>
      obtain ⟨next, hpop, hnext⟩ := h.pop_cons
      rw [hpop]
      exact ⟨rfl, hnext⟩
  | succ n ih =>
    rw [Listing.nth]
    cases rest with
    | nil => rw [h.pop_nil]; exact ⟨rfl, h⟩
    | cons a rest =>
      obtain ⟨next, hpop, hnext⟩ := h.pop_cons
      rw [hpop]
      exact ih hnext

theorem takeOnto (h : Left l rest) (taken : List (Address f)) (n : Nat) :
    (l.takeOnto taken n).1 = (rest.take n).reverse ++ taken ∧ Left (l.takeOnto taken n).2 (rest.drop n) := by
  induction n generalizing l rest taken with
  | zero => exact ⟨rfl, h⟩
  | succ n ih =>
    rw [Listing.takeOnto]
    cases rest with
    | nil => rw [h.pop_nil]; exact ⟨rfl, h⟩
    | cons a rest =>
      obtain ⟨next, hpop, hnext⟩ := h.pop_cons
      obtain ⟨htaken, hleft⟩ := ih hnext (a :: taken)
      rw [hpop]
      refine ⟨?_, hleft⟩
      rw [htaken, List.take_succ_cons, List.reverse_cons, List.append_assoc]
      rfl

theorem take (h : Left l rest) (n : Nat) : (l.take n).1 = rest.take n ∧ Left (l.take n).2 (rest.drop n) := by
  obtain ⟨htaken, hleft⟩ := h.takeOnto [] n
  refine ⟨?_, hleft⟩
  show (l.takeOnto [] n).1.reverse = rest.take n
  rw [htaken, List.append_nil, List.reverse_reverse]

theorem toList (h : Left l rest) : l.toList = rest := by
  rw [Listing.toList, (h.take l.remaining).1, h.remaining, List.take_length]

theorem sizeHint (h : Left l rest) : l.sizeHint = hint rest.length := by
  have hleft : (if l.next.isNone then 0 else l.remaining) = rest.length := by
    split
    · -- without a next address nothing is yielded
      rename_i hnone
      cases rest with
      | nil => rfl
      | cons a rest =>
        obtain ⟨next, hpop, -⟩ := h.pop_cons
        simp [pop, Option.isNone_iff_eq_none.1 hnone] at hpop
    · exact h.remaining
  simp only [Listing.sizeHint, hleft, hint]
  split
  · rename_i hle
    rw [Nat.min_eq_left hle]
  · rename_i hlong
    rw [Nat.min_eq_right (by omega)]

end Left

/-! ## Calls -/

/-- What can be asked of a listing. -/
inductive Call where
  | pop
  | nth (n : Nat)
  | take (n : Nat)
  | sizeHint
deriving DecidableEq

/-- What a call is answered. -/
inductive Answer (f : Family) where
  | address (a : Option (Address f))
  | addresses (taken : List (Address f))
  | hint (bounds : Nat × Option Nat)
deriving DecidableEq

/-- The call on a listing: its answer, and the listing after it. -/
def Call.apply : Call → Listing f → Answer f × Listing f
  | pop, l => (.address l.pop.1, l.pop.2)
  | nth n, l => (.address (l.nth n).1, (l.nth n).2)
  | take n, l => (.addresses (l.take n).1, (l.take n).2)
  | sizeHint, l => (.hint l.sizeHint, l)

/-- The call at a position of a list: its answer, and the position after it, which never passes the end. -/
def Call.read (addresses : List (Address f)) : Call → Nat → Answer f × Nat
  | pop, position => (.address addresses[position]?, min (position + 1) addresses.length)
  | nth n, position => (.address addresses[position + n]?, min (position + (n + 1)) addresses.length)
  | take n, position => (.addresses ((addresses.drop position).take n), min (position + n) addresses.length)
  | sizeHint, position => (.hint (Listing.hint (addresses.length - position)), position)

/-- The calls in turn: their answers, and the state after them. -/
def run {σ : Type} (call : Call → σ → Answer f × σ) : List Call → σ → List (Answer f) × σ
  | [], state => ([], state)
  | c :: calls, state =>
    let (answer, next) := call c state
    let (answers, last) := run call calls next
    (answer :: answers, last)

/-- The listing has left what the list has from the position on. -/
structure Stands (l : Listing f) (addresses : List (Address f)) (position : Nat) : Prop where
  left : l.Left (addresses.drop position)
  le_length : position ≤ addresses.length

namespace Stands

variable {l : Listing f} {addresses : List (Address f)} {position : Nat}

/-- The listing after a call that takes `n` addresses, or all if there are fewer. -/
theorem advance {next : Listing f} {n : Nat} (h : Left next ((addresses.drop position).drop n)) :
    next.Stands addresses (min (position + n) addresses.length) where
  left := by
    rw [List.drop_drop] at h
    rcases Nat.le_total (position + n) addresses.length with hle | hge
    · rwa [Nat.min_eq_left hle]
    · rw [List.drop_of_length_le hge] at h
      rwa [Nat.min_eq_right hge, List.drop_length]
  le_length := Nat.min_le_right _ _

theorem apply (h : l.Stands addresses position) (c : Call) :
    (c.apply l).1 = (c.read addresses position).1 ∧
      (c.apply l).2.Stands addresses (c.read addresses position).2 := by
  cases c with
  | pop =>
    obtain ⟨hanswer, hleft⟩ := h.left.nth 0
    rw [List.getElem?_drop] at hanswer
    exact ⟨congrArg Answer.address hanswer, advance hleft⟩
  | nth n =>
    obtain ⟨hanswer, hleft⟩ := h.left.nth n
    rw [List.getElem?_drop] at hanswer
    exact ⟨congrArg Answer.address hanswer, advance hleft⟩
  | take n =>
    obtain ⟨hanswer, hleft⟩ := h.left.take n
    exact ⟨congrArg Answer.addresses hanswer, advance hleft⟩
  | sizeHint =>
    have hanswer := h.left.sizeHint
    rw [List.length_drop] at hanswer
    exact ⟨congrArg Answer.hint hanswer, h⟩

theorem run (h : l.Stands addresses position) (calls : List Call) :
    (Listing.run Call.apply calls l).1 = (Listing.run (Call.read addresses) calls position).1 ∧
      (Listing.run Call.apply calls l).2.Stands addresses (Listing.run (Call.read addresses) calls position).2 := by
  induction calls generalizing l position with
  | nil => exact ⟨rfl, h⟩
  | cons c calls ih =>
    obtain ⟨hanswer, hnext⟩ := h.apply c
    obtain ⟨hanswers, hlast⟩ := ih hnext
    simp only [Listing.run]
    rw [hanswer, hanswers]
    exact ⟨rfl, hlast⟩

end Stands

end Listing

/-! ## The listing of a block -/

namespace Block

open Listing (Call)

theorem list_left (b : Block f) (offset size : Nat) :
    (b.list offset size).Left
      ((List.range' (b.hostMask.rank b.first + offset) (listingLength b.count offset size)).map b.hostMask.place) where
  yields := b.list_yields_from_first offset size
  remaining := by rw [List.length_map, List.length_range']; rfl

/-- A listing that is not cut holds all addresses in use. -/
theorem list_all_left (b : Block f) :
    (b.list 0 0).Left ((List.range' (b.hostMask.rank b.first) b.count).map b.hostMask.place) := b.list_left 0 0

/-- The four octets of an IPv4 address leave no room for a listing that a size hint cannot tell. -/
theorem listingLength_le_longestHint (b : Block .v4) (offset size : Nat) :
    listingLength b.count offset size ≤ Listing.longestHint := by
  have hlength := listingLength_le b.count offset size
  have hcount : b.count ≤ 2 ^ Family.v4.bits - 1 := Nat.min_le_right _ _
  have hword : 2 ^ Family.v4.bits - 1 ≤ Listing.longestHint := by decide +kernel
  omega

/-- A listing has one list of addresses, which it yields when it is only popped. Whatever the calls on it, their answers
are those of a position in that list: no address is lost, repeated or out of order. A size hint is exact, but for
the bounds of more addresses than it can tell, which IPv4 does not have. -/
theorem list_answers (b : Block f) (offset size : Nat) :
    ∃ addresses, (b.list offset size).Yields addresses ∧
      (f = .v6 ∨ addresses.length ≤ Listing.longestHint) ∧
      ∀ calls : List Call,
        (Listing.run Call.apply calls (b.list offset size)).1 = (Listing.run (Call.read addresses) calls 0).1 ∧
        (Listing.run Call.apply calls (b.list offset size)).2.Stands addresses
          (Listing.run (Call.read addresses) calls 0).2 := by
  have hleft := b.list_left offset size
  refine ⟨_, hleft.yields, ?_, ?_⟩
  · rw [List.length_map, List.length_range']
    cases f with
    | v4 => exact .inr (b.listingLength_le_longestHint offset size)
    | v6 => exact .inl rfl
  · intro calls
    exact Listing.Stands.run ⟨hleft, Nat.zero_le _⟩ calls

end Block

end IpSpace
