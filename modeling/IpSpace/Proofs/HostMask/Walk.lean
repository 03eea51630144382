import IpSpace.Proofs.HostMask.Shift

/-!
# Walks under a host mask

What many operations in turn do to an address. Each shifts the rank by its own distance
(`IpSpace.Proofs.HostMask.Shift`), so all of them together shift it by the sum of the distances.
* `add_eq_repeatedly_next`: one jump is as many steps.
* `walk_path_independent`: where a walk ends depends on its start and on the sum of the moves that succeeded, not on
  what they were. The invariant is `Walk.Valid`, which one move keeps (`Walk.Valid.go`).
-/
namespace IpSpace

/-- The operation `count` times in turn, as long as it succeeds. -/
def repeatedly {α ε : Type} (op : α → Except ε α) : Nat → α → Except ε α
  | 0, a => .ok a
  | count + 1, a => (op a).bind (repeatedly op count)

namespace HostMask

variable {f : Family} {m : HostMask f} {a c : Address f}

/-! ## One operation many times -/

/-- On the way from one rank to another by equal distances no rank is out of bounds. -/
theorem first_rank_between {start stop bound n : Nat} {distance : Int} (hstart : start < bound) (hstop : stop < bound)
    (h : (stop : Int) = start + n * distance + distance) : 0 ≤ start + distance ∧ start + distance < bound := by
  rcases Int.le_total 0 distance with hup | hdown
  · have hn := Int.mul_nonneg (Int.natCast_nonneg n) hup
    omega
  · have hn := Int.mul_nonpos_of_nonneg_of_nonpos (Int.natCast_nonneg n) hdown
    omega

theorem repeatedly_shifts {op : Address f → Except Error (Address f)} {distance : Int} (h : m.Shifts op distance)
    (n : Nat) : m.Shifts (repeatedly op n) (n * distance) := by
  induction n with
  | zero =>
    constructor
    · intro a c ha hc hrank
      rw [repeatedly, (rank_inj ha hc).1 (by omega)]
    · intro a ha hno
      exact absurd (by omega) (hno a ha)
  | succ n ih =>
    have hsplit : ((n + 1 : Nat) : Int) * distance = n * distance + distance := by
      rw [Int.natCast_succ, Int.add_mul, Int.one_mul]
    rw [hsplit]
    constructor
    · intro a c ha hc hrank
      -- the first of the steps succeeds, since the rank it leads to is no further than the last one
      rw [← Int.add_assoc] at hrank
      obtain ⟨h0, hlt⟩ := first_rank_between (rank_lt ha) (rank_lt hc) hrank
      obtain ⟨b, hop, hb, hrankb⟩ := h.exists_ok ha h0 hlt
      rw [repeatedly, hop]
      exact ih.ok hb hc (by omega)
    · intro a ha hno
      rw [repeatedly]
      by_cases hex : ∃ b, m.Permits b ∧ (m.rank b : Int) = m.rank a + distance
      · obtain ⟨b, hb, hrankb⟩ := hex
        rw [h.ok ha hb hrankb]
        apply ih.error hb
        intro c hc hrank
        exact hno c hc (by omega)
      · rw [h.error ha fun b hb hrankb => hex ⟨b, hb, hrankb⟩]
        rfl

/-- A jump is as many steps in turn: it ends where they end, and it fails if one of them does. -/
theorem add_eq_repeatedly_next (m : HostMask .v6) (hm : m.length ≤ 120) {a : Address .v6} (ha : m.Permits a)
    (count : Nat) :
    (∀ c, m.add a count = .ok c ↔ repeatedly m.next count a = .ok c) ∧
    ((∀ c, repeatedly m.next count a ≠ .ok c) → m.add a count = .error .addressOutOfRange) ∧
    (∀ c, m.sub a count = .ok c ↔ repeatedly m.previous count a = .ok c) ∧
    ((∀ c, repeatedly m.previous count a ≠ .ok c) → m.sub a count = .error .addressOutOfRange) := by
  have hbits : m.length + 8 ≤ Family.v6.bits := Nat.add_le_add_right hm 8
  have hup : m.add a count = repeatedly m.next count a := by
    have hsteps := repeatedly_shifts m.next_shifts count
    rw [Int.mul_one] at hsteps
    exact (add_shifts hbits count).eq hsteps ha
  have hdown : m.sub a count = repeatedly m.previous count a := by
    have hsteps := repeatedly_shifts m.previous_shifts count
    rw [Int.mul_neg, Int.mul_one] at hsteps
    exact (sub_shifts hbits count).eq hsteps ha
  refine ⟨?_, ?_, ?_, ?_⟩
  · intro c
    rw [hup]
  · intro hfail
    rw [← hup] at hfail
    exact (add_shifts hbits count).eq_error ha hfail
  · intro c
    rw [hdown]
  · intro hfail
    rw [← hdown] at hfail
    exact (sub_shifts hbits count).eq_error ha hfail

/-- Under a mask of 60 bits there are `2 ^ 68` ranks: `2 ^ 60` steps from the last free value of the boundary byte end
below that, and `2 ^ 68` steps do not. -/
theorem add_eq_repeatedly_next_far :
    repeatedly (⟨60, by decide⟩ : HostMask .v6).next 0x1000000000000000 (.ofNat .v6 0x0f00000000000000) =
      .ok (.ofNat .v6 0x01000000000000000f00000000000000) ∧
    ∀ c, repeatedly (⟨60, by decide⟩ : HostMask .v6).next 0x100000000000000000 (.ofNat .v6 0x0f00000000000000) ≠
      .ok c := by
  have hpermits : (⟨60, by decide⟩ : HostMask .v6).Permits (.ofNat .v6 0x0f00000000000000) := by decide +kernel
  constructor
  · apply ((add_eq_repeatedly_next ⟨60, by decide⟩ (by decide) hpermits 0x1000000000000000).1 _).1
    decide +kernel
  · intro c hsteps
    have hadd := ((add_eq_repeatedly_next ⟨60, by decide⟩ (by decide) hpermits 0x100000000000000000).1 c).2 hsteps
    have hover : (⟨60, by decide⟩ : HostMask .v6).add (.ofNat .v6 0x0f00000000000000) 0x100000000000000000 =
        .error .addressOutOfRange := by decide +kernel
    rw [hover] at hadd
    cases hadd

/-! ## Many operations -/

/-- What can be done to an address under a host mask. -/
inductive Move where
  | next
  | previous
  | add (count : Nat)
  | sub (count : Nat)
deriving DecidableEq

namespace Move

/-- Where the move leads. -/
def apply (m : HostMask f) (a : Address f) : Move → Except Error (Address f)
  | next => m.next a
  | previous => m.previous a
  | add count => m.add a count
  | sub count => m.sub a count

/-- How far the move goes if it succeeds. -/
def distance : Move → Int
  | next => 1
  | previous => -1
  | add count => count
  | sub count => -count

/-- Under a mask that begins in the first byte only steps succeed; under any other every move is a shift. -/
theorem apply_ok {move : Move} (ha : m.Permits a) (h : move.apply m a = .ok c) :
    m.Permits c ∧ (m.rank c : Int) = m.rank a + move.distance := by
  cases move with
  | next => exact (m.next_shifts.ok_iff ha).1 h
  | previous => exact (m.previous_shifts.ok_iff ha).1 h
  | add count =>
    rcases Nat.lt_or_ge f.bits (m.length + 8) with hlong | hshort
    · rw [apply, (jump_of_long hlong a count).1] at h
      cases h
    · exact ((add_shifts hshort count).ok_iff ha).1 h
  | sub count =>
    rcases Nat.lt_or_ge f.bits (m.length + 8) with hlong | hshort
    · rw [apply, (jump_of_long hlong a count).2] at h
      cases h
    · exact ((sub_shifts hshort count).ok_iff ha).1 h

end Move

/-- Where a walk stands, and the sum of its moves that succeeded. -/
structure Walk (f : Family) where
  address : Address f
  moved : Int
deriving DecidableEq

/-- The walk after one more move. A move that fails leaves it where it is. -/
def Walk.go (m : HostMask f) (w : Walk f) (move : Move) : Walk f :=
  match move.apply m w.address with
  | .ok c => ⟨c, w.moved + move.distance⟩
  | .error _ => w

/-- The moves in turn, from `a` on. -/
def walk (m : HostMask f) (a : Address f) (moves : List Move) : Walk f := moves.foldl (Walk.go m) ⟨a, 0⟩

/-- The walk stands at a permitted address, as far from the start as its moves add up to. -/
structure Walk.Valid (m : HostMask f) (start : Address f) (w : Walk f) : Prop where
  permits : m.Permits w.address
  rank : (m.rank w.address : Int) = m.rank start + w.moved

theorem Walk.Valid.start (ha : m.Permits a) : (⟨a, 0⟩ : Walk f).Valid m a := ⟨ha, (Int.add_zero _).symm⟩

theorem Walk.Valid.go {start : Address f} {w : Walk f} (h : w.Valid m start) (move : Move) :
    (w.go m move).Valid m start := by
  unfold Walk.go
  split
  · rename_i c hop
    obtain ⟨hc, hrank⟩ := Move.apply_ok h.permits hop
    rw [h.rank, Int.add_assoc] at hrank
    exact ⟨hc, hrank⟩
  · exact h

theorem Walk.Valid.foldl {start : Address f} {w : Walk f} (h : w.Valid m start) (moves : List Move) :
    (moves.foldl (Walk.go m) w).Valid m start := by
  induction moves generalizing w with
  | nil => exact h
  | cons move moves ih => exact ih (h.go move)

theorem walk_valid (ha : m.Permits a) (moves : List Move) : (m.walk a moves).Valid m a :=
  (Walk.Valid.start ha).foldl moves

/-- A walk from a permitted address meets permitted addresses only, and its end is given by its start and the sum of the
moves that succeeded: it is the permitted address of that rank, and walks with the same sum end together. -/
theorem walk_path_independent (m : HostMask .v6) {a : Address .v6} (ha : m.Permits a) (moves : List Move) :
    (∀ n, m.Permits (m.walk a (moves.take n)).address) ∧
    (m.rank (m.walk a moves).address : Int) = m.rank a + (m.walk a moves).moved ∧
    ∀ others, (m.walk a others).moved = (m.walk a moves).moved →
      (m.walk a others).address = (m.walk a moves).address := by
  have hend := walk_valid ha moves
  refine ⟨?_, hend.rank, ?_⟩
  · intro n
    exact (walk_valid ha (moves.take n)).permits
  · intro others hmoved
    have hother := walk_valid ha others
    rw [← rank_inj hother.permits hend.permits]
    have hrank := hend.rank
    have hrank' := hother.rank
    omega

/-- Two walks from the lowest address whose moves add up to 15: one turns back past a carry, the other begins with a
move that fails. -/
theorem walk_path_independent_detour :
    ((⟨60, by decide⟩ : HostMask .v6).walk .zero [.sub 1, .next, .add 14]).moved =
      ((⟨60, by decide⟩ : HostMask .v6).walk .zero [.add 16, .previous]).moved ∧
    ((⟨60, by decide⟩ : HostMask .v6).walk .zero [.sub 1, .next, .add 14]).address =
      ((⟨60, by decide⟩ : HostMask .v6).walk .zero [.add 16, .previous]).address := by
  have hmoved : ((⟨60, by decide⟩ : HostMask .v6).walk .zero [.sub 1, .next, .add 14]).moved =
      ((⟨60, by decide⟩ : HostMask .v6).walk .zero [.add 16, .previous]).moved := by decide +kernel
  refine ⟨hmoved, ?_⟩
  exact (walk_path_independent ⟨60, by decide⟩ (a := .zero) (by decide +kernel) [.add 16, .previous]).2.2 _ hmoved

end HostMask

end IpSpace
