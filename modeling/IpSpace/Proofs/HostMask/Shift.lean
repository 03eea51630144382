import IpSpace.Proofs.HostMask.Jump
import IpSpace.Proofs.HostMask.Step
import IpSpace.Proofs.HostMask.Stretch

/-!
# Shifts of the rank

Four operations lead from one permitted address to another: `next` and `previous` scan the bytes, `add` and `sub`
compute with the digits. To the rank they all do the same. `Shifts op distance` says so of an operation: it leads to the
permitted address whose rank is `distance` more, and fails where there is none.
* `next_shifts`, `previous_shifts`, `add_shifts`, `sub_shifts`: the four distances,
* `Shifts.eq`: operations that shift by the same distance are the same on permitted addresses,
* `Shifts.undo`: a shift by the opposite distance leads back.

Rank keeps the order, so a shift by one leads to the neighbour among the permitted addresses (`steps_to_neighbours`).
-/
namespace IpSpace.HostMask

variable {f : Family} {m : HostMask f} {a c : Address f}

theorem rank_inj (ha : m.Permits a) (hc : m.Permits c) : m.rank a = m.rank c ↔ a = c := by
  constructor
  · intro h
    rw [← place_rank ha, h, place_rank hc]
  · intro h
    rw [h]

theorem exists_rank_eq {r : Nat} (h : r < m.capacity) : ∃ c, m.Permits c ∧ m.rank c = r :=
  ⟨m.place r, m.permits_place r, rank_place h⟩

/-- From a permitted address the operation leads to the permitted address whose rank is `distance` more, and it fails
if there is none. -/
structure Shifts (m : HostMask f) (op : Address f → Except Error (Address f)) (distance : Int) : Prop where
  ok : ∀ {a c}, m.Permits a → m.Permits c → (m.rank c : Int) = m.rank a + distance → op a = .ok c
  error : ∀ {a}, m.Permits a → (∀ c, m.Permits c → (m.rank c : Int) ≠ m.rank a + distance) →
    op a = .error .addressOutOfRange

namespace Shifts

variable {op other : Address f → Except Error (Address f)} {distance : Int}

theorem ok_iff (h : m.Shifts op distance) (ha : m.Permits a) :
    op a = .ok c ↔ m.Permits c ∧ (m.rank c : Int) = m.rank a + distance := by
  constructor
  · intro hop
    by_cases hex : ∃ x, m.Permits x ∧ (m.rank x : Int) = m.rank a + distance
    · obtain ⟨x, hx, hrank⟩ := hex
      have hox := h.ok ha hx hrank
      rw [hop, Except.ok.injEq] at hox
      exact hox ▸ ⟨hx, hrank⟩
    · have herr := h.error ha fun x hx hrank => hex ⟨x, hx, hrank⟩
      rw [hop] at herr
      cases herr
  · intro ⟨hc, hrank⟩
    exact h.ok ha hc hrank

/-- There is one way to fail. -/
theorem eq_error (h : m.Shifts op distance) (ha : m.Permits a) (hfail : ∀ c, op a ≠ .ok c) :
    op a = .error .addressOutOfRange := by
  apply h.error ha
  intro c hc hrank
  exact hfail c (h.ok ha hc hrank)

theorem exists_ok (h : m.Shifts op distance) (ha : m.Permits a) (h0 : 0 ≤ m.rank a + distance)
    (hlt : m.rank a + distance < m.capacity) :
    ∃ c, op a = .ok c ∧ m.Permits c ∧ (m.rank c : Int) = m.rank a + distance := by
  obtain ⟨c, hc, hrank⟩ := exists_rank_eq (m := m) (r := (m.rank a + distance).toNat) (by omega)
  have hrank' : (m.rank c : Int) = m.rank a + distance := by omega
  exact ⟨c, h.ok ha hc hrank', hc, hrank'⟩

theorem eq (h : m.Shifts op distance) (h' : m.Shifts other distance) (ha : m.Permits a) : op a = other a := by
  by_cases hex : ∃ c, m.Permits c ∧ (m.rank c : Int) = m.rank a + distance
  · obtain ⟨c, hc, hrank⟩ := hex
    rw [h.ok ha hc hrank, h'.ok ha hc hrank]
  · have hno : ∀ c, m.Permits c → (m.rank c : Int) ≠ m.rank a + distance := fun c hc hrank => hex ⟨c, hc, hrank⟩
    rw [h.error ha hno, h'.error ha hno]

theorem undo (h : m.Shifts op distance) (hback : m.Shifts other (-distance)) (ha : m.Permits a) (hop : op a = .ok c) :
    other c = .ok a := by
  obtain ⟨hc, hrank⟩ := (h.ok_iff ha).1 hop
  exact hback.ok hc ha (by omega)

end Shifts

/-! ## The four operations -/

/-- Each operation tests whether there is a target rank, and if so leads to its place. -/
theorem shifts_of_place {op : Address f → Except Error (Address f)} {distance : Int} (fits : Nat → Prop)
    [DecidablePred fits] (target : Nat → Nat)
    (hop : ∀ {a}, m.Permits a → op a =
      if fits (m.rank a) then .ok (m.place (target (m.rank a))) else .error .addressOutOfRange)
    (hfits : ∀ r < m.capacity, fits r ↔ 0 ≤ r + distance ∧ r + distance < m.capacity)
    (htarget : ∀ r, fits r → (target r : Int) = r + distance) : m.Shifts op distance where
  ok {a c} ha hc hrank := by
    have hlt := rank_lt hc
    have hfit : fits (m.rank a) := (hfits _ (rank_lt ha)).2 ⟨by omega, by omega⟩
    have hr := htarget _ hfit
    rw [hop ha, if_pos hfit, show target (m.rank a) = m.rank c by omega, place_rank hc]
  error {a} ha hno := by
    rw [hop ha, if_neg]
    intro hfit
    have hr := htarget _ hfit
    obtain ⟨-, hlt⟩ := (hfits _ (rank_lt ha)).1 hfit
    obtain ⟨c, hc, hrank⟩ := exists_rank_eq (m := m) (r := target (m.rank a)) (by omega)
    exact hno c hc (by omega)

theorem next_shifts (m : HostMask f) : m.Shifts m.next 1 := by
  apply shifts_of_place (fun r => r + 1 < m.capacity) (fun r => r + 1) next_eq
  · intro r hr; omega
  · intro r hr; omega

theorem previous_shifts (m : HostMask f) : m.Shifts m.previous (-1) := by
  apply shifts_of_place (fun r => 0 < r) (fun r => r - 1) previous_eq
  · intro r hr; omega
  · intro r hr; omega

theorem add_shifts (h : m.length + 8 ≤ f.bits) (count : Nat) : m.Shifts (m.add · count) count := by
  apply shifts_of_place (fun r => r + count < m.capacity) (fun r => r + count) fun ha => add_eq h ha count
  · intro r hr; omega
  · intro r hr; omega

theorem sub_shifts (h : m.length + 8 ≤ f.bits) (count : Nat) : m.Shifts (m.sub · count) (-count) := by
  apply shifts_of_place (fun r => count ≤ r) (fun r => r - count) fun ha => sub_eq h ha count
  · intro r hr; omega
  · intro r hr; omega

/-! ## Neighbours -/

theorem isLeast_iff (ha : m.Permits a) :
    IsLeast {x | m.Permits x ∧ a < x} c ↔ m.Permits c ∧ (m.rank c : Int) = m.rank a + 1 := by
  have habove := isLeast_above_iff (c := c) le_rfl (mem_stretch_capacity.2 ha)
  simp only [mem_stretch_capacity] at habove
  rw [habove]
  refine and_congr_right fun hc => ?_
  have hcap := rank_lt hc
  omega

theorem isGreatest_iff (ha : m.Permits a) :
    IsGreatest {x | m.Permits x ∧ x < a} c ↔ m.Permits c ∧ (m.rank c : Int) = m.rank a + -1 := by
  have hbelow := isGreatest_below_iff (c := c) le_rfl (mem_stretch_capacity.2 ha)
  simp only [mem_stretch_capacity] at hbelow
  rw [hbelow]
  refine and_congr_right fun _ => ?_
  omega

/-- A step up leads to the least permitted address above, wherever there is one, and a step down to the greatest one
below. Each undoes the other. -/
theorem steps_to_neighbours (m : HostMask f) {a : Address f} (ha : m.Permits a) :
    ((∃ x, m.Permits x ∧ a < x) → ∃ c, m.next a = .ok c) ∧
    (∀ c, m.next a = .ok c ↔ IsLeast {x | m.Permits x ∧ a < x} c) ∧
    ((∀ x, m.Permits x → ¬ a < x) → m.next a = .error .addressOutOfRange) ∧
    ((∃ x, m.Permits x ∧ x < a) → ∃ c, m.previous a = .ok c) ∧
    (∀ c, m.previous a = .ok c ↔ IsGreatest {x | m.Permits x ∧ x < a} c) ∧
    ((∀ x, m.Permits x → ¬ x < a) → m.previous a = .error .addressOutOfRange) ∧
    (∀ c, m.next a = .ok c → m.previous c = .ok a) ∧
    (∀ c, m.previous a = .ok c → m.next c = .ok a) := by
  have hcap := rank_lt ha
  refine ⟨?_, ?_, ?_, ?_, ?_, ?_, ?_, ?_⟩
  · intro ⟨x, hx, hax⟩
    have hlt := (lt_iff_rank_lt ha hx).1 hax
    have hcapx := rank_lt hx
    obtain ⟨c, hop, -⟩ := m.next_shifts.exists_ok ha (by omega) (by omega)
    exact ⟨c, hop⟩
  · intro c
    rw [m.next_shifts.ok_iff ha, isLeast_iff ha]
  · intro hno
    exact m.next_shifts.error ha fun c hc hrank => hno c hc ((lt_iff_rank_lt ha hc).2 (by omega))
  · intro ⟨x, hx, hxa⟩
    have hlt := (lt_iff_rank_lt hx ha).1 hxa
    obtain ⟨c, hop, -⟩ := m.previous_shifts.exists_ok ha (by omega) (by omega)
    exact ⟨c, hop⟩
  · intro c
    rw [m.previous_shifts.ok_iff ha, isGreatest_iff ha]
  · intro hno
    exact m.previous_shifts.error ha fun c hc hrank => hno c hc ((lt_iff_rank_lt hc ha).2 (by omega))
  · intro c
    exact m.next_shifts.undo m.previous_shifts ha
  · intro c
    exact m.previous_shifts.undo m.next_shifts ha

/-- Under a mask of 60 bits the address whose boundary byte holds its last free value has a neighbour above, and the
lowest address has none below. -/
theorem steps_to_neighbours_carry :
    (∃ c, (⟨60, by decide⟩ : HostMask .v6).next (.ofNat .v6 0x0f00000000000000) = .ok c ∧
      IsLeast {x | (⟨60, by decide⟩ : HostMask .v6).Permits x ∧ .ofNat .v6 0x0f00000000000000 < x} c ∧
      (⟨60, by decide⟩ : HostMask .v6).previous c = .ok (.ofNat .v6 0x0f00000000000000)) ∧
    (⟨60, by decide⟩ : HostMask .v6).previous .zero = .error .addressOutOfRange := by
  have hlow : ∀ x : Address .v6, ¬ x < .zero := fun x => (Address.zero_le x).not_gt
  obtain ⟨hex, hleast, -, -, -, -, hundo, -⟩ :=
    steps_to_neighbours ⟨60, by decide⟩ (a := .ofNat .v6 0x0f00000000000000) (by decide +kernel)
  obtain ⟨c, hc⟩ := hex ⟨.ofNat .v6 0x10000000000000000, by decide +kernel, by decide +kernel⟩
  refine ⟨⟨c, hc, (hleast c).1 hc, hundo c hc⟩, ?_⟩
  exact (steps_to_neighbours ⟨60, by decide⟩ (a := .zero) (by decide +kernel)).2.2.2.2.2.1 fun x _ => hlow x

end IpSpace.HostMask
