import IpSpace.Proofs.HostMask.Rank
import Mathlib.Data.List.Sort
import Mathlib.Data.Set.Card
import Mathlib.Order.Bounds.Basic

/-!
# Stretches of ranks

Sets of permitted addresses are mostly given by their ranks: those from `low` up to `high`, which is not one of them.
Rank keeps the order, so the ends of such a `stretch` are the places of its first and last rank, what lies above or below
one of its addresses is a stretch again, and it has `high - low` addresses. `eq_map_place` recognises the ascending
list of them.
-/
namespace IpSpace.HostMask

variable {f : Family} {m : HostMask f} {a c : Address f} {low high : Nat}

/-- The permitted addresses with a rank from `low` on and below `high`. -/
def stretch (m : HostMask f) (low high : Nat) : Set (Address f) := {a | m.Permits a ∧ low ≤ m.rank a ∧ m.rank a < high}

theorem mem_stretch : a ∈ m.stretch low high ↔ m.Permits a ∧ low ≤ m.rank a ∧ m.rank a < high := Iff.rfl

/-- All permitted addresses are one stretch. -/
theorem mem_stretch_capacity : a ∈ m.stretch 0 m.capacity ↔ m.Permits a :=
  ⟨fun h => h.1, fun h => ⟨h, Nat.zero_le _, rank_lt h⟩⟩

theorem place_mem_stretch {r : Nat} (hlow : low ≤ r) (hhigh : r < high) (hcap : r < m.capacity) :
    m.place r ∈ m.stretch low high := by
  rw [mem_stretch, rank_place hcap]
  exact ⟨m.permits_place r, hlow, hhigh⟩

/-! ## Ends -/

theorem isLeast_stretch_iff (hcap : high ≤ m.capacity) :
    IsLeast (m.stretch low high) a ↔ m.Permits a ∧ m.rank a = low ∧ low < high := by
  constructor
  · intro ⟨⟨ha, hlow, hhigh⟩, hmin⟩
    have hplace : m.place low ∈ m.stretch low high := place_mem_stretch le_rfl (by omega) (by omega)
    have hle := hmin hplace
    rw [le_iff_rank_le ha hplace.1, rank_place (by omega)] at hle
    exact ⟨ha, by omega, by omega⟩
  · rintro ⟨ha, rfl, hlt⟩
    exact ⟨⟨ha, le_rfl, hlt⟩, fun x hx => (le_iff_rank_le ha hx.1).2 hx.2.1⟩

theorem isGreatest_stretch_iff (hcap : high ≤ m.capacity) :
    IsGreatest (m.stretch low high) a ↔ m.Permits a ∧ m.rank a + 1 = high ∧ low < high := by
  constructor
  · intro ⟨⟨ha, hlow, hhigh⟩, hmax⟩
    have hplace : m.place (high - 1) ∈ m.stretch low high := place_mem_stretch (by omega) (by omega) (by omega)
    have hle := hmax hplace
    rw [le_iff_rank_le hplace.1 ha, rank_place (by omega)] at hle
    exact ⟨ha, by omega, by omega⟩
  · rintro ⟨ha, rfl, hlt⟩
    exact ⟨⟨ha, by omega, by omega⟩, fun x hx => (le_iff_rank_le hx.1 ha).2 (Nat.le_of_lt_succ hx.2.2)⟩

/-! ## Parts -/

theorem stretch_above (ha : a ∈ m.stretch low high) :
    {x | x ∈ m.stretch low high ∧ a < x} = m.stretch (m.rank a + 1) high := by
  ext x
  constructor
  · intro ⟨hx, hax⟩
    exact ⟨hx.1, (lt_iff_rank_lt ha.1 hx.1).1 hax, hx.2.2⟩
  · intro hx
    exact ⟨⟨hx.1, ha.2.1.trans (Nat.le_of_lt hx.2.1), hx.2.2⟩, (lt_iff_rank_lt ha.1 hx.1).2 hx.2.1⟩

theorem stretch_below (ha : a ∈ m.stretch low high) :
    {x | x ∈ m.stretch low high ∧ x < a} = m.stretch low (m.rank a) := by
  ext x
  constructor
  · intro ⟨hx, hxa⟩
    exact ⟨hx.1, hx.2.1, (lt_iff_rank_lt hx.1 ha.1).1 hxa⟩
  · intro hx
    exact ⟨⟨hx.1, hx.2.1, hx.2.2.trans ha.2.2⟩, (lt_iff_rank_lt hx.1 ha.1).2 hx.2.2⟩

/-! ## Neighbours -/

theorem isLeast_above_iff (hcap : high ≤ m.capacity) (ha : a ∈ m.stretch low high) :
    IsLeast {x | x ∈ m.stretch low high ∧ a < x} c ↔
      m.Permits c ∧ m.rank c = m.rank a + 1 ∧ m.rank a + 1 < high := by
  rw [stretch_above ha, isLeast_stretch_iff hcap]

theorem isGreatest_below_iff (hcap : high ≤ m.capacity) (ha : a ∈ m.stretch low high) :
    IsGreatest {x | x ∈ m.stretch low high ∧ x < a} c ↔ m.Permits c ∧ m.rank c + 1 = m.rank a ∧ low < m.rank a := by
  rw [stretch_below ha, isGreatest_stretch_iff (ha.2.2.le.trans hcap)]

/-! ## Lists -/

variable {start count : Nat}

/-- The places of ranks in turn, as a list, have the addresses of the stretch. -/
theorem mem_map_place (hfits : start + count ≤ m.capacity) :
    a ∈ (List.range' start count).map m.place ↔ a ∈ m.stretch start (start + count) := by
  rw [List.mem_map]
  constructor
  · rintro ⟨r, hr, rfl⟩
    rw [List.mem_range'_1] at hr
    exact place_mem_stretch hr.1 hr.2 (by omega)
  · intro ⟨ha, hr⟩
    exact ⟨m.rank a, List.mem_range'_1.2 hr, place_rank ha⟩

theorem pairwise_map_place (hfits : start + count ≤ m.capacity) :
    ((List.range' start count).map m.place).Pairwise (· < ·) := by
  rw [List.pairwise_map]
  refine List.Pairwise.imp_of_mem ?_ (List.pairwise_lt_range' (s := start) (n := count))
  intro i j hi hj hij
  rw [List.mem_range'_1] at hi hj
  rwa [lt_iff_rank_lt (m.permits_place i) (m.permits_place j), rank_place (by omega), rank_place (by omega)]

/-- Permitted addresses in ascending order, with ranks that make a stretch, are the places of these ranks. -/
theorem eq_map_place (hfits : start + count ≤ m.capacity) {addresses : List (Address f)}
    (hlt : addresses.Pairwise (· < ·))
    (hmem : ∀ a, a ∈ addresses ↔ m.Permits a ∧ start ≤ m.rank a ∧ m.rank a < start + count) :
    addresses = (List.range' start count).map m.place :=
  hlt.eq_of_mem_iff (pairwise_map_place hfits) fun a => (hmem a).trans (mem_map_place hfits).symm

theorem encard_stretch (hcap : high ≤ m.capacity) (hle : low ≤ high) :
    (m.stretch low high).encard = (high - low : Nat) := by
  obtain ⟨count, rfl⟩ := Nat.exists_eq_add_of_le hle
  have hset : m.stretch low (low + count) = ((List.range' low count).map m.place).toFinset := by
    ext a
    rw [List.coe_toFinset]
    exact (mem_map_place hcap).symm
  have hnodup : ((List.range' low count).map m.place).Nodup := (pairwise_map_place hcap).imp ne_of_lt
  rw [hset, Set.encard_coe_eq_coe_finsetCard, List.toFinset_card_of_nodup hnodup, List.length_map, List.length_range',
    Nat.add_sub_cancel_left]

end IpSpace.HostMask
