import IpSpace.Proofs.Block.Walk

/-!
# The addresses in use

`members` are the addresses that belong to a block: all that an IPv4 block contains, and of an IPv6 block those that it
controls. `usable` are the members that can be given out, which an IPv4 block of at most 30 bits denies to its two ends.
Both are stretches of ranks (`members_eq_stretch`, `usable_eq_stretch`), the second one shorter by the margin at either
end.

So `first`, `last` and `count` tell the bounds and the number of the usable addresses (`usable_bounds`). In an IPv4 block
ranks are the numbers of the addresses, and a listing goes through consecutive ones (`list_runs_from_first`).
-/
namespace IpSpace

variable {f : Family}

theorem HostMask.permits_v4 (m : HostMask .v4) (a : Address .v4) : m.Permits a :=
  permits_of_boundary?_none (boundary?_eq_none_iff.2 m.length_v4) a

namespace Block

/-- The addresses of an IPv4 block, and those of an IPv6 block that its host mask permits. -/
def members : {f : Family} → Block f → Set (Address f)
  | .v4, b => {a | b.Contains a}
  | .v6, b => {a | b.Controls a}

/-- The members, without the network and the broadcast address of an IPv4 block of at most 30 bits. -/
def usable : {f : Family} → Block f → Set (Address f)
  | .v4, b => {a | b.Contains a ∧ (b.prefixLength ≤ 30 → a ≠ b.base ∧ a ≠ b.broadcast)}
  | .v6, b => {a | b.Controls a}

/-! ## Stretches -/

theorem mem_members {b : Block f} {a : Address f} : a ∈ b.members ↔ b.Controls a := by
  cases f with
  | v4 => exact (and_iff_left (b.hostMask.permits_v4 a)).symm
  | v6 => exact Iff.rfl

theorem mem_usable {b : Block f} {a : Address f} :
    a ∈ b.usable ↔ a ∈ b.members ∧ (b.ReservesEnds → a ≠ b.base ∧ a ≠ b.broadcast) := by
  cases f with
  | v4 => simp only [reservesEnds_iff, true_and]; exact Iff.rfl
  | v6 => exact (and_iff_left fun h => by cases h.1).symm

theorem members_eq_stretch (b : Block f) :
    b.members = b.hostMask.stretch (b.hostMask.rank b.base) (b.hostMask.rank b.base + 2 ^ b.freeBits) := by
  ext a
  rw [mem_members, controls_iff]
  exact Iff.rfl

theorem usable_eq_stretch (b : Block f) :
    b.usable = b.hostMask.stretch (b.hostMask.rank b.base + b.margin)
      (b.hostMask.rank b.base + 2 ^ b.freeBits - b.margin) := by
  ext a
  rw [mem_usable, members_eq_stretch, HostMask.mem_stretch, HostMask.mem_stretch, and_assoc]
  refine and_congr_right fun ha => ?_
  -- Rank tells permitted addresses apart, so to leave out an end is to leave out its rank.
  by_cases hends : b.ReservesEnds
  · have hmargin : b.margin = 1 := if_pos hends
    have hbroadcast := b.rank_broadcast hends.boundary?_eq_none
    have hpermits := HostMask.permits_of_boundary?_none hends.boundary?_eq_none b.broadcast
    simp only [hends, true_imp_iff, ne_eq, ← HostMask.rank_inj ha b.base_permits, ← HostMask.rank_inj ha hpermits]
    omega
  · have hmargin : b.margin = 0 := if_neg hends
    simp only [hends, false_imp_iff, and_true, hmargin, Nat.add_zero, Nat.sub_zero]

/-! ## Bounds and number -/

/-- The addresses in use go from the first to the last one, and there is one at least. The count is their number, save for
the whole IPv6 space without a mask, where it is the largest number of 128 bits. -/
theorem usable_bounds (b : Block f) :
    b.usable.Nonempty ∧ IsLeast b.usable b.first ∧ IsGreatest b.usable b.last ∧
      if f = .v6 ∧ b.prefixLength = 0 ∧ b.hostMask = .empty then b.count = 2 ^ Family.v6.bits - 1
      else b.usable.encard = b.count := by
  have hmargin := b.two_mul_margin_lt
  have hfits := b.rank_base_add_le
  have hcap : b.hostMask.rank b.base + 2 ^ b.freeBits - b.margin ≤ b.hostMask.capacity := by omega
  have hfirst : IsLeast b.usable b.first := by
    rw [usable_eq_stretch, HostMask.isLeast_stretch_iff hcap]
    exact ⟨b.first_permits, b.rank_first, by omega⟩
  have hlast : IsGreatest b.usable b.last := by
    rw [usable_eq_stretch, HostMask.isGreatest_stretch_iff hcap, b.rank_last]
    exact ⟨b.last_permits, by omega, by omega⟩
  refine ⟨⟨b.first, hfirst.1⟩, hfirst, hlast, ?_⟩
  split
  · rename_i hwhole
    obtain ⟨rfl, hwhole⟩ := hwhole
    exact count_whole hwhole
  · rename_i hpart
    rw [count_eq hpart, usable_eq_stretch, HostMask.encard_stretch hcap (by omega)]
    congr 1
    omega

/-! ## Listings of IPv4 blocks -/

theorem mem_used {b : Block f} {a : Address f} : a ∈ b.used ↔ a ∈ b.usable := by
  have hmargin := b.two_mul_margin_lt
  have hfits := b.rank_base_add_le
  have hend : b.hostMask.rank b.base + b.margin + (2 ^ b.freeBits - 2 * b.margin) =
      b.hostMask.rank b.base + 2 ^ b.freeBits - b.margin := by omega
  rw [used, HostMask.mem_map_place (by omega), usable_eq_stretch, hend]

/-- The address at a position of an IPv4 listing is as far above the first one as the offset and the position say. -/
theorem toNat_of_listed {b : Block .v4} {offset size k : Nat} {a : Address .v4}
    (h : ((List.range' (b.hostMask.rank b.first + offset) (listingLength b.count offset size)).map b.hostMask.place)[k]? =
      some a) : a.toNat = b.first.toNat + offset + k := by
  have hnone := HostMask.boundary?_eq_none_iff.2 b.hostMask.length_v4
  have hlength := listingLength_le b.count offset size
  have hcount := b.count_add_le
  have hfits := b.rank_base_add_le
  have hfirst := b.rank_first
  rw [HostMask.capacity_of_none hnone] at hfits
  rw [List.getElem?_map, Option.map_eq_some_iff] at h
  obtain ⟨r, hr, rfl⟩ := h
  obtain ⟨hk, rfl⟩ := List.getElem?_eq_some_iff.1 hr
  rw [List.length_range'] at hk
  rw [List.getElem_range', Nat.one_mul, HostMask.place_of_none hnone, Address.toNat_ofNat_of_lt (by omega),
    HostMask.rank_of_none hnone]

/-- A listing of an IPv4 block goes through consecutive addresses from `offset` above the first one on: `size` of them, or
all that are left if these are fewer or `size` is zero. The listing of the whole block has the usable addresses from first
to last, so in a block of at most 30 bits it holds neither end. -/
theorem list_runs_from_first (b : Block .v4) (offset size : Nat) :
    ∃ addresses all, (b.list offset size).Yields addresses ∧
      addresses.length = (if b.count ≤ offset then 0
        else if size = 0 then b.count - offset else min size (b.count - offset)) ∧
      (∀ k a, addresses[k]? = some a → a.toNat = b.first.toNat + offset + k) ∧
      (b.list 0 0).Yields all ∧ all.head? = some b.first ∧ all.getLast? = some b.last ∧
      (∀ a, a ∈ all ↔ a ∈ b.usable) ∧ (b.prefixLength ≤ 30 → b.base ∉ all ∧ b.broadcast ∉ all) := by
  have hleft := b.list_left offset size
  have hused := b.used_eq_listed
  simp only [reduceCtorEq, false_and, if_false, List.append_nil, b.list_all_left.toList] at hused
  refine ⟨_, b.used, hleft.yields, ?_, fun k a => toNat_of_listed, ?_, b.visits_up.head, ?_, fun a => mem_used, ?_⟩
  · rw [List.length_map, List.length_range', listingLength]
    split <;> split <;> omega
  · rw [hused]
    exact b.list_all_left.yields
  · rw [← List.head?_reverse]
    exact b.visits_down.head
  · intro hshort
    rw [mem_used, mem_used]
    exact ⟨fun h => (h.2 hshort).1 rfl, fun h => (h.2 hshort).2 rfl⟩

-- The block at the top of the address space: the listing ends where there is no address to step to.
example : ((around .ones 31 (by decide) : Block .v4).list 0 0).toList = [.ofNat .v4 0xfffffffe, .ofNat .v4 0xffffffff] := by
  decide +kernel

end Block

end IpSpace
