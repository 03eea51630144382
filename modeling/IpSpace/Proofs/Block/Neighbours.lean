import IpSpace.Proofs.Block.Usable

/-!
# Steps between neighbours

A step is asked for an address and leads to its neighbour among the members of the block. `StepsAmong` is what it owes: an
address that is no member is refused as such, the last member in the direction of the step has no neighbour, and from any
other one the step succeeds, marked if it lands on the reserved end. `steps_to_members` says so of both steps, and that
each undoes the other.
-/
namespace IpSpace

/-- Of two members one is the next one up if the other is the next one down. -/
theorem isLeast_above_iff_isGreatest_below {α : Type} [LinearOrder α] {members : Set α} {a c : α} (ha : a ∈ members)
    (hc : c ∈ members) :
    IsLeast {x | x ∈ members ∧ a < x} c ↔ IsGreatest {x | x ∈ members ∧ x < c} a := by
  constructor
  · intro ⟨⟨_, hac⟩, hmin⟩
    exact ⟨⟨ha, hac⟩, fun x hx => not_lt.1 fun hax => (hmin ⟨hx.1, hax⟩).not_gt hx.2⟩
  · intro ⟨⟨_, hac⟩, hmax⟩
    exact ⟨⟨hc, hac⟩, fun x hx => not_lt.1 fun hxc => (hmax ⟨hx.1, hxc⟩).not_gt hx.2⟩

namespace Block

variable {f : Family} {b : Block f} {a : Address f}

/-- What a step owes that leads among the members to the one `Beside` an address, towards the reserved end `limit`. -/
structure StepsAmong (b : Block f) (step : Address f → Except Error (Step f)) (Last : Address f → Prop)
    (Beside : Address f → Address f → Prop) (limit : Address f) (mark : Reserved) : Prop where
  outside : ∀ a, step a = .error .addressOutOfRange ↔ a ∉ b.members
  atEnd : ∀ a, step a = .error .addressAtEndOfRange ↔ Last a
  inside : ∀ a ∈ b.members, ¬ Last a → ∃ s, step a = .ok s ∧ Beside a s.address ∧
    s.reserved = if f = .v4 ∧ b.prefixLength ≤ 30 ∧ s.address = limit then some mark else none

namespace StepsAmong

variable {step : Address f → Except Error (Step f)} {Last : Address f → Prop}
  {Beside : Address f → Address f → Prop} {limit : Address f} {mark : Reserved}

/-- It is enough to know where the step leads from each kind of address. -/
theorem of_cases (hout : ∀ a ∉ b.members, step a = .error .addressOutOfRange)
    (hlast : ∀ a, Last a → a ∈ b.members ∧ step a = .error .addressAtEndOfRange)
    (hin : ∀ a ∈ b.members, ¬ Last a → ∃ s, step a = .ok s ∧ Beside a s.address ∧
      s.reserved = if f = .v4 ∧ b.prefixLength ≤ 30 ∧ s.address = limit then some mark else none) :
    StepsAmong b step Last Beside limit mark where
  outside a := by
    refine ⟨fun hstep ha => ?_, hout a⟩
    by_cases hend : Last a
    · rw [(hlast a hend).2] at hstep
      cases hstep
    · obtain ⟨s, hs, -⟩ := hin a ha hend
      rw [hs] at hstep
      cases hstep
  atEnd a := by
    refine ⟨fun hstep => ?_, fun hend => (hlast a hend).2⟩
    by_contra hend
    by_cases ha : a ∈ b.members
    · obtain ⟨s, hs, -⟩ := hin a ha hend
      rw [hs] at hstep
      cases hstep
    · rw [hout a ha] at hstep
      cases hstep
  inside := hin

theorem of_ok (h : StepsAmong b step Last Beside limit mark) {s : Step f} (hs : step a = .ok s) :
    a ∈ b.members ∧ Beside a s.address := by
  have ha : a ∈ b.members := by
    by_contra hout
    rw [(h.outside a).2 hout] at hs
    cases hs
  have hinside : ¬ Last a := by
    intro hend
    rw [(h.atEnd a).2 hend] at hs
    cases hs
  obtain ⟨t, ht, hbeside, -⟩ := h.inside a ha hinside
  rw [hs, Except.ok.injEq] at ht
  exact ⟨ha, ht ▸ hbeside⟩

end StepsAmong

/-! ## Both directions -/

theorem next_stepsAmong (b : Block f) :
    StepsAmong b b.next (IsGreatest b.members) (fun a => IsLeast {x | x ∈ b.members ∧ a < x}) b.broadcast .broadcast := by
  have hfits := b.rank_base_add_le
  refine .of_cases (fun a ha => ?_) (fun a hend => ⟨hend.1, ?_⟩) fun a ha hmore => ?_
  · rw [next, if_neg (mt mem_members.2 ha)]
  · rw [members_eq_stretch, HostMask.isGreatest_stretch_iff hfits] at hend
    obtain ⟨ha, hrank, hlt⟩ := hend
    rw [← HostMask.place_rank ha, next_place (by omega) (by omega), if_neg (by omega)]
  · rw [members_eq_stretch, HostMask.isGreatest_stretch_iff hfits] at hmore
    rw [members_eq_stretch] at ha
    obtain ⟨hpermits, hlow, hhigh⟩ := HostMask.mem_stretch.1 ha
    have hroom : b.hostMask.rank a + 1 < b.hostMask.rank b.base + 2 ^ b.freeBits := by
      by_contra hfull
      exact hmore ⟨hpermits, by omega, by omega⟩
    have hnext := next_place hlow hhigh
    rw [HostMask.place_rank hpermits, if_pos hroom] at hnext
    simp only [reservesEnds_iff, and_assoc] at hnext
    refine ⟨_, hnext, ?_, rfl⟩
    rw [members_eq_stretch, HostMask.isLeast_above_iff hfits ha, HostMask.rank_place (by omega)]
    exact ⟨b.hostMask.permits_place _, rfl, hroom⟩

theorem previous_stepsAmong (b : Block f) :
    StepsAmong b b.previous (IsLeast b.members) (fun a => IsGreatest {x | x ∈ b.members ∧ x < a}) b.base .network := by
  have hfits := b.rank_base_add_le
  refine .of_cases (fun a ha => ?_) (fun a hend => ⟨hend.1, ?_⟩) fun a ha hmore => ?_
  · rw [previous, if_neg (mt mem_members.2 ha)]
  · rw [members_eq_stretch, HostMask.isLeast_stretch_iff hfits] at hend
    obtain ⟨ha, hrank, hlt⟩ := hend
    rw [← HostMask.place_rank ha, previous_place (by omega) (by omega), if_neg (by omega)]
  · rw [members_eq_stretch, HostMask.isLeast_stretch_iff hfits] at hmore
    rw [members_eq_stretch] at ha
    obtain ⟨hpermits, hlow, hhigh⟩ := HostMask.mem_stretch.1 ha
    have hroom : b.hostMask.rank b.base < b.hostMask.rank a := by
      by_contra hfull
      exact hmore ⟨hpermits, by omega, by omega⟩
    have hprevious := previous_place hlow hhigh
    rw [HostMask.place_rank hpermits, if_pos hroom] at hprevious
    simp only [reservesEnds_iff, and_assoc] at hprevious
    refine ⟨_, hprevious, ?_, rfl⟩
    rw [members_eq_stretch, HostMask.isGreatest_below_iff hfits ha, HostMask.rank_place (by omega)]
    exact ⟨b.hostMask.permits_place _, by omega, hroom⟩

/-- From a member of a block a step leads to the next one up or down, as long as there is one. It tells whether there is
none or the address is no member, and whether it landed on the reserved end of an IPv4 block of at most 30 bits. Where a
step succeeds the opposite one leads back. -/
theorem steps_to_members (b : Block f) :
    StepsAmong b b.next (IsGreatest b.members) (fun a => IsLeast {x | x ∈ b.members ∧ a < x}) b.broadcast .broadcast ∧
    StepsAmong b b.previous (IsLeast b.members) (fun a => IsGreatest {x | x ∈ b.members ∧ x < a}) b.base .network ∧
    (∀ a s, b.next a = .ok s → ∃ t, b.previous s.address = .ok t ∧ t.address = a) ∧
    ∀ a s, b.previous a = .ok s → ∃ t, b.next s.address = .ok t ∧ t.address = a := by
  refine ⟨b.next_stepsAmong, b.previous_stepsAmong, fun a s hs => ?_, fun a s hs => ?_⟩
  · obtain ⟨ha, hleast⟩ := b.next_stepsAmong.of_ok hs
    have hnotLeast : ¬ IsLeast b.members s.address := fun h => (h.2 ha).not_gt hleast.1.2
    obtain ⟨t, ht, hgreatest, -⟩ := b.previous_stepsAmong.inside _ hleast.1.1 hnotLeast
    exact ⟨t, ht, hgreatest.unique ((isLeast_above_iff_isGreatest_below ha hleast.1.1).1 hleast)⟩
  · obtain ⟨ha, hgreatest⟩ := b.previous_stepsAmong.of_ok hs
    have hnotGreatest : ¬ IsGreatest b.members s.address := fun h => (h.2 ha).not_gt hgreatest.1.2
    obtain ⟨t, ht, hleast, -⟩ := b.next_stepsAmong.inside _ hgreatest.1.1 hnotGreatest
    exact ⟨t, ht, hleast.unique ((isLeast_above_iff_isGreatest_below hgreatest.1.1 ha).2 hgreatest)⟩

end Block

end IpSpace
