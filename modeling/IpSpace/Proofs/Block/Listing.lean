import IpSpace.Block.Listing
import IpSpace.Proofs.Block.Ends
import IpSpace.Proofs.HostMask.Jump
import IpSpace.Proofs.HostMask.Step

/-!
# A listing is a slice

A listing comes from three computations that know nothing of each other: it starts where `HostMask.add` jumps, goes on
by `HostMask.next`, and stops after as many addresses as the count leaves. Each is arithmetic on ranks, so what a listing
yields is the places of a stretch of ranks (`yields_places`, `list_yields_places`). The stretch is the slice of the
controlled addresses that was asked for (`list_yields_slice`).
-/
namespace IpSpace

variable {f : Family}

theorem HostMask.Fits.length_add_le {m : HostMask f} {n : Nat} (h : m.Fits n) : m.length + 8 ≤ f.bits := by
  cases hb : m.boundary? with
  | none =>
    have hbits := f.eight_le_bits
    rw [boundary?_eq_none_iff.1 hb]; omega
  | some b =>
    have hindex := (h b hb).2.2
    rw [ne_eq, index_eq_zero_iff hb] at hindex
    omega

/-- Taking addresses off the front gives those of the list in turn, and from then on none. -/
inductive Listing.Yields : Listing f → List (Address f) → Prop
  | nil {l} : l.pop = (none, l) → Yields l []
  | cons {l rest a addresses} : l.pop = (some a, rest) → Yields rest addresses → Yields l (a :: addresses)

/-- A listing that stands at a permitted address yields the ranks from there on. -/
theorem Listing.yields_places {m : HostMask f} {start count : Nat} {next : Option (Address f)}
    (h : 0 < count → next = some (m.place start) ∧ start + count ≤ m.capacity) :
    Yields ⟨m, next, count⟩ ((List.range' start count).map m.place) := by
  induction count generalizing start next with
  | zero => exact .nil rfl
  | succ count ih =>
    obtain ⟨rfl, hfits⟩ := h (Nat.succ_pos count)
    refine .cons rfl (ih fun hpos => ⟨?_, by omega⟩)
    -- the step is known to succeed where the listing goes on
    rw [HostMask.next_eq (m.permits_place start), HostMask.rank_place (by omega), if_pos (by omega)]
    rfl

/-! ## Slices -/

/-- `size` elements of a list from position `offset` on, or all from there on if `size` is zero. -/
def slice {α : Type} (offset size : Nat) (elements : List α) : List α :=
  if size = 0 then elements.drop offset else (elements.drop offset).take size

theorem slice_map_range' {α : Type} (g : Nat → α) (start count offset size : Nat) :
    slice offset size ((List.range' start count).map g) =
      (List.range' (start + offset) (Block.listingLength count offset size)).map g := by
  unfold slice Block.listingLength
  rw [← List.map_drop, ← List.map_take, List.drop_range', Nat.mul_one]
  split
  · rfl
  · rcases Nat.le_total (count - offset) size with hle | hle
    · rw [List.take_range'_of_length_le hle, Nat.min_eq_right hle]
    · rw [List.take_range'_of_length_ge hle, Nat.min_eq_left hle]

namespace Block

theorem listingLength_le (count offset size : Nat) : listingLength count offset size ≤ count - offset := by
  unfold listingLength; split <;> omega

/-- A listing jumps from the first address in use and stops within the count. -/
theorem list_yields_from_first (b : Block f) (offset size : Nat) :
    (b.list offset size).Yields
      ((List.range' (b.hostMask.rank b.first + offset) (listingLength b.count offset size)).map b.hostMask.place) := by
  have hlength := listingLength_le b.count offset size
  have hcount := b.count_add_le
  have hfits := b.rank_base_add_le
  have hfirst := b.rank_first
  refine Listing.yields_places fun hpos => ⟨?_, by omega⟩
  rw [if_pos hpos, HostMask.add_eq b.hostMask_fits.length_add_le b.first_permits, if_pos (by omega)]
  rfl

/-- Without reserved ends the first address in use is the base. -/
theorem list_yields_places {b : Block f} (h : ¬ b.ReservesEnds) (offset size : Nat) :
    (b.list offset size).Yields
      ((List.range' (b.hostMask.rank b.base + offset) (listingLength b.count offset size)).map b.hostMask.place) := by
  have hyields := b.list_yields_from_first offset size
  rwa [rank_first, margin, if_neg h] at hyields

/-- A listing of an IPv6 block yields the slice that was asked for of the addresses it controls, in ascending order and as
many as the block counts. -/
theorem list_yields_slice (b : Block .v6) (offset size : Nat) :
    b.listable.Pairwise (· < ·) ∧
    (∀ a, a ∈ b.listable ↔ b.Controls a ∧ ¬ (b.prefixLength = 0 ∧ b.hostMask = .empty ∧ a = .ones)) ∧
    b.listable.length = b.count ∧
    (b.list offset size).Yields (slice offset size b.listable) ∧
    (b.count ≤ offset → (b.list offset size).Yields []) := by
  have hends : ¬ b.ReservesEnds := fun h => by cases h.1
  have hyields := list_yields_places hends offset size
  refine ⟨b.pairwise_listable, fun _ => mem_listable, ?_, ?_, fun hpast => ?_⟩
  · rw [listable_eq hends, List.length_map, List.length_range']
  · rwa [listable_eq hends, slice_map_range']
  · have hlength := listingLength_le b.count offset size
    rwa [show listingLength b.count offset size = 0 by omega] at hyields

/-- Twelve bits are free between a prefix of 56 bits and a mask of 60: a byte, and four bits of the boundary byte below
it. The four addresses from position 14 on cross the carry from the boundary byte into the byte above, and past the last
of the 4096 addresses there is nothing to list. -/
theorem list_yields_slice_across_carry :
    ∃ b : Block .v6, b.prefixLength = 56 ∧ b.hostMask.length = 60 ∧ b.count = 4096 ∧
      (b.list 14 4).Yields
        [.ofNat .v6 0x20010db8000001000e00000000000000, .ofNat .v6 0x20010db8000001000f00000000000000,
          .ofNat .v6 0x20010db8000001010000000000000000, .ofNat .v6 0x20010db8000001010100000000000000] ∧
      (b.list 4096 0).Yields [] := by
  let b : Block .v6 :=
    ⟨.ofNat .v6 0x20010db8000001000000000000000000, 56, ⟨60, by decide⟩, by decide, by decide +kernel, by decide +kernel⟩
  have hcount : b.count = 4096 := by decide +kernel
  obtain ⟨-, -, -, hslice, -⟩ := list_yields_slice b 14 4
  obtain ⟨-, -, -, -, hpast⟩ := list_yields_slice b 4096 0
  -- four ranks to evaluate, where the list that is sliced has 4096 addresses
  rw [listable_eq (b := b) (by decide +kernel), slice_map_range'] at hslice
  refine ⟨b, rfl, rfl, hcount, ?_, hpast hcount.le⟩
  convert hslice using 1
  decide +kernel

end Block

end IpSpace
