import IpSpace.Proofs.Block.Cursor
import IpSpace.Proofs.Block.Subnets

/-!
# Sub-blocks share out the addresses of their block

Under a host mask the addresses that a block controls do not follow each other as numbers, and the sub-blocks follow each
other in bounds only. In ranks both are simple: the block has a stretch, and sub-block number `i` has the `i`-th of its
equal parts (`EvenTiling.rank_base_of_getElem?`). So the listings of the sub-blocks one after the other are the listing
of the block (`subnets_share_out`).
-/
namespace IpSpace

variable {f : Family}

/-- Pieces that are equal stretches in turn make up one stretch. -/
theorem flatMap_eq_map_range' {α β : Type} {piece : α → List β} {g : Nat → β} {s : Nat} {xs : List α} {start : Nat}
    (h : ∀ i x, xs[i]? = some x → piece x = (List.range' (start + i * s) s).map g) :
    xs.flatMap piece = (List.range' start (xs.length * s)).map g := by
  induction xs generalizing start with
  | nil => simp
  | cons x xs ih =>
    have hhead : piece x = (List.range' start s).map g := by
      rw [h 0 x List.getElem?_cons_zero, Nat.zero_mul, Nat.add_zero]
    have htail : ∀ i y, xs[i]? = some y → piece y = (List.range' (start + s + i * s) s).map g := by
      intro i y hi
      rw [h (i + 1) y (List.getElem?_cons_succ.trans hi), Nat.succ_mul, Nat.add_assoc, Nat.add_comm s]
    rw [List.flatMap_cons, ih htail, hhead, List.length_cons, Nat.succ_mul, Nat.add_comm (xs.length * s),
      ← List.range'_append_1, List.map_append]

namespace Block

/-! ## Ranks of sub-blocks -/

theorem prefixLength_add_length_le (b : Block f) : b.prefixLength + b.hostMask.length ≤ f.bits := by
  have hp := b.prefixLength_le
  cases hm : b.hostMask.boundary? with
  | none => rw [HostMask.boundary?_eq_none_iff.1 hm]; exact hp
  | some m => exact Nat.le_of_lt (b.hostMask_fits m hm).1

/-- Each bit more in the prefix halves the addresses. -/
theorem two_pow_freeBits_eq_mul {b c : Block f} (hm : c.hostMask = b.hostMask)
    (hp : b.prefixLength ≤ c.prefixLength) :
    2 ^ b.freeBits = 2 ^ (c.prefixLength - b.prefixLength) * 2 ^ c.freeBits := by
  have hc := c.prefixLength_add_length_le
  rw [hm] at hc
  rw [← Nat.pow_add, freeBits, freeBits, hm]
  congr 1; omega

/-- Blocks further up by `i` times the size of a sub-block have a rank further up by `i` times its share. -/
theorem rank_base_add {b c : Block f} (hm : c.hostMask = b.hostMask) (hp : b.prefixLength ≤ c.prefixLength) {i : Nat}
    (hbase : c.base.toNat = b.base.toNat + i * c.size) :
    b.hostMask.rank c.base = b.hostMask.rank b.base + i * 2 ^ c.freeBits := by
  have hdiv : b.base.toNat / c.size = b.base.toNat / b.size * 2 ^ (c.prefixLength - b.prefixLength) := by
    have hsize : b.size = 2 ^ (c.prefixLength - b.prefixLength) * c.size := f.span_eq_mul hp c.prefixLength_le
    rw [← b.base_toNat, Nat.mul_div_cancel _ b.size_pos, hsize, ← Nat.mul_assoc, Nat.mul_div_cancel _ c.size_pos]
  have hrank := c.rank_base_eq
  rw [hm, hbase, Nat.add_mul_div_right _ _ c.size_pos, hdiv, Nat.add_mul, Nat.mul_assoc,
    ← two_pow_freeBits_eq_mul hm hp, ← rank_base_eq] at hrank
  exact hrank

end Block

namespace EvenTiling

variable {b : Block f} {p : Nat} {blocks : List (Block f)}

theorem length_eq (h : EvenTiling p b.hostMask b.base b.broadcast blocks) (hq : b.prefixLength ≤ p) (hp : p ≤ f.bits) :
    blocks.length = 2 ^ (p - b.prefixLength) := by
  have hlen := h.toNat_add_length_mul
  rw [Block.toNat_broadcast_succ, Block.size, f.span_eq_mul hq hp] at hlen
  exact Nat.eq_of_mul_eq_mul_right (f.span_pos p) (Nat.add_left_cancel hlen)

/-- The sub-blocks have as many free bits each, and the position of one tells the rank of its base. -/
theorem rank_base_of_getElem? (h : EvenTiling p b.hostMask b.base b.broadcast blocks) (hq : b.prefixLength ≤ p) {i : Nat}
    {c : Block f} (hi : blocks[i]? = some c) :
    c.freeBits = f.bits - p - b.hostMask.length ∧
      b.hostMask.rank c.base = b.hostMask.rank b.base + i * 2 ^ c.freeBits := by
  obtain ⟨hp, hm⟩ := h.kind c (List.mem_of_getElem? hi)
  have hbase := h.base_of_getElem? hi
  rw [← hp] at hbase hq
  exact ⟨by rw [Block.freeBits, hp, hm], Block.rank_base_add hm hq hbase⟩

/-- The free bits of the block are those of its sub-blocks and those that the longer prefix takes. -/
theorem two_pow_freeBits (h : EvenTiling p b.hostMask b.base b.broadcast blocks) (hq : b.prefixLength ≤ p) :
    2 ^ b.freeBits = 2 ^ (p - b.prefixLength) * 2 ^ (f.bits - p - b.hostMask.length) := by
  obtain ⟨c, hc⟩ := List.exists_mem_of_ne_nil blocks h.ne_nil
  obtain ⟨hp, hm⟩ := h.kind c hc
  rw [Block.two_pow_freeBits_eq_mul hm (hp ▸ hq), Block.freeBits, hp, hm]

end EvenTiling

namespace Block

/-! ## Listings of sub-blocks -/

/-- An IPv6 block lists all that it controls, if its count is exact. -/
theorem list_left_v6 {b : Block .v6} (h : ¬ (b.prefixLength = 0 ∧ b.hostMask = .empty)) :
    b.count = 2 ^ b.freeBits ∧
      (b.list 0 0).Left ((List.range' (b.hostMask.rank b.base) (2 ^ b.freeBits)).map b.hostMask.place) := by
  have hcount : b.count = 2 ^ b.freeBits := by
    rw [count_eq fun hwhole => h hwhole.2, b.margin_v6]; rfl
  have hleft := b.list_all_left
  rw [rank_first, b.margin_v6, hcount] at hleft
  exact ⟨hcount, hleft⟩

/-- What a sub-block lists is its part of what the block lists. -/
theorem sub_list_left {b : Block .v6} (hb : ¬ (b.prefixLength = 0 ∧ b.hostMask = .empty)) {p : Nat}
    {blocks : List (Block .v6)} (h : EvenTiling p b.hostMask b.base b.broadcast blocks) (hq : b.prefixLength ≤ p) {i : Nat}
    {c : Block .v6} (hi : blocks[i]? = some c) {share : Nat}
    (hshare : share = 2 ^ (Family.v6.bits - p - b.hostMask.length)) :
    c.count = share ∧
      (c.list 0 0).Left ((List.range' (b.hostMask.rank b.base + i * share) share).map b.hostMask.place) := by
  obtain ⟨hp, hm⟩ := h.kind c (List.mem_of_getElem? hi)
  obtain ⟨hfree, hrank⟩ := h.rank_base_of_getElem? hq hi
  have hc : ¬ (c.prefixLength = 0 ∧ c.hostMask = .empty) := by
    rintro ⟨hshort, hempty⟩
    exact hb ⟨by omega, hm ▸ hempty⟩
  have hleft := list_left_v6 hc
  rwa [hm, hrank, hfree, ← hshare] at hleft

/-- The sub-blocks of an IPv6 block share out its addresses evenly and in order: what their listings yield one after the
other is what the listing of the block yields. -/
theorem subnets_share_out (b : Block .v6) (hb : ¬ (b.prefixLength = 0 ∧ b.hostMask = .empty)) {p : Nat}
    {s : Subnets .v6} (hs : (b.subnets p).outcome = .ok s) :
    ∃ blocks share, s.Yields blocks ∧ blocks.length = 2 ^ (p - b.prefixLength) ∧
      (∀ c ∈ blocks, c.count = share ∧ (c.list 0 0).toList.length = share ∧
        (c.list 0 0).Yields (c.list 0 0).toList) ∧
      b.count = 2 ^ (p - b.prefixLength) * share ∧
      (b.list 0 0).Yields (blocks.flatMap fun c => (c.list 0 0).toList) ∧
      ∀ (i : Nat) (c : Block .v6), blocks[i]? = some c → ∀ j < share,
        (c.list 0 0).toList[j]? = (b.list 0 0).toList[i * share + j]? := by
  obtain ⟨hq, hp, blocks, hyields, htiles⟩ := subnets_ok hs
  obtain ⟨hcount, hleft⟩ := list_left_v6 hb
  have hlength := htiles.length_eq hq hp
  have htotal := htiles.two_pow_freeBits hq
  obtain ⟨share, hshare⟩ : ∃ share, share = 2 ^ (Family.v6.bits - p - b.hostMask.length) := ⟨_, rfl⟩
  have hsub := fun i c hi => sub_list_left hb htiles hq (i := i) (c := c) hi hshare
  rw [← hshare] at htotal
  refine ⟨blocks, share, hyields, hlength, ?_, hcount.trans htotal, ?_, ?_⟩
  · intro c hc
    obtain ⟨i, hi⟩ := List.mem_iff_getElem?.1 hc
    obtain ⟨hcount, hleft⟩ := hsub i c hi
    rw [hleft.toList, List.length_map, List.length_range']
    exact ⟨hcount, rfl, hleft.yields⟩
  · rw [flatMap_eq_map_range' fun i c hi => (hsub i c hi).2.toList, hlength, ← htotal]
    exact hleft.yields
  · intro i c hi j hj
    obtain ⟨hi', -⟩ := List.getElem?_eq_some_iff.1 hi
    have hlt : i * share + j < 2 ^ b.freeBits := by
      rw [htotal, ← hlength]
      exact two_digits_lt hi' hj
    rw [(hsub i c hi).2.toList, hleft.toList, List.getElem?_map, List.getElem?_map, List.getElem?_range' hj,
      List.getElem?_range' hlt, Nat.one_mul, Nat.one_mul, Nat.add_assoc]

/-- The last 64 addresses under a mask of 60 bits, shared out to the four blocks of 64 bits at the top. -/
theorem subnets_share_out_top :
    ∃ b : Block .v6, b.prefixLength = 62 ∧ b.hostMask.length = 60 ∧ b.broadcast = .ones ∧
      ∃ s blocks, (b.subnets 64).outcome = .ok s ∧ s.Yields blocks ∧ blocks.length = 4 ∧
        (∀ c ∈ blocks, c.count = 16) ∧ (b.list 0 0).Yields (blocks.flatMap fun c => (c.list 0 0).toList) := by
  obtain ⟨b, hq, hm, htop, hfits, hcount⟩ : ∃ b : Block .v6, b.prefixLength = 62 ∧ b.hostMask.length = 60 ∧
      b.broadcast = .ones ∧ b.hostMask.Fits 64 ∧ b.count = 64 := by
    refine ⟨⟨.ofNat .v6 0xfffffffffffffffc0000000000000000, 62, ⟨60, by decide⟩, by decide, by decide +kernel, ?_⟩,
      rfl, rfl, ?_, ?_, ?_⟩ <;> decide +kernel
  have hpart : ¬ (b.prefixLength = 0 ∧ b.hostMask = .empty) := fun h => by omega
  obtain ⟨s, -, hok, -⟩ := exists_subnets (p := 64) (by omega) (by decide) hfits
  obtain ⟨blocks, share, hyields, hlength, hshare, htotal, hlist, -⟩ := subnets_share_out b hpart hok
  rw [hq] at hlength htotal
  obtain rfl : share = 16 := by omega
  exact ⟨b, hq, hm, htop, s, blocks, hok, hyields, hlength, fun c hc => (hshare c hc).1, hlist⟩

end Block

end IpSpace
