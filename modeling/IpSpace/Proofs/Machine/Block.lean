import IpSpace.Proofs.Block.Ends
import IpSpace.Proofs.Machine.HostMask

/-!
# Blocks with checked operations

Here a block is its fields, the host mask being its bytes (`Layout`), and the two families go their own ways: IPv4 blocks
reserve their ends and count words of 32 bits, IPv6 ones look where their mask begins and count words of 128 bits. The
differences in `freeBits` and the shifts in `count` have no guard of their own: they rest on what a block was checked for
when it was built.
-/
namespace IpSpace

variable {f : Family}

/-- What a block is kept as. Models `Net4`, where `mask` is zero, and `Net6`. -/
structure Machine.Layout (f : Family) where
  base : Address f
  prefixLength : Nat
  mask : List UInt8
deriving DecidableEq

namespace Block

def layout (b : Block f) : Machine.Layout f := ⟨b.base, b.prefixLength, b.hostMask.octets⟩

@[simp] theorem layout_base (b : Block f) : b.layout.base = b.base := rfl

@[simp] theorem layout_prefixLength (b : Block f) : b.layout.prefixLength = b.prefixLength := rfl

@[simp] theorem layout_mask (b : Block f) : b.layout.mask = b.hostMask.octets := rfl

end Block

namespace Machine

/-! ## Building -/

/-- Whether the mask goes with a prefix of `prefixLength` bits. Models the check of the host mask in `Net6.new`. -/
def fits (f : Family) (mask : List UInt8) (prefixLength maskLength : Nat) : Checked Bool := do
  match ← boundary? f mask with
  | none => return true
  | some b =>
    let taken ← Checked.add 16 prefixLength maskLength
    let split ← if b.value = 0xff then pure false else do pure (decide ((← Checked.mul 64 8 b.index) < prefixLength))
    return taken < f.bits && !split && b.index.val != 0

/-- The block of `prefixLength` bits around `a`, with no mask. Models `Net4.new`. -/
def plain (a : Address f) (prefixLength : Nat) : Trial (Layout f) := do
  if f.bits < prefixLength then throw .badMaskLength
  else return ⟨← clearAfter a prefixLength, prefixLength, List.replicate f.bytes 0⟩

/-- The block of `prefixLength` bits around `a`, with a mask of `maskLength` bits. Models `Net6.new`. -/
def masked (a : Address f) (prefixLength maskLength : Nat) : Trial (Layout f) := do
  if f.bits < prefixLength then throw .badMaskLength
  else
    let mask ← newMask f maskLength
    if ← fits f mask prefixLength maskLength then return ⟨← clearAfter a prefixLength, prefixLength, mask⟩
    else throw .badMaskLength

/-- The block of `prefixLength` bits around an address, with no mask. Models `Block.containing`. -/
def containing : {f : Family} → Address f → Nat → Trial (Layout f)
  | .v4, a, prefixLength => plain a prefixLength
  | .v6, a, prefixLength => masked a prefixLength 0

/-- The block of `prefixLength` bits around an address, with the mask of another block. Models `Block.new_at`. -/
def moved : {f : Family} → Layout f → Address f → Nat → Trial (Layout f)
  | .v4, _, a, prefixLength => plain a prefixLength
  | .v6, b, a, prefixLength => do masked a prefixLength (← maskSize b.mask)

theorem fits_eq (m : HostMask f) {n : Nat} (h : n ≤ f.bits) : fits f m.octets n m.length = .ok (decide (m.Fits n)) := by
  rw [fits, boundary?_eq, Checked.ok_bind]
  cases hb : m.boundary? with
  | none => simp [HostMask.Fits, hb]
  | some b =>
    have hlen := Nat.le_trans m.length_le f.longestHostMask_le_bits
    have hi := b.index.isLt
    have hbytes := f.bytes_le
    have hbits : f.bits = 8 * f.bytes := rfl
    have hmodel : m.Fits n ↔
        n + m.length < f.bits ∧ (b.value = 0xff ∨ n ≤ 8 * b.index) ∧ b.index.val ≠ 0 := by
      simp [HostMask.Fits, hb]
    simp only [Checked.add_ok (show n + m.length < 2 ^ 16 by omega),
      Checked.mul_ok (show 8 * b.index.val < 2 ^ 64 by omega), Checked.ok_bind, hmodel]
    split
    · rename_i hwhole
      refine congrArg Except.ok (Bool.eq_iff_iff.2 ?_)
      simp [hwhole]
    · rename_i hpart
      refine congrArg Except.ok (Bool.eq_iff_iff.2 ?_)
      simp [hpart, and_assoc]

theorem plain_eq (a : Address f) (n : Nat) :
    (plain a n).run = .ok ((Block.ofMask a n .empty).outcome.map Block.layout) := by
  unfold plain
  split
  · rename_i hlong
    rw [Block.ofMask_refused a fun h => absurd h.1 (Nat.not_le.2 hlong)]; rfl
  · rename_i hshort
    obtain ⟨b, hb, hbase, hlen, hmask⟩ := Block.exists_ofMask_eq a (Nat.not_lt.1 hshort) (HostMask.empty_fits f n)
    have hoctets : b.hostMask.octets = List.replicate f.bytes 0 := by
      rw [hmask]; exact HostMask.octets_of_boundary?_none rfl
    rw [clearAfter_eq, Trial.lift_ok_bind, Trial.run_pure, hb, Attempt.outcome_pure, ← hbase, ← hoctets, ← hlen]
    rfl

theorem masked_length (a : Address f) (n : Nat) (m : HostMask f) :
    (masked a n m.length).run = .ok ((Block.ofMask a n m).outcome.map Block.layout) := by
  unfold masked
  split
  · rename_i hlong
    rw [Block.ofMask_refused a fun h => absurd h.1 (Nat.not_le.2 hlong)]; rfl
  · rename_i hshort
    have hmask : (newMask f m.length).run = .ok (.ok m.octets) := by
      rw [newMask_eq, HostMask.of, dif_pos m.length_le]; rfl
    rw [Trial.run_bind_ok hmask, fits_eq m (Nat.not_lt.1 hshort), Trial.lift_ok_bind]
    by_cases hm : m.Fits n
    · obtain ⟨b, hb, hbase, hlen, hkept⟩ := Block.exists_ofMask_eq a (Nat.not_lt.1 hshort) hm
      rw [clearAfter_eq, Trial.lift_ok_bind, decide_eq_true hm, if_pos rfl, Trial.run_pure, hb, Attempt.outcome_pure,
        ← hbase, ← hkept, ← hlen]
      rfl
    · rw [decide_eq_false hm, if_neg (by decide), Block.ofMask_refused a fun h => hm h.2]; rfl

theorem masked_eq (a : Address f) (n k : Nat) : (masked a n k).run = .ok ((Block.of a n k).outcome.map Block.layout) := by
  rw [Block.of, HostMask.of]
  split
  · rename_i hk
    exact masked_length a n ⟨k, hk⟩
  · rename_i hk
    unfold masked
    split
    · rfl
    · have hmask : (newMask f k).run = .ok (.error .badMaskLength) := by rw [newMask_eq, HostMask.of, dif_neg hk]; rfl
      exact Trial.run_bind_error hmask _

theorem containing_eq (a : Address f) (n : Nat) :
    (containing a n).run = .ok ((Block.containing a n).outcome.map Block.layout) := by
  cases f with
  | v4 => exact plain_eq a n
  | v6 => exact masked_length a n .empty

theorem moved_eq (b : Block f) (a : Address f) (n : Nat) :
    (moved b.layout a n).run = .ok ((b.moved a n).outcome.map Block.layout) := by
  cases f with
  | v4 =>
    rw [Block.moved, show b.hostMask = .empty from HostMask.ext b.hostMask.length_v4]
    exact plain_eq a n
  | v6 =>
    rw [moved, Block.layout_mask, maskSize_eq, Trial.lift_ok_bind]
    exact masked_length a n b.hostMask

/-! ## Bounds -/

/-- The address whose first `prefixLength` bits are set. Models `Net4.netmask` and `Net6.netmask`. -/
def netmask (b : Layout f) : Checked (Address f) := clearAfter .ones b.prefixLength

/-- The address whose first `prefixLength` bits are clear and all others set. Models `Net4.wildcard`. -/
def wildcard (b : Layout f) : Checked (Address f) := setAfter .zero b.prefixLength

/-- The highest address under the prefix. Models `Block.broadcast_address`. -/
def broadcast (b : Layout f) : Checked (Address f) := setAfter b.base b.prefixLength

/-- Whether the ends of an IPv4 block are reserved. Models `Net4.has_reserved`. -/
def reservesEnds (b : Layout .v4) : Checked Bool := do return 1 < (← Checked.sub Family.v4.bits b.prefixLength)

/-- The number of bits that neither the prefix nor the mask takes. Models `Net6.free_bits`. -/
def freeBits (b : Layout f) : Checked Nat := do Checked.sub (← Checked.sub f.bits b.prefixLength) (← maskSize b.mask)

/-- The first address in use. Models `Block.first_address`. -/
def first : {f : Family} → Layout f → Checked (Address f)
  | .v4, b => do if ← reservesEnds b then return b.base.next?.getD b.base else return b.base
  | .v6, b => return b.base

/-- The last address in use. Models `Block.last_address`. -/
def last : {f : Family} → Layout f → Checked (Address f)
  | .v4, b => do
    let limit ← broadcast b
    if ← reservesEnds b then return limit.previous?.getD limit else return limit
  | .v6, b => do
    let limit ← broadcast b
    match ← boundary? .v6 b.mask with
    | none => return limit
    | some m => assemble (← Checked.take limit.octets m.index) (← largest m)

theorem netmask_eq (b : Block f) : netmask b.layout = .ok b.netmask := clearAfter_eq _ _

theorem wildcard_eq (b : Block f) : wildcard b.layout = .ok b.wildcard := setAfter_eq _ _

theorem broadcast_eq (b : Block f) : broadcast b.layout = .ok b.broadcast := setAfter_eq _ _

theorem freeBits_eq (b : Block f) : freeBits b.layout = .ok b.freeBits := by
  have hroom : b.hostMask.length ≤ f.bits - b.prefixLength := by
    cases hb : b.hostMask.boundary? with
    | none => rw [HostMask.boundary?_eq_none_iff.1 hb]; exact Nat.zero_le _
    | some m => have := (b.hostMask_fits m hb).1; omega
  rw [freeBits, Block.layout_prefixLength, Checked.sub_ok b.prefixLength_le, Checked.ok_bind, Block.layout_mask,
    maskSize_eq, Checked.ok_bind, Checked.sub_ok hroom]
  rfl

/-- A prefix and a mask that overlap would leave less than no bits; no block has them. -/
example : freeBits (⟨.zero, 64, List.replicate 16 0xff⟩ : Layout .v6) = .error .underflow := rfl

theorem reservesEnds_eq (b : Block .v4) : reservesEnds b.layout = .ok (decide b.ReservesEnds) := by
  have hfree : Family.v4.bits - b.prefixLength = b.freeBits := by rw [Block.freeBits, b.hostMask.length_v4]; rfl
  have hends : b.ReservesEnds ↔ 1 < b.freeBits := and_iff_right rfl
  simp only [reservesEnds, Block.layout_prefixLength, Checked.sub_ok b.prefixLength_le, Checked.ok_bind, hfree, hends,
    Checked.pure_eq]

theorem first_eq (b : Block f) : first b.layout = .ok b.first := by
  cases f with
  | v4 =>
    rw [first, reservesEnds_eq, Checked.ok_bind, Block.first]
    by_cases h : b.ReservesEnds <;> simp [h]
  | v6 => rw [Block.first, if_neg fun h => by cases h.1]; rfl

theorem last_eq (b : Block f) : last b.layout = .ok b.last := by
  cases f with
  | v4 =>
    have hnone : b.hostMask.boundary? = none := HostMask.boundary?_eq_none_iff.2 b.hostMask.length_v4
    rw [last, broadcast_eq, Checked.ok_bind, reservesEnds_eq, Checked.ok_bind, Block.last]
    by_cases h : b.ReservesEnds <;> simp [h, hnone]
  | v6 =>
    rw [last, broadcast_eq, Checked.ok_bind, Block.layout_mask, boundary?_eq, Checked.ok_bind, Block.last,
      if_neg fun h => by cases h.1]
    cases b.hostMask.boundary? with
    | none => rfl
    | some m =>
      have hi := Nat.le_of_lt (b.broadcast.lt_length_octets m.index)
      simp only [Checked.take_ok hi, largest_eq, Checked.ok_bind]
      exact assemble_eq (by rw [b.broadcast.length_take]; exact m.index.isLt) m.max

/-! ## Membership -/

/-- Whether the address has the prefix of the block. Models `Block.contains`. -/
def contains (b : Layout f) (a : Address f) : Checked Bool := do return (← clearAfter a b.prefixLength) = b.base

/-- Whether the address is in the block and leaves the bits of the mask clear. Models `Net6.controls`. -/
def controls : {f : Family} → Layout f → Address f → Checked Bool
  | .v4, b, a => contains b a
  | .v6, b, a => do if ← contains b a then permits b.mask a else return false

/-- Whether the other block lies inside this one. Models `Block.contains_net`. -/
def encloses (b c : Layout f) : Checked Bool :=
  if b.prefixLength ≤ c.prefixLength then contains b c.base else return false

theorem contains_eq (b : Block f) (a : Address f) : contains b.layout a = .ok (decide (b.Contains a)) := by
  rw [contains, clearAfter_eq]; rfl

theorem controls_eq (b : Block f) (a : Address f) : controls b.layout a = .ok (decide (b.Controls a)) := by
  cases f with
  | v4 =>
    have hfree : b.hostMask.Permits a :=
      HostMask.permits_of_boundary?_none (HostMask.boundary?_eq_none_iff.2 b.hostMask.length_v4) a
    have hmodel : b.Controls a ↔ b.Contains a := and_iff_left hfree
    simp only [controls, contains_eq, hmodel]
  | v6 =>
    rw [controls, contains_eq, Checked.ok_bind, Block.layout_mask, permits_eq]
    by_cases h : b.Contains a <;> simp [h, Block.Controls]

theorem encloses_eq (b c : Block f) : encloses b.layout c.layout = .ok (decide (b.Encloses c)) := by
  rw [encloses, Block.layout_base, contains_eq]
  by_cases h : b.prefixLength ≤ c.prefixLength <;> simp [h, Block.Encloses]

/-! ## The count -/

/-- The number of addresses in use. Models `Block.count`. -/
def count : {f : Family} → Layout f → Checked Nat
  | .v4, b => do
    let bits ← Checked.sub Family.v4.bits b.prefixLength
    if bits = 0 then return 1
    else if bits = 1 then return 2
    else Checked.sub (← Checked.shiftRight 32 0xffffffff (← Checked.sub Family.v4.bits bits)) 1
  | .v6, b => do
    let bits ← freeBits b
    if bits = 0 then return 1
    else if bits = Family.v6.bits then return Word.max
    else Checked.shiftLeft Word.bits 1 bits

/-- Shifting the largest word of 32 bits leaves the largest one of `bits` bits. -/
theorem shiftRight_ones {bits : Nat} (h : bits ≤ 32) (hpos : 0 < bits) :
    Checked.shiftRight 32 0xffffffff (32 - bits) = .ok (2 ^ bits - 1) := by
  have hvalue : ∀ k : Fin 33, 0xffffffff / 2 ^ (32 - k.val) = 2 ^ k.val - 1 := by decide
  rw [Checked.shiftRight_ok (by omega), hvalue ⟨bits, by omega⟩]

theorem count_eq (b : Block f) : count b.layout = .ok b.count := by
  have hle : b.freeBits ≤ f.bits := Nat.le_trans (Nat.sub_le _ _) (Nat.sub_le _ _)
  have hpow : 2 ^ b.freeBits ≤ 2 ^ f.bits := Nat.pow_le_pow_right (by decide) hle
  cases f with
  | v4 =>
    have hfree : Checked.sub Family.v4.bits b.prefixLength = .ok b.freeBits := by
      rw [Block.freeBits, b.hostMask.length_v4]; exact Checked.sub_ok b.prefixLength_le
    have hends : b.ReservesEnds ↔ 1 < b.freeBits := and_iff_right rfl
    have hbits : Family.v4.bits = 32 := rfl
    simp only [count, Block.layout_prefixLength, hfree, Checked.ok_bind, Block.count, hends]
    generalize b.freeBits = bits at *
    split
    · rename_i hzero
      subst hzero; rfl
    · split
      · rename_i hone
        subst hone; rfl
      · have hbig : 1 < bits := by omega
        have hfour : 2 ^ 2 ≤ 2 ^ bits := Nat.pow_le_pow_right (by decide) hbig
        rw [hbits] at hle hpow ⊢
        rw [Checked.sub_ok hle, Checked.ok_bind, shiftRight_ones hle (by omega), Checked.ok_bind,
          Checked.sub_ok (by omega), if_pos hbig, Nat.sub_sub, Nat.min_eq_left (by omega)]
  | v6 =>
    have hends : ¬ b.ReservesEnds := fun h => by cases h.1
    simp only [count, freeBits_eq, Checked.ok_bind, Block.count, if_neg hends, Nat.sub_zero]
    generalize b.freeBits = bits at *
    split
    · rename_i hzero
      subst hzero; rfl
    · split
      · rename_i hall
        subst hall; rfl
      · rename_i hall
        have hlt : bits < Word.bits := Nat.lt_of_le_of_ne hle hall
        have hword : 2 ^ bits < 2 ^ Word.bits := Nat.pow_lt_pow_right (by decide) hlt
        have hfits : 2 ^ bits ≤ 2 ^ Family.v6.bits - 1 := Nat.le_sub_one_of_lt hword
        rw [Checked.shiftLeft_ok hlt (by rwa [Nat.one_mul]), Nat.one_mul, Nat.min_eq_left hfits]

end Machine

/-! ## Blocks of either family -/

/-- What a block of either family is kept as. Models `Net`. -/
abbrev Machine.AnyLayout := (f : Family) × Machine.Layout f

def AnyBlock.layout (b : AnyBlock) : Machine.AnyLayout := ⟨b.family, b.block.layout⟩

namespace Machine

/-- Whether the address is in the block, which takes one family. Models `Net.contains`. -/
def containsAny : AnyLayout → AnyAddress → Checked Bool
  | ⟨.v4, b⟩, ⟨.v4, a⟩ => contains b a
  | ⟨.v6, b⟩, ⟨.v6, a⟩ => contains b a
  | _, _ => return false

/-- Whether the other block lies inside this one. Models `Net.contains_net`. -/
def enclosesAny : AnyLayout → AnyLayout → Checked Bool
  | ⟨.v4, b⟩, ⟨.v4, c⟩ => encloses b c
  | ⟨.v6, b⟩, ⟨.v6, c⟩ => encloses b c
  | _, _ => return false

theorem containsAny_eq (b : AnyBlock) (a : AnyAddress) : containsAny b.layout a = .ok (decide (b.Contains a)) := by
  obtain ⟨f, b⟩ := b
  obtain ⟨g, a⟩ := a
  cases f <;> cases g
  · exact contains_eq b a
  · rfl
  · rfl
  · exact contains_eq b a

theorem enclosesAny_eq (b c : AnyBlock) : enclosesAny b.layout c.layout = .ok (decide (b.Encloses c)) := by
  obtain ⟨f, b⟩ := b
  obtain ⟨g, c⟩ := c
  cases f <;> cases g
  · exact encloses_eq b c
  · rfl
  · rfl
  · exact encloses_eq b c

end Machine

end IpSpace
