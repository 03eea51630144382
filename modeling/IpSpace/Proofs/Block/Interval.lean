import IpSpace.Block.Any
import IpSpace.Proofs.Address.Rounding

/-!
# Blocks as intervals

A block holds `Block.size` addresses, a power of two, and begins at a multiple of its size (`size_dvd_base`); it is the
interval from its base to its broadcast address (`contains_iff_between`). Two blocks that have an address in common are
nested, the one with the shorter prefix outside (`encloses_of_common`), and nesting is inclusion of the intervals
(`encloses_iff_between`). `aligned_interval` says what a block is: the only one of its prefix and host mask around each of
its addresses.
-/
namespace IpSpace

theorem HostMask.empty_fits (f : Family) (prefixLength : Nat) :
    (HostMask.empty : HostMask f).Fits prefixLength := by
  intro b hb; simp [boundary?, empty] at hb

namespace Block

variable {f : Family}

/-! ## Bounds -/

/-- The number of addresses under the prefix of the block. -/
def size (b : Block f) : Nat := f.span b.prefixLength

theorem size_pos (b : Block f) : 0 < b.size := f.span_pos _

theorem size_le_size_iff {b c : Block f} : c.size ≤ b.size ↔ b.prefixLength ≤ c.prefixLength := by
  have hb := b.prefixLength_le
  have hc := c.prefixLength_le
  rw [size, size, Family.span, Family.span, Nat.pow_le_pow_iff_right (by decide)]; omega

theorem size_dvd_size {b c : Block f} (h : b.prefixLength ≤ c.prefixLength) : c.size ∣ b.size :=
  f.span_dvd h

/-- The base begins a stretch of addresses that share the prefix. -/
theorem base_toNat (b : Block f) : b.base.toNat / b.size * b.size = b.base.toNat := by
  have h := congrArg Address.toNat b.base_aligned
  rwa [Address.toNat_clearAfter] at h

theorem size_dvd_base (b : Block f) : b.size ∣ b.base.toNat := ⟨_, by rw [Nat.mul_comm, b.base_toNat]⟩

theorem toNat_broadcast (b : Block f) : b.broadcast.toNat = b.base.toNat + (b.size - 1) := by
  have h := Address.toNat_setAfter b.base b.prefixLength
  rwa [← size, b.base_toNat] at h

theorem toNat_broadcast_succ (b : Block f) : b.broadcast.toNat + 1 = b.base.toNat + b.size := by
  have hpos := b.size_pos
  rw [toNat_broadcast]; omega

theorem base_le_broadcast (b : Block f) : b.base ≤ b.broadcast := by
  rw [Address.le_iff_toNat_le, toNat_broadcast]; omega

/-! ## Membership -/

theorem contains_iff_div {b : Block f} {a : Address f} :
    b.Contains a ↔ a.toNat / b.size = b.base.toNat / b.size := by
  rw [size, ← Address.clearAfter_eq_iff, b.base_aligned]; exact Iff.rfl

theorem contains_iff_between {b : Block f} {a : Address f} : b.Contains a ↔ b.base ≤ a ∧ a ≤ b.broadcast := by
  have hpos := b.size_pos
  have hbase := b.base_toNat
  rw [contains_iff_div, Address.le_iff_toNat_le, Address.le_iff_toNat_le, toNat_broadcast,
    Nat.div_eq_iff hpos, hbase]
  omega

theorem contains_base (b : Block f) : b.Contains b.base := b.base_aligned

theorem contains_broadcast (b : Block f) : b.Contains b.broadcast :=
  contains_iff_between.2 ⟨b.base_le_broadcast, le_rfl⟩

theorem contains_of_prefixLength_eq_zero {b : Block f} (h : b.prefixLength = 0) (a : Address f) : b.Contains a := by
  have hsize : b.size = 2 ^ f.bits := by rw [size, h]; rfl
  rw [contains_iff_div, hsize, Nat.div_eq_of_lt a.toNat_lt, Nat.div_eq_of_lt b.base.toNat_lt]

/-! ## Nesting -/

theorem Encloses.contains {b c : Block f} (h : b.Encloses c) {a : Address f} (ha : c.Contains a) :
    b.Contains a := by
  obtain ⟨k, hk⟩ := size_dvd_size h.1
  have hc := contains_iff_div.1 h.2
  rw [contains_iff_div] at ha ⊢
  rw [hk, ← Nat.div_div_eq_div_mul] at hc ⊢
  rw [ha, hc]

/-- Blocks with an address in common are nested. -/
theorem encloses_of_common {b c : Block f} (h : b.prefixLength ≤ c.prefixLength) {a : Address f}
    (hb : b.Contains a) (hc : c.Contains a) : b.Encloses c := by
  refine ⟨h, ?_⟩
  obtain ⟨k, hk⟩ := size_dvd_size h
  rw [contains_iff_div] at hb hc ⊢
  rw [hk, ← Nat.div_div_eq_div_mul] at hb ⊢
  rw [← hc, hb]

theorem encloses_iff_between {b c : Block f} :
    b.Encloses c ↔ b.base ≤ c.base ∧ c.broadcast ≤ b.broadcast := by
  constructor
  · intro h
    exact ⟨(contains_iff_between.1 h.2).1, (contains_iff_between.1 (h.contains c.contains_broadcast)).2⟩
  · intro ⟨h1, h2⟩
    refine ⟨?_, contains_iff_between.2 ⟨h1, c.base_le_broadcast.trans h2⟩⟩
    rw [Address.le_iff_toNat_le] at h1 h2
    rw [toNat_broadcast, toNat_broadcast] at h2
    have := b.size_pos
    exact size_le_size_iff.1 (by omega)

/-- Blocks of one prefix length and one host mask do not overlap. -/
theorem eq_of_contains_base {b c : Block f} (hp : b.prefixLength = c.prefixLength) (hm : b.hostMask = c.hostMask)
    (h : b.Contains c.base) : b = c := by
  have hbase : c.base.clearAfter b.prefixLength = b.base := h
  rw [hp, c.base_aligned] at hbase
  exact Block.ext hbase.symm hp hm

/-! ## Building -/

/-- A prefix and a host mask that go together make a block around any address. -/
theorem exists_ofMask_eq (a : Address f) {p : Nat} {m : HostMask f} (hp : p ≤ f.bits) (hm : m.Fits p) :
    ∃ b, ofMask a p m = pure b ∧ b.base = a.clearAfter p ∧ b.prefixLength = p ∧ b.hostMask = m := by
  rw [ofMask, dif_pos hp, dif_pos hm]
  exact ⟨_, rfl, rfl, rfl, rfl⟩

theorem ofMask_refused (a : Address f) {p : Nat} {m : HostMask f} (h : ¬ (p ≤ f.bits ∧ m.Fits p)) :
    (ofMask a p m).outcome = .error .badMaskLength := by
  unfold ofMask
  split
  · rename_i hp
    rw [dif_neg fun hm => h ⟨hp, hm⟩]
    rfl
  · rfl

/-- Where building succeeds it gives the block that was asked for. -/
theorem ofMask_ok {a : Address f} {p : Nat} {m : HostMask f} {b : Block f} (h : (ofMask a p m).outcome = .ok b) :
    b.base = a.clearAfter p ∧ b.prefixLength = p ∧ b.hostMask = m := by
  by_cases hgo : p ≤ f.bits ∧ m.Fits p
  · obtain ⟨c, hc, hkind⟩ := exists_ofMask_eq a hgo.1 hgo.2
    rw [hc, Attempt.outcome_pure, Except.ok.injEq] at h
    exact h ▸ hkind
  · rw [ofMask_refused a hgo] at h
    cases h

theorem of_length_eq (a : Address f) (p : Nat) (m : HostMask f) : of a p m.length = ofMask a p m := by
  rw [of, HostMask.of, dif_pos m.length_le]
  rfl

theorem of_ok {a : Address f} {p n : Nat} {b : Block f} (h : (of a p n).outcome = .ok b) : b.hostMask.length = n := by
  by_cases hn : n ≤ f.longestHostMask
  · have hof : of a p n = ofMask a p ⟨n, hn⟩ := of_length_eq a p ⟨n, hn⟩
    rw [hof] at h
    rw [(ofMask_ok h).2.2]
  · have hof : (of a p n).outcome = .error .badMaskLength := by
      rw [of, HostMask.of, dif_neg hn]
      rfl
    rw [hof] at h
    cases h

theorem of_refused_iff (a : Address f) (p : Nat) (m : HostMask f) :
    (of a p m.length).outcome = .error .badMaskLength ↔ ¬ (p ≤ f.bits ∧ m.Fits p) := by
  rw [of_length_eq]
  constructor
  · intro hout ⟨hp, hm⟩
    obtain ⟨b, hb, -⟩ := exists_ofMask_eq a hp hm
    rw [hb] at hout
    cases hout
  · exact ofMask_refused a

/-- The block of `prefixLength` bits around an address, without a host mask. -/
def around (a : Address f) (prefixLength : Nat) (h : prefixLength ≤ f.bits) : Block f where
  base := a.clearAfter prefixLength
  prefixLength
  hostMask := .empty
  prefixLength_le := h
  base_aligned := a.clearAfter_clearAfter prefixLength
  hostMask_fits := HostMask.empty_fits f prefixLength

@[simp] theorem base_around (a : Address f) (prefixLength : Nat) (h : prefixLength ≤ f.bits) :
    (around a prefixLength h).base = a.clearAfter prefixLength := rfl

theorem containing_eq (a : Address f) (prefixLength : Nat) (h : prefixLength ≤ f.bits) :
    containing a prefixLength = pure (around a prefixLength h) := by
  rw [containing, ofMask, dif_pos h, dif_pos (HostMask.empty_fits f prefixLength)]
  rfl

theorem contains_around (a : Address f) (prefixLength : Nat) (h : prefixLength ≤ f.bits) :
    (around a prefixLength h).Contains a := rfl

/-- With all bits in the prefix the address is alone in its block. -/
theorem base_around_bits (a : Address f) : (around a f.bits (Nat.le_refl _)).base = a := a.clearAfter_bits

theorem broadcast_around_bits (a : Address f) : (around a f.bits (Nat.le_refl _)).broadcast = a := by
  rw [broadcast, base_around_bits]
  exact a.setAfter_bits

theorem base_around_base (b : Block f) : (around b.base b.prefixLength b.prefixLength_le).base = b.base := b.base_aligned

theorem broadcast_around_base (b : Block f) :
    (around b.base b.prefixLength b.prefixLength_le).broadcast = b.broadcast := by
  rw [broadcast, base_around_base]; rfl

theorem base_around_of_dvd {a : Address f} {p : Nat} (hp : p ≤ f.bits) (h : f.span p ∣ a.toNat) :
    (around a p hp).base = a := Address.clearAfter_eq_self h

theorem broadcast_around_le_iff {a last : Address f} {p : Nat} (hp : p ≤ f.bits) (h : f.span p ∣ a.toNat) :
    (around a p hp).broadcast ≤ last ↔ a.toNat + f.span p ≤ last.toNat + 1 := by
  have hend := (around a p hp).toNat_broadcast_succ
  rw [base_around_of_dvd hp h] at hend
  rw [Address.le_iff_toNat_le, ← Nat.succ_le_succ_iff, Nat.succ_eq_add_one, hend]
  rfl

/-- The addresses of a block are those from a multiple of its size to the last before the next multiple, and around each
address of the family there is exactly one block of a prefix and a host mask that go together. -/
theorem aligned_interval (b : Block f) :
    (∀ a, b.Contains a ↔ b.base ≤ a ∧ a ≤ b.broadcast) ∧
    2 ^ (f.bits - b.prefixLength) ∣ b.base.toNat ∧
    b.broadcast.toNat = b.base.toNat + 2 ^ (f.bits - b.prefixLength) - 1 ∧
    ∀ a : Address f, ∃ c, of a b.prefixLength b.hostMask.length = pure c ∧ b.moved a b.prefixLength = pure c ∧
      ∀ d : Block f, d.prefixLength = b.prefixLength ∧ d.hostMask = b.hostMask ∧ d.Contains a ↔ d = c := by
  have hend := b.toNat_broadcast_succ
  refine ⟨fun a => contains_iff_between, b.size_dvd_base, Nat.eq_sub_of_add_eq hend, fun a => ?_⟩
  obtain ⟨c, hc, hbase, hcp, hcm⟩ := exists_ofMask_eq a b.prefixLength_le b.hostMask_fits
  refine ⟨c, (of_length_eq a _ _).trans hc, hc, fun d => ⟨?_, ?_⟩⟩
  · rintro ⟨hdp, hdm, hda⟩
    have hdbase : a.clearAfter d.prefixLength = d.base := hda
    rw [hdp, ← hbase] at hdbase
    exact Block.ext hdbase.symm (hdp.trans hcp.symm) (hdm.trans hcm.symm)
  · rintro rfl
    refine ⟨hcp, hcm, ?_⟩
    rw [Contains, hcp]
    exact hbase.symm

end Block

/-! ## Either family -/

theorem AnyBlock.contains_mk {f : Family} {b : Block f} {a : Address f} :
    AnyBlock.Contains ⟨f, b⟩ ⟨f, a⟩ ↔ b.Contains a := by
  cases f <;> exact Iff.rfl

theorem AnyBlock.family_eq {b : AnyBlock} {a : AnyAddress} (h : b.Contains a) : b.family = a.family := by
  obtain ⟨f, b⟩ := b
  obtain ⟨g, a⟩ := a
  cases f <;> cases g <;> first | rfl | exact h.elim

end IpSpace
