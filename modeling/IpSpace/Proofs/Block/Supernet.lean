import IpSpace.Block.Navigation
import IpSpace.Proofs.Block.Pool

/-!
# The block around a block

A host mask that goes with a prefix goes with every shorter one, so a block has a supernet of every prefix up to its own
(`exists_supernet`). Blocks of one prefix and mask do not overlap, so it is the only one of its kind around the block, and
`supernet_ok_iff` tells it by that: to be a supernet is to have the prefix, to have the mask and to enclose the block.
What is said of supernets of supernets and of sub-blocks follows from there (`supernet_only_encloser`).
-/
namespace IpSpace

variable {f : Family}

theorem HostMask.Fits.mono {m : HostMask f} {p q : Nat} (h : m.Fits p) (hq : q ≤ p) : m.Fits q := by
  intro b hb
  obtain ⟨hsum, hvalue, hindex⟩ := h b hb
  exact ⟨by omega, hvalue.imp_right hq.trans, hindex⟩

namespace Block

variable {b c d : Block f} {p q : Nat}

theorem exists_supernet (b : Block f) (hp : p ≤ b.prefixLength) :
    ∃ c, (b.supernet p).outcome = .ok c ∧ c.prefixLength = p ∧ c.hostMask = b.hostMask ∧ c.Encloses b := by
  obtain ⟨c, hc, hbase, hcp, hcm⟩ :=
    exists_ofMask_eq b.base (hp.trans b.prefixLength_le) (b.hostMask_fits.mono hp)
  refine ⟨c, ?_, hcp, hcm, hcp.trans_le hp, ?_⟩
  · rw [supernet, if_neg (Nat.not_lt.2 hp), moved, hc]
    rfl
  · rw [Contains, hcp]
    exact hbase.symm

theorem supernet_refused_iff : (b.supernet p).outcome = .error .badMaskLength ↔ b.prefixLength < p := by
  constructor
  · intro hout
    by_contra hp
    obtain ⟨c, hc, -⟩ := b.exists_supernet (Nat.le_of_not_lt hp)
    rw [hout] at hc
    cases hc
  · intro hp
    rw [supernet, if_pos hp]
    rfl

/-- Blocks of one prefix length and one host mask around a common block are the same. -/
theorem eq_of_encloses (hp : c.prefixLength = d.prefixLength) (hm : c.hostMask = d.hostMask) (hc : c.Encloses b)
    (hd : d.Encloses b) : c = d :=
  eq_of_contains_base hp hm (encloses_of_common hp.le hc.2 hd.2).2

theorem supernet_ok_iff :
    (b.supernet p).outcome = .ok c ↔ c.prefixLength = p ∧ c.hostMask = b.hostMask ∧ c.Encloses b := by
  constructor
  · intro h
    have hp : ¬ b.prefixLength < p := by
      rw [← supernet_refused_iff, h]
      exact fun hout => by cases hout
    obtain ⟨d, hd, hkind⟩ := b.exists_supernet (Nat.le_of_not_lt hp)
    rw [h, Except.ok.injEq] at hd
    exact hd ▸ hkind
  · rintro ⟨rfl, hm, hc⟩
    obtain ⟨d, hd, hdp, hdm, hdb⟩ := b.exists_supernet hc.1
    rwa [eq_of_encloses hdp (hdm.trans hm.symm) hdb hc] at hd

/-- The way to a shorter prefix may pass through one between. -/
theorem supernet_supernet (h : (b.supernet p).outcome = .ok c) (hq : q ≤ p) :
    (c.supernet q).outcome = (b.supernet q).outcome := by
  obtain ⟨hcp, hcm, hcb⟩ := supernet_ok_iff.1 h
  obtain ⟨d, hd, hdp, hdm, hdb⟩ := b.exists_supernet (hq.trans (hcp ▸ hcb.1))
  have hdc : d.Encloses c := encloses_of_common (by omega) hdb.2 hcb.2
  rw [hd, supernet_ok_iff]
  exact ⟨hdp, hdm.trans hcm.symm, hdc⟩

/-- A block has a supernet of each prefix that is no longer than its own. It keeps the host mask, and no other block with
that prefix and mask encloses the block. A supernet of the supernet is one of the block, and every sub-block has the block
as its supernet. -/
theorem supernet_only_encloser (b : Block f) :
    (∀ p, (b.supernet p).outcome = .error .badMaskLength ↔ b.prefixLength < p) ∧
    (∀ p ≤ b.prefixLength, ∃ c, (b.supernet p).outcome = .ok c ∧ c.prefixLength = p ∧ c.hostMask = b.hostMask ∧
      c.Encloses b ∧ (∀ d : Block f, d.prefixLength = p → d.hostMask = b.hostMask → d.Encloses b → d = c) ∧
      ∀ q ≤ p, (c.supernet q).outcome = (b.supernet q).outcome) ∧
    ∀ p s, (b.subnets p).outcome = .ok s → ∃ blocks, s.Yields blocks ∧ blocks.length = 2 ^ (p - b.prefixLength) ∧
      ∀ c ∈ blocks, (c.supernet b.prefixLength).outcome = .ok b := by
  refine ⟨fun p => supernet_refused_iff, fun p hp => ?_, fun p s hs => ?_⟩
  · obtain ⟨c, hc, hcp, hcm, hcb⟩ := b.exists_supernet hp
    refine ⟨c, hc, hcp, hcm, hcb, fun d hdp hdm hdb => ?_, fun q hq => supernet_supernet hc hq⟩
    exact eq_of_encloses (hdp.trans hcp.symm) (hdm.trans hcm.symm) hdb hcb
  · obtain ⟨hq, hp, blocks, hyields, htiles⟩ := subnets_ok hs
    refine ⟨blocks, hyields, htiles.length_eq hq hp, fun c hc => ?_⟩
    obtain ⟨hcp, hcm⟩ := htiles.kind c hc
    have hbc : b.Encloses c := encloses_iff_between.2 ((htiles.mem_iff hcp hcm).1 hc)
    exact supernet_ok_iff.2 ⟨rfl, hcm.symm, hbc⟩

end Block

end IpSpace
