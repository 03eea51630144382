import IpSpace.Proofs.Range.Largest
import Mathlib.Tactic.Ring

/-!
# The shape of a cover

Along a cover the blocks grow and then shrink. While the start of the rest is what limits them, each is larger than the
one before; once one is not, the end of the range is what limits them, and from then on each is smaller
(`Greedy.turn`). So the prefix lengths are a `Valley`: they fall strictly to a lowest one, which may stand twice, and rise
strictly from it.

A valley within bounds is short (`Valley.length_le`). A block of one bit is half of the address space and stands at an end
of the list (`Tiling.ends_of_half`), so only one slope of the valley is left then (`Valley.length_le_of_end`). The range
from the second address to the last but one has the longest cover (`exists_longest`).
-/
namespace IpSpace

/-- Numbers that fall strictly to a lowest one and rise strictly from it; the lowest one may stand twice. -/
def Valley (ps : List Nat) : Prop :=
  ∃ falling low rising, (falling ++ [low]).Pairwise (· > ·) ∧ (low :: rising).Pairwise (· < ·) ∧
    (ps = falling ++ low :: rising ∨ ps = falling ++ low :: low :: rising)

namespace Valley

variable {p q lo hi : Nat} {ps : List Nat}

theorem rise (h : (p :: ps).Pairwise (· < ·)) : Valley (p :: ps) :=
  ⟨[], p, ps, List.pairwise_singleton _ _, h, .inl rfl⟩

theorem level (h : (p :: ps).Pairwise (· < ·)) : Valley (p :: p :: ps) :=
  ⟨[], p, ps, List.pairwise_singleton _ _, h, .inr rfl⟩

theorem fall (hlt : q < p) (h : Valley (q :: ps)) : Valley (p :: q :: ps) := by
  obtain ⟨falling, low, rising, hfalling, hrising, heq⟩ := h
  refine ⟨p :: falling, low, rising, ?_, hrising, ?_⟩
  · -- `q` is the first of the falling numbers, so the highest of them
    obtain ⟨rest, hrest⟩ : ∃ rest, falling ++ [low] = q :: rest := by
      cases falling with
      | nil => exact ⟨[], by rcases heq with heq | heq <;> simp_all⟩
      | cons x falling => exact ⟨falling ++ [low], by rcases heq with heq | heq <;> simp_all⟩
    rw [List.cons_append, hrest]
    rw [hrest] at hfalling
    refine List.pairwise_cons.2 ⟨List.forall_mem_cons.2 ⟨hlt, fun x hx => ?_⟩, hfalling⟩
    exact Nat.lt_trans ((List.pairwise_cons.1 hfalling).1 x hx) hlt
  · rcases heq with heq | heq
    · exact .inl (by rw [heq, List.cons_append])
    · exact .inr (by rw [heq, List.cons_append])

theorem count_le_two (h : Valley ps) (p : Nat) : ps.count p ≤ 2 := by
  obtain ⟨falling, low, rising, hfalling, hrising, heq⟩ := h
  have hf := List.nodup_iff_count_le_one.1 (hfalling.imp (S := (· ≠ ·)) Nat.ne_of_gt) p
  have hr := List.nodup_iff_count_le_one.1 (hrising.imp (S := (· ≠ ·)) Nat.ne_of_lt) p
  rw [List.count_append, List.count_singleton] at hf
  rw [List.count_cons] at hr
  rcases heq with rfl | rfl
  · rw [List.count_append, List.count_cons]
    omega
  · rw [List.count_append, List.count_cons, List.count_cons]
    omega

/-- Different numbers within bounds are no more than the numbers there. -/
theorem length_le_of_nodup (h : ps.Nodup) (hmem : ∀ p ∈ ps, lo ≤ p ∧ p ≤ hi) : ps.length ≤ hi + 1 - lo := by
  have hsub : ps ⊆ List.range' lo (hi + 1 - lo) := fun p hp => by
    have hbounds := hmem p hp
    rw [List.mem_range'_1]; omega
  simpa using (List.subperm_of_subset h hsub).length_le

/-- The slopes of a valley are each as long as the bounds allow, the lowest number counting as a part of either. -/
theorem exists_slopes (h : Valley ps) (hmem : ∀ p ∈ ps, lo ≤ p ∧ p ≤ hi) :
    ∃ falling low rising, falling.length + 1 ≤ hi + 1 - lo ∧ rising.length + 1 ≤ hi + 1 - lo ∧
      ps.length ≤ falling.length + rising.length + 2 ∧ (∀ p ∈ falling, low < p) ∧ (∀ p ∈ rising, low < p) ∧
      low ∈ ps ∧ (ps = falling ++ low :: rising ∨ ps = falling ++ low :: low :: rising) := by
  obtain ⟨falling, low, rising, hfalling, hrising, heq⟩ := h
  have hin : ∀ p, p ∈ falling ∨ p = low ∨ p ∈ rising → p ∈ ps := by
    rcases heq with rfl | rfl <;> simp
  have hleft : (falling ++ [low]).length ≤ hi + 1 - lo := by
    refine length_le_of_nodup (hfalling.imp Nat.ne_of_gt) fun p hp => hmem p (hin p ?_)
    rw [List.mem_append, List.mem_singleton] at hp
    tauto
  have hright : (low :: rising).length ≤ hi + 1 - lo := by
    refine length_le_of_nodup (hrising.imp Nat.ne_of_lt) fun p hp => hmem p (hin p ?_)
    rw [List.mem_cons] at hp
    tauto
  refine ⟨falling, low, rising, by simpa using hleft, hright, ?_, ?_, (List.pairwise_cons.1 hrising).1, hin low (by simp),
    heq⟩
  · rcases heq with rfl | rfl <;> simp only [List.length_append, List.length_cons] <;> omega
  · intro p hp
    exact (List.pairwise_append.1 hfalling).2.2 p hp low (List.mem_singleton_self low)

theorem length_le (h : Valley ps) (hmem : ∀ p ∈ ps, lo ≤ p ∧ p ≤ hi) : ps.length ≤ 2 * (hi + 1 - lo) := by
  obtain ⟨falling, low, rising, hleft, hright, hlen, -⟩ := h.exists_slopes hmem
  omega

/-- A valley that has the lower bound at an end has one slope only. -/
theorem length_le_of_end (h : Valley ps) (hmem : ∀ p ∈ ps, lo ≤ p ∧ p ≤ hi)
    (hend : ps.head? = some lo ∨ ps.getLast? = some lo) : ps.length ≤ hi + 2 - lo := by
  obtain ⟨falling, low, rising, hleft, hright, hlen, hfalling, hrising, hlow, heq⟩ := h.exists_slopes hmem
  have hbound := (hmem low hlow).1
  -- a number on the slope at that end would be above the lowest one, and so above the bound
  have hflat : falling = [] ∨ rising = [] := by
    rcases hend with hend | hend
    · left
      cases falling with
      | nil => rfl
      | cons p falling =>
        have hp := hfalling p List.mem_cons_self
        have hhead : ps.head? = some p := by rcases heq with rfl | rfl <;> rfl
        rw [hhead, Option.some.injEq] at hend
        omega
    · right
      rcases List.eq_nil_or_concat rising with hnil | ⟨rest, p, rfl⟩
      · exact hnil
      · have hp := hrising p (by simp)
        have hlast : ps.getLast? = some p := by rcases heq with rfl | rfl <;> simp [List.getLast?_cons]
        rw [hlast, Option.some.injEq] at hend
        omega
  rcases hflat with rfl | rfl
  · rw [List.length_nil] at hlen; omega
  · rw [List.length_nil] at hlen; omega

end Valley

variable {f : Family}

/-- Half of the address space stands at an end of a tiling. -/
theorem Tiling.ends_of_half {first last : Address f} {blocks : List (Block f)} (h : Tiling first last blocks)
    {b : Block f} (hb : b ∈ blocks) (hp : b.prefixLength = 1) : blocks.head? = some b ∨ blocks.getLast? = some b := by
  have hsize : 2 * b.size = 2 ^ f.bits := by rw [Block.size, hp, f.two_mul_span_one]
  have hend := b.toNat_broadcast_succ
  have htop := b.broadcast.toNat_lt
  obtain ⟨k, hk⟩ := b.size_dvd_base
  have hhalf : k = 0 ∨ k = 1 := by
    have hlt : b.size * k < b.size * 2 := by omega
    have := Nat.lt_of_mul_lt_mul_left hlt
    omega
  rcases hhalf with rfl | rfl
  · left
    obtain ⟨c, hc, hfirst⟩ := Option.map_eq_some_iff.1 h.head
    have hle : c.base ≤ b.base := hfirst ▸ ((h.exists_contains_iff _).1 ⟨b, hb, b.contains_base⟩).1
    have hcb : c.base = b.base := by
      rw [Address.le_iff_toNat_le] at hle
      rw [← Address.toNat_inj]; omega
    rw [hc, h.eq_of_common (List.mem_of_mem_head? hc) hb c.contains_base (hcb ▸ b.contains_base)]
  · right
    obtain ⟨c, hc, hlast⟩ := Option.map_eq_some_iff.1 h.getLast
    have hle : b.broadcast ≤ c.broadcast := hlast ▸ ((h.exists_contains_iff _).1 ⟨b, hb, b.contains_broadcast⟩).2
    have hcb : c.broadcast = b.broadcast := by
      have := c.broadcast.toNat_lt
      rw [Address.le_iff_toNat_le] at hle
      rw [← Address.toNat_inj]; omega
    rw [hc, h.eq_of_common (List.mem_of_getLast? hc) hb c.contains_broadcast (hcb ▸ b.contains_broadcast)]

/-! ## Where the blocks turn -/

namespace Range

variable {start first last : Address f} {b c d : Block f} {rest blocks : List (Block f)}

/-- A largest fit with room for as many addresses again does not begin a block of twice its size. -/
theorem LargestFit.not_dvd (h : LargestFit first last b) (hp : 1 < b.prefixLength)
    (hroom : b.base.toNat + 2 * b.size ≤ last.toNat + 1) : ¬ 2 * b.size ∣ b.base.toNat := by
  intro hdvd
  have hbits := b.prefixLength_le
  have hdouble : 2 * b.size = f.span (b.prefixLength - 1) := Family.two_mul_span hp.le hbits
  rw [hdouble, h.base] at hdvd
  rw [hdouble, h.base] at hroom
  -- the block of twice the size would fit as well
  have hshorter : b.prefixLength - 1 ≤ f.bits := by omega
  have hle : b.prefixLength ≤ b.prefixLength - 1 :=
    h.largest (.around first (b.prefixLength - 1) hshorter) (Nat.le_sub_one_of_lt hp)
      (Block.base_around_of_dvd hshorter hdvd) ((Block.broadcast_around_le_iff hshorter hdvd).2 hroom)
  omega

theorem Greedy.tail (h : Greedy last start (b :: c :: rest)) : Greedy last c.base (c :: rest) := by
  cases h with
  | more hb hn h =>
    have hbase : c.base = _ := h.tiling.cases_cons.1
    rwa [hbase]

/-- Where a block begins that follows another one in a cover. -/
theorem Greedy.base_of_cons_cons (h : Greedy last start (b :: c :: rest)) :
    c.base.toNat = b.base.toNat + b.size := by
  have hnext := (List.isChain_cons_cons.1 h.tiling.chain).1
  rw [Address.next?_eq_some_iff.1 hnext, Block.toNat_broadcast_succ]

/-- Once a block is no larger than the one before it, the next one is smaller. -/
theorem Greedy.turn (h : Greedy last start (b :: c :: d :: rest)) (hbc : b.prefixLength ≤ c.prefixLength) :
    c.prefixLength < d.prefixLength := by
  have hb := h.largestFit b (by simp)
  have hc := h.largestFit c (by simp)
  have hd := h.largestFit d (by simp)
  have hcbase := h.base_of_cons_cons
  have hdbase := h.tail.base_of_cons_cons
  have hdend := Address.le_iff_toNat_le.1 hd.broadcast_le
  have hdsucc := d.toNat_broadcast_succ
  have hlast := last.toNat_lt
  have hpos := b.size_pos
  by_contra hdc
  have hsize : c.size ≤ d.size := Block.size_le_size_iff.2 (Nat.le_of_not_lt hdc)
  have hroom : c.base.toNat + 2 * c.size ≤ last.toNat + 1 := by omega
  have hcp : 1 < c.prefixLength := by
    rcases Nat.eq_or_lt_of_le hc.prefixLength_pos with hone | hlt
    · have hhalf := f.two_mul_span_one
      rw [hone, ← Block.size] at hhalf
      omega
    · exact hlt
  have hcodd := hc.not_dvd hcp hroom
  rcases Nat.eq_or_lt_of_le hbc with heq | hlt
  · -- two blocks of one size, of which neither begins a block of twice that size
    have hsame : b.size = c.size := by rw [Block.size, Block.size, heq]
    have hbodd := hb.not_dvd (heq ▸ hcp) (by omega)
    obtain ⟨k, hk⟩ := b.size_dvd_base
    rw [hcbase, ← hsame, hk] at hcodd
    rw [hk] at hbodd
    rcases Nat.even_or_odd' k with ⟨j, rfl | rfl⟩
    · exact hbodd ⟨j, by ring⟩
    · exact hcodd ⟨j + 1, by ring⟩
  · apply hcodd
    have hdouble : 2 * c.size = f.span (c.prefixLength - 1) := Family.two_mul_span hcp.le c.prefixLength_le
    have hdvd : 2 * c.size ∣ b.size := hdouble ▸ f.span_dvd (Nat.le_sub_one_of_lt hlt)
    rw [hcbase]
    exact Nat.dvd_add (Nat.dvd_trans hdvd b.size_dvd_base) hdvd

/-- From the turn on the prefixes get longer. -/
theorem Greedy.rising (h : Greedy last start (b :: c :: rest)) (hbc : b.prefixLength ≤ c.prefixLength) :
    ((c :: rest).map Block.prefixLength).Pairwise (· < ·) := by
  rw [← List.isChain_iff_pairwise, List.isChain_map]
  induction rest generalizing start b c with
  | nil => exact .singleton c
  | cons d rest ih =>
    have hcd := h.turn hbc
    exact .cons_cons hcd (ih h.tail hcd.le)

theorem Greedy.valley (h : Greedy last start blocks) : Valley (blocks.map Block.prefixLength) := by
  induction h with
  | done hb hl => exact .rise (List.pairwise_singleton _ _)
  | @more start next b rest hb hn h ih =>
    have hall : Greedy last start (b :: rest) := .more hb hn h
    cases rest with
    | nil => cases h
    | cons c rest =>
      rcases Nat.lt_trichotomy b.prefixLength c.prefixLength with hlt | heq | hgt
      · have hrising := hall.rising hlt.le
        refine .rise (List.pairwise_cons.2 ⟨List.forall_mem_cons.2 ⟨hlt, fun p hp => ?_⟩, hrising⟩)
        exact hlt.trans ((List.pairwise_cons.1 hrising).1 p hp)
      · have hrising := hall.rising heq.le
        rw [List.map_cons, List.map_cons, heq]
        exact .level hrising
      · exact .fall hgt ih

theorem Greedy.length_le_two_mul_bits (h : Greedy last start blocks) : blocks.length ≤ 2 * f.bits - 2 := by
  have hbits := f.eight_le_bits
  have hpos : ∀ b ∈ blocks, 1 ≤ b.prefixLength ∧ b.prefixLength ≤ f.bits :=
    fun b hb => ⟨(h.largestFit b hb).prefixLength_pos, b.prefixLength_le⟩
  rw [← List.length_map (f := Block.prefixLength)]
  by_cases hhalf : ∃ b ∈ blocks, b.prefixLength = 1
  · obtain ⟨b, hb, hone⟩ := hhalf
    have hend : (blocks.map Block.prefixLength).head? = some 1 ∨ (blocks.map Block.prefixLength).getLast? = some 1 := by
      rw [List.head?_map, List.getLast?_map, ← hone]
      exact (h.tiling.ends_of_half hb hone).imp (congrArg _) (congrArg _)
    have hlen := h.valley.length_le_of_end (List.forall_mem_map.2 hpos) hend
    omega
  · have htwo : ∀ p ∈ blocks.map Block.prefixLength, 2 ≤ p ∧ p ≤ f.bits := by
      rw [List.forall_mem_map]
      intro b hb
      have hone : b.prefixLength ≠ 1 := fun hone => hhalf ⟨b, hb, hone⟩
      have hrange := hpos b hb
      omega
    have hlen := h.valley.length_le htwo
    omega

/-! ## The longest cover -/

/-- The block of `p` bits that begins at `first` is the largest fit if it fits and the one of twice its size does not. -/
theorem LargestFit.around {p : Nat} (hp : 1 ≤ p) (hbits : p ≤ f.bits) (hdvd : f.span p ∣ first.toNat)
    (hfit : first.toNat + f.span p ≤ last.toNat + 1)
    (hlimit : f.span (p - 1) ∣ first.toNat → last.toNat + 1 < first.toNat + f.span (p - 1)) :
    LargestFit first last (.around first p hbits) := by
  refine ⟨rfl, hp, Block.base_around_of_dvd hbits hdvd, (Block.broadcast_around_le_iff hbits hdvd).2 hfit,
    fun c hc hcbase hclast => ?_⟩
  -- a block with a shorter prefix takes up at least twice the size
  change p ≤ c.prefixLength
  by_contra hlt
  have hdouble : f.span (p - 1) ∣ c.size := f.span_dvd (Nat.le_sub_one_of_lt (Nat.lt_of_not_le hlt))
  have hroom := hlimit (hcbase ▸ Nat.dvd_trans hdouble c.size_dvd_base)
  have hle := Nat.le_of_dvd c.size_pos hdouble
  have hend := c.toNat_broadcast_succ
  rw [hcbase] at hend
  rw [Address.le_iff_toNat_le] at hclast
  omega

/-- A largest fit that ends before the range does is one block more than what covers the rest. -/
theorem LargestFit.exists_greedy_cons {n : Nat} (h : LargestFit first last b)
    (hlt : first.toNat + b.size ≤ last.toNat)
    (hrest : ∀ next : Address f, next.toNat = first.toNat + b.size →
      ∃ blocks, Greedy last next blocks ∧ blocks.length = n) :
    ∃ blocks, Greedy last first blocks ∧ blocks.length = n + 1 := by
  have hend := b.toNat_broadcast_succ
  rw [h.base] at hend
  have hopen : b.broadcast < last := by
    rw [Address.lt_iff_toNat_lt]; omega
  obtain ⟨next, hn, -, -⟩ := Address.exists_next?_of_lt hopen
  obtain ⟨rest, hgreedy, hlen⟩ := hrest next (by rw [Address.next?_eq_some_iff.1 hn, hend])
  exact ⟨b :: rest, .more h hn hgreedy, by rw [List.length_cons, hlen]⟩

/-- One address less than a block holds takes a block of each smaller size. -/
theorem exists_greedy_of_shrinking {n p : Nat} (hp : 1 ≤ p) (hn : p + n = f.bits) (hdvd : f.span p ∣ first.toNat)
    (hlast : last.toNat + 2 = first.toNat + 2 * f.span p) :
    ∃ blocks, Greedy last first blocks ∧ blocks.length = n + 1 := by
  induction n generalizing p first with
  | zero =>
    -- one address is left
    obtain rfl : p = f.bits := hn
    rw [Family.span_bits] at hlast
    obtain rfl : last = first := Address.toNat_inj.1 (by omega)
    have hbroad := Block.broadcast_around_bits last
    have hfit := LargestFit.of_block (b := .around last f.bits le_rfl) rfl hp
    rw [Block.base_around_bits, hbroad] at hfit
    exact ⟨[_], .done hfit hbroad, rfl⟩
  | succ n ih =>
    have hpos := f.span_pos (p + 1)
    have hhalf : 2 * f.span (p + 1) = f.span p := Family.two_mul_span (Nat.le_add_left 1 p) (by omega)
    have hdouble : 2 * f.span p = f.span (p - 1) := Family.two_mul_span hp (by omega)
    have hfit : LargestFit first last (.around first p (by omega)) :=
      .around hp (by omega) hdvd (by omega) fun _ => by omega
    refine hfit.exists_greedy_cons ?_ fun next hnext => ?_
    · change first.toNat + f.span p ≤ last.toNat
      omega
    · change next.toNat = first.toNat + f.span p at hnext
      refine ih (Nat.le_add_left 1 p) (by omega) ?_ (by omega)
      have hnarrow : f.span (p + 1) ∣ f.span p := f.span_dvd (Nat.le_succ p)
      rw [hnext]
      exact Nat.dvd_add (Nat.dvd_trans hnarrow hdvd) hnarrow

/-- From the size of a block up to the last address but one there are blocks that grow up to the half of the address space,
and blocks that shrink from there on. -/
theorem exists_greedy_of_growing {p : Nat} (hp : 1 ≤ p) (hbits : p ≤ f.bits) (hfirst : first.toNat = f.span p)
    (hlast : last.toNat + 2 = 2 ^ f.bits) : ∃ blocks, Greedy last first blocks ∧ blocks.length + 2 = f.bits + p := by
  have hwide := f.eight_le_bits
  have hone := f.two_mul_span_one
  induction p, hp using Nat.le_induction generalizing first with
  | base =>
    -- the upper half less one address begins with a quarter
    have hquarter : 2 * f.span 2 = f.span 1 := Family.two_mul_span (by decide) (by omega)
    have hdvd : f.span 2 ∣ first.toNat := hfirst ▸ f.span_dvd (Nat.le_succ 1)
    have hend : last.toNat + 2 = first.toNat + 2 * f.span 2 := by omega
    obtain ⟨blocks, hgreedy, hlen⟩ := exists_greedy_of_shrinking (n := f.bits - 2) (by decide) (by omega) hdvd hend
    exact ⟨blocks, hgreedy, by omega⟩
  | succ p hp ih =>
    have hpos := f.span_pos (p + 1)
    have hdouble : 2 * f.span (p + 1) = f.span p := Family.two_mul_span (Nat.le_add_left 1 p) hbits
    have hhalf : f.span p ≤ f.span 1 := Nat.le_of_dvd (f.span_pos 1) (f.span_dvd hp)
    have hfit : LargestFit first last (.around first (p + 1) hbits) := by
      refine .around (Nat.le_add_left 1 p) hbits (hfirst ▸ Nat.dvd_refl _) (by omega) fun hdvd => ?_
      -- a block is no multiple of twice its size
      rw [Nat.add_sub_cancel, hfirst] at hdvd
      have hle := Nat.le_of_dvd hpos hdvd
      omega
    have hend : first.toNat + f.span (p + 1) ≤ last.toNat := by omega
    obtain ⟨blocks, hgreedy, hlen⟩ := hfit.exists_greedy_cons (n := f.bits + p - 2) hend fun next hnext => by
      change next.toNat = first.toNat + f.span (p + 1) at hnext
      obtain ⟨rest, hrest, hlen⟩ := ih (Nat.le_of_succ_le hbits) (show next.toNat = f.span p by omega)
      exact ⟨rest, hrest, by omega⟩
    exact ⟨blocks, hgreedy, by omega⟩

theorem exists_longest (f : Family) :
    ∃ blocks, (coverRange ⟨f, .ofNat f 1⟩ ⟨f, .ofNat f (2 ^ f.bits - 2)⟩).outcome = .ok blocks ∧
      blocks.length = 2 * f.bits - 2 := by
  have hfour : 2 ^ 2 ≤ 2 ^ f.bits := Nat.pow_le_pow_right (by decide) (Nat.le_trans (by decide) f.eight_le_bits)
  have hfirst : (Address.ofNat f 1).toNat = 1 := Address.toNat_ofNat_of_lt (by omega)
  have hlast : (Address.ofNat f (2 ^ f.bits - 2)).toNat + 2 = 2 ^ f.bits := by
    rw [Address.toNat_ofNat_of_lt (by omega)]; omega
  obtain ⟨blocks, hgreedy, hlen⟩ :=
    exists_greedy_of_growing f.one_le_bits le_rfl (hfirst.trans f.span_bits.symm) hlast
  exact ⟨_, coverRange_outcome (cover_outcome_of_greedy hgreedy), by rw [List.length_map]; omega⟩

/-- The prefix lengths of a cover fall and then rise, so none of them occurs three times, and a cover has at most
`2 * f.bits - 2` blocks. The range from the second address to the last but one has a cover of that many. -/
theorem coverRange_valley (f : Family) :
    (∀ first last : Address f, first ≤ last → ∃ blocks,
      (coverRange ⟨f, first⟩ ⟨f, last⟩).outcome = .ok blocks ∧
      (∀ p, (blocks.map (·.block.prefixLength)).count p ≤ 2) ∧
      Valley (blocks.map (·.block.prefixLength)) ∧
      blocks.length ≤ 2 * f.bits - 2) ∧
    ∃ blocks, (coverRange ⟨f, .ofNat f 1⟩ ⟨f, .ofNat f (2 ^ f.bits - 2)⟩).outcome = .ok blocks ∧
      blocks.length = 2 * f.bits - 2 := by
  refine ⟨fun first last h => ?_, exists_longest f⟩
  obtain ⟨blocks, hout, hgreedy⟩ := cover_outcome h
  have hmap : (blocks.map (⟨f, ·⟩) : List AnyBlock).map (·.block.prefixLength) = blocks.map Block.prefixLength := by
    rw [List.map_map]; rfl
  refine ⟨_, coverRange_outcome hout, ?_, ?_, ?_⟩
  · rw [hmap]
    exact hgreedy.valley.count_le_two
  · rw [hmap]
    exact hgreedy.valley
  · rw [List.length_map]
    exact hgreedy.length_le_two_mul_bits

/-- From 0.0.0.1 to 0.0.0.6 the lowest prefix length stands twice. -/
theorem coverRange_valley_level :
    ∃ blocks, (coverRange ⟨.v4, .ofNat .v4 1⟩ ⟨.v4, .ofNat .v4 6⟩).outcome = .ok blocks ∧
      blocks.map (·.block.prefixLength) = [32, 31, 31, 32] ∧ Valley [32, 31, 31, 32] ∧ blocks.length ≤ 62 := by
  have heval : (coverRange ⟨.v4, .ofNat .v4 1⟩ ⟨.v4, .ofNat .v4 6⟩).outcome.map
      (List.map (·.block.prefixLength)) = .ok [32, 31, 31, 32] := by decide +kernel
  obtain ⟨blocks, hout, -, hvalley, hlen⟩ :=
    (coverRange_valley .v4).1 (.ofNat .v4 1) (.ofNat .v4 6) (by decide +kernel)
  rw [hout, Except.map, Except.ok.injEq] at heval
  rw [heval] at hvalley
  exact ⟨blocks, hout, heval, hvalley, hlen⟩

example : 2 * Family.v4.bits - 2 = 62 ∧ 2 * Family.v6.bits - 2 = 254 := by decide

end Range

end IpSpace
