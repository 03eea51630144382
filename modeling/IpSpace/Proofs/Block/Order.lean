import IpSpace.Proofs.Block.Nesting
import IpSpace.Proofs.HostMask.Step
import Mathlib.Data.Prod.Lex

/-!
# The order of blocks

Blocks are ordered by family, base, prefix length and host mask, each deciding where those before are equal
(`AnyBlock.mk_le_mk`). The order is linear, being the one of the keys `AnyBlock.sortKey`.

A block comes before all that it encloses but for those that enclose it as well (`AnyBlock.lt_of_encloses`), and nothing
comes between it and a block that it encloses but what it encloses too (`AnyBlock.encloses_of_between`). So an ascending
list has the blocks inside a block in one stretch behind it (`AnyBlock.order_groups_nested`).
-/
namespace IpSpace

variable {f : Family}

theorem Family.version_inj {f g : Family} : f.version = g.version ↔ f = g := by
  cases f <;> cases g <;> decide

/-! ## Host masks -/

namespace HostMask

theorem toNat_reverse_fill_lt {width m n : Nat} (h : m < n) (hn : n ≤ 8 * width) :
    BigEndian.toNat (fill width m).reverse < BigEndian.toNat (fill width n).reverse := by
  induction width generalizing m n with
  | zero => omega
  | succ width ih =>
    simp only [fill, List.reverse_cons, BigEndian.toNat_concat]
    rcases Nat.lt_or_ge m 8 with hm | hm
    · -- the longer mask has more bits in the last byte already
      have hfree : 2 ^ (8 - n) < 2 ^ (8 - m) := Nat.pow_lt_pow_right (by decide) (by omega)
      have hbyte : 2 ^ (8 - m) ≤ 2 ^ 8 := Nat.pow_le_pow_right (by decide) (by omega)
      rw [Nat.sub_eq_zero_of_le hm.le, fill_zero, List.reverse_replicate, BigEndian.toNat_replicate_zero, toNat_leading,
        toNat_leading]
      omega
    · have hrest := ih (m := m - 8) (n := n - 8) (by omega) (by omega)
      rw [leading_of_le hm, leading_of_le (by omega : 8 ≤ n)]
      omega

/-- The order by length is the order of the bytes. -/
theorem octets_lt_iff {m n : HostMask f} : m.octets < n.octets ↔ m.length < n.length := by
  have hbound : ∀ k : HostMask f, k.length ≤ 8 * f.bytes :=
    fun k => Nat.le_trans k.length_le f.longestHostMask_le_bits
  rw [octets, octets, BigEndian.lt_iff_toNat_lt (by simp)]
  constructor
  · intro h
    by_contra hle
    rcases Nat.eq_or_lt_of_le (Nat.le_of_not_lt hle) with heq | hlt
    · rw [heq] at h
      exact Nat.lt_irrefl _ h
    · exact Nat.lt_asymm h (toNat_reverse_fill_lt hlt (hbound m))
  · intro h
    exact toNat_reverse_fill_lt h (hbound n)

end HostMask

/-! ## The order is linear -/

namespace AnyBlock

/-- What blocks are compared by, one after the other. -/
def sortKey (b : AnyBlock) : ℕ ×ₗ ℕ ×ₗ ℕ ×ₗ ℕ :=
  toLex (b.family.version, toLex (b.block.base.toNat, toLex (b.block.prefixLength, b.block.hostMask.length)))

theorem sortKey_injective : Function.Injective sortKey := by
  rintro ⟨f, b⟩ ⟨g, c⟩ h
  simp only [sortKey, EmbeddingLike.apply_eq_iff_eq, Prod.mk.injEq, Family.version_inj] at h
  obtain ⟨rfl, hbase, hprefix, hmask⟩ := h
  rw [Block.ext (Address.toNat_inj.1 hbase) hprefix (HostMask.ext hmask)]

theorem compare_sortKey (b c : AnyBlock) : compare b.sortKey c.sortKey = compare b c := by
  obtain ⟨f, b⟩ := b
  obtain ⟨g, c⟩ := c
  cases f <;> cases g
  · exact congrArg (Ordering.then · _) (Address.compare_toNat b.base c.base)
  · rfl
  · rfl
  · exact congrArg (Ordering.then · _) (Address.compare_toNat b.base c.base)

instance : LE AnyBlock := leOfOrd

instance : LT AnyBlock := ltOfOrd

theorem sortKey_le_iff {b c : AnyBlock} : b.sortKey ≤ c.sortKey ↔ b ≤ c := by
  rw [← compare_le_iff_le, compare_sortKey]
  exact Ordering.ne_gt_iff_isLE

theorem sortKey_lt_iff {b c : AnyBlock} : b.sortKey < c.sortKey ↔ b < c := by
  rw [← compare_lt_iff_lt, compare_sortKey]
  exact Iff.rfl

instance : LinearOrder AnyBlock where
  le_refl b := sortKey_le_iff.1 le_rfl
  le_trans b c d hbc hcd := sortKey_le_iff.1 ((sortKey_le_iff.2 hbc).trans (sortKey_le_iff.2 hcd))
  le_antisymm b c hbc hcb := sortKey_injective (le_antisymm (sortKey_le_iff.2 hbc) (sortKey_le_iff.2 hcb))
  le_total b c := by
    rw [← sortKey_le_iff, ← sortKey_le_iff]; exact le_total _ _
  lt_iff_le_not_ge b c := by
    rw [← sortKey_lt_iff, ← sortKey_le_iff, ← sortKey_le_iff]; exact lt_iff_le_not_ge
  toDecidableLE := inferInstance
  toDecidableLT := inferInstance
  toDecidableEq := inferInstance
  toOrd := inferInstance
  compare_eq_compareOfLessAndEq b c := by
    have hkey := LinearOrder.compare_eq_compareOfLessAndEq b.sortKey c.sortKey
    rw [compare_sortKey] at hkey
    simpa only [compareOfLessAndEq, sortKey_lt_iff, sortKey_injective.eq_iff] using hkey

theorem version_le_of_le {b c : AnyBlock} (h : b ≤ c) : b.family.version ≤ c.family.version :=
  Prod.Lex.monotone_fst _ _ (sortKey_le_iff.2 h)

theorem mk_le_mk {b c : Block f} :
    (⟨f, b⟩ : AnyBlock) ≤ ⟨f, c⟩ ↔ b.base ≤ c.base ∧ (b.base = c.base → b.prefixLength ≤ c.prefixLength ∧
      (b.prefixLength = c.prefixLength → b.hostMask.octets ≤ c.hostMask.octets)) := by
  have hmask : b.hostMask.octets ≤ c.hostMask.octets ↔ b.hostMask.length ≤ c.hostMask.length := by
    rw [← Nat.not_lt, ← HostMask.octets_lt_iff]
    exact Iff.rfl
  rw [← sortKey_le_iff, hmask]
  simp [sortKey, Prod.Lex.toLex_le_toLex', Address.le_iff_toNat_le, Address.toNat_inj]

/-! ## Nested blocks in order -/

/-- What comes between a block and one that it encloses is enclosed too. -/
theorem encloses_of_between {a b c : AnyBlock} (hab : a ≤ b) (hbc : b ≤ c) (h : a.Encloses c) : a.Encloses b := by
  have hac := congrArg Family.version h.family_eq
  have hleft := version_le_of_le hab
  have hright := version_le_of_le hbc
  obtain ⟨f, a⟩ := a
  obtain ⟨g, b⟩ := b
  obtain ⟨k, c⟩ := c
  obtain rfl : f = g := Family.version_inj.1 (Nat.le_antisymm hleft (hright.trans_eq hac.symm))
  obtain rfl : f = k := Family.version_inj.1 hac
  rw [encloses_mk] at h ⊢
  obtain ⟨hbase, hsame⟩ := mk_le_mk.1 hab
  have hin : a.Contains b.base :=
    Block.contains_iff_between.2 ⟨hbase, (mk_le_mk.1 hbc).1.trans (Block.contains_iff_between.1 h.2).2⟩
  rcases Block.nested_of_common hin b.contains_base with hnested | hnested
  · exact hnested
  · -- `b` encloses `a`, so it begins there, and then its prefix is no shorter
    have hbase : a.base = b.base := le_antisymm hbase (Block.encloses_iff_between.1 hnested).1
    exact (Block.encloses_both_iff.2 ⟨hbase, Nat.le_antisymm (hsame hbase).1 hnested.1⟩).1

/-- A block comes before those strictly inside it. -/
theorem lt_of_encloses {b c : AnyBlock} (h : b.Encloses c) (hno : ¬ c.Encloses b) : b < c := by
  obtain ⟨f, b⟩ := b
  obtain ⟨g, c⟩ := c
  obtain rfl : f = g := h.family_eq
  rw [encloses_mk] at h hno
  rw [← not_le, mk_le_mk]
  rintro ⟨hbase, hsame⟩
  have hbase : c.base = b.base := le_antisymm hbase (Block.encloses_iff_between.1 h).1
  exact hno (Block.encloses_both_iff.2 ⟨hbase, Nat.le_antisymm (hsame hbase).1 h.1⟩).1

/-- In an ascending list the blocks that its first one encloses come first. -/
theorem exists_run {a : AnyBlock} {rest : List AnyBlock} (h : (a :: rest).Pairwise (· ≤ ·)) :
    ∃ run others, rest = run ++ others ∧ (∀ b ∈ run, a.Encloses b) ∧ ∀ b ∈ others, ¬ a.Encloses b := by
  induction rest with
  | nil => exact ⟨[], [], rfl, by simp, by simp⟩
  | cons b rest ih =>
    obtain ⟨ha, hrest⟩ := List.pairwise_cons.1 h
    by_cases hb : a.Encloses b
    · have hskip : (a :: rest).Pairwise (· ≤ ·) :=
        List.pairwise_cons.2 ⟨fun c hc => ha c (List.mem_cons_of_mem b hc), hrest.of_cons⟩
      obtain ⟨run, others, rfl, hrun, hothers⟩ := ih hskip
      exact ⟨b :: run, others, rfl, List.forall_mem_cons.2 ⟨hb, hrun⟩, hothers⟩
    · refine ⟨[], b :: rest, rfl, by simp, List.forall_mem_cons.2 ⟨hb, fun c hc hac => hb ?_⟩⟩
      exact encloses_of_between (ha b List.mem_cons_self) ((List.pairwise_cons.1 hrest).1 c hc) hac

/-- Between a block and one that it encloses there are only blocks that it encloses, and those strictly inside a block come
after it. So in an ascending list every block stands before those strictly inside it, and what it encloses from its own
place on is one run that begins with it. -/
theorem order_groups_nested :
    (∀ a b c : AnyBlock, a ≤ b → b ≤ c → a.Encloses c → a.Encloses b) ∧
    (∀ a b : AnyBlock, a.Encloses b → ¬ b.Encloses a → a < b) ∧
    ∀ blocks : List AnyBlock, blocks.Pairwise (· ≤ ·) →
      (∀ (i j : Nat) (b c : AnyBlock), blocks[i]? = some b → blocks[j]? = some c →
        b.Encloses c → ¬ c.Encloses b → i < j) ∧
      ∀ (before : List AnyBlock) (a : AnyBlock) (rest : List AnyBlock), blocks = before ++ a :: rest →
        ∃ run others, rest = run ++ others ∧ (∀ b ∈ a :: run, a.Encloses b) ∧ ∀ b ∈ others, ¬ a.Encloses b := by
  refine ⟨fun a b c => encloses_of_between, fun a b => lt_of_encloses, fun blocks hsorted => ⟨?_, ?_⟩⟩
  · intro i j b c hi hj hbc hcb
    have hlt := lt_of_encloses hbc hcb
    obtain ⟨hilen, rfl⟩ := List.getElem?_eq_some_iff.1 hi
    obtain ⟨hjlen, rfl⟩ := List.getElem?_eq_some_iff.1 hj
    by_contra hji
    rcases Nat.eq_or_lt_of_le (Nat.le_of_not_lt hji) with rfl | hji
    · exact lt_irrefl _ hlt
    · exact hlt.not_ge (List.pairwise_iff_getElem.1 hsorted j i hjlen hilen hji)
  · rintro before a rest rfl
    obtain ⟨run, others, hrest, hrun, hothers⟩ := exists_run (List.pairwise_append.1 hsorted).2.1
    exact ⟨run, others, hrest, List.forall_mem_cons.2 ⟨a.encloses_self, hrun⟩, hothers⟩

/-- An ascending list with blocks of both families, two of which share a base: from the second one on, those inside it are
the two after it. -/
theorem order_groups_nested_mixed :
    ∃ a b c d e : AnyBlock, [a, b, c, d, e].Pairwise (· ≤ ·) ∧ b.Encloses c ∧ b.Encloses d ∧ b < c ∧
      ∃ run others, [c, d, e] = run ++ others ∧ (∀ x ∈ b :: run, b.Encloses x) ∧ ∀ x ∈ others, ¬ b.Encloses x := by
  obtain ⟨a, b, c, d, e, hsorted, hle, hle', hbd, hcb⟩ : ∃ a b c d e : AnyBlock,
      [a, b, c, d, e].Pairwise (· ≤ ·) ∧ b ≤ c ∧ c ≤ d ∧ b.Encloses d ∧ ¬ c.Encloses b := by
    refine ⟨⟨.v4, .around (.ofNat .v4 0x09000000) 8 (by decide)⟩, ⟨.v4, .around (.ofNat .v4 0x0a000000) 8 (by decide)⟩,
      ⟨.v4, .around (.ofNat .v4 0x0a000000) 16 (by decide)⟩, ⟨.v4, .around (.ofNat .v4 0x0aff0000) 16 (by decide)⟩,
      ⟨.v6, .around .zero 0 (by decide)⟩, ?_, ?_, ?_, ?_, ?_⟩ <;> decide +kernel
  obtain ⟨hbetween, hbefore, hgroups⟩ := order_groups_nested
  have hbc : b.Encloses c := hbetween b c d hle hle' hbd
  exact ⟨a, b, c, d, e, hsorted, hbc, hbd, hbefore b c hbc hcb, (hgroups _ hsorted).2 [a] b [c, d, e] rfl⟩

end AnyBlock

end IpSpace
