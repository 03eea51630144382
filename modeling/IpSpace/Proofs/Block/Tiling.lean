import IpSpace.Proofs.Block.Interval
import Mathlib.Data.List.Nodup

/-!
# Tilings

A list of blocks tiles the addresses from `first` to `last` if its first block begins at `first`, its last one ends at
`last`, and each block begins just past the one before. Such a list has one block around every address from `first` to
`last`, and none around any other (`Tiling.countP_contains`).
-/
namespace IpSpace

variable {f : Family}

/-- Blocks that follow each other from `first` to `last`. -/
structure Tiling (first last : Address f) (blocks : List (Block f)) : Prop where
  head : blocks.head?.map Block.base = some first
  getLast : blocks.getLast?.map Block.broadcast = some last
  chain : blocks.IsChain fun b c => b.broadcast.next? = some c.base

namespace Tiling

variable {first last : Address f} {blocks : List (Block f)}

theorem single (b : Block f) : Tiling b.base b.broadcast [b] := ⟨rfl, rfl, .singleton b⟩

theorem cons {b : Block f} {next : Address f} (hn : b.broadcast.next? = some next)
    (h : Tiling next last blocks) : Tiling b.base last (b :: blocks) := by
  obtain ⟨h1, h2, h3⟩ := h
  cases blocks with
  | nil => simp at h1
  | cons c rest =>
    simp only [List.head?_cons, Option.map_some, Option.some.injEq] at h1
    exact ⟨rfl, by rwa [List.getLast?_cons_cons], .cons_cons (by rw [hn, h1]) h3⟩

/-- A tiling is one block, or a block and a tiling from just past it. -/
theorem cases_cons {b : Block f} {rest : List (Block f)} (h : Tiling first last (b :: rest)) :
    b.base = first ∧ ((rest = [] ∧ b.broadcast = last) ∨
      ∃ next, b.broadcast.next? = some next ∧ Tiling next last rest) := by
  obtain ⟨h1, h2, h3⟩ := h
  simp only [List.head?_cons, Option.map_some, Option.some.injEq] at h1
  refine ⟨h1, ?_⟩
  cases rest with
  | nil => exact .inl ⟨rfl, by simpa using h2⟩
  | cons c rest =>
    rw [List.getLast?_cons_cons] at h2
    obtain ⟨hbc, h3⟩ := List.isChain_cons_cons.1 h3
    exact .inr ⟨c.base, hbc, rfl, h2, h3⟩

theorem ne_nil (h : Tiling first last blocks) : blocks ≠ [] := by
  rintro rfl; simpa using h.head

theorem first_le_last (h : Tiling first last blocks) : first ≤ last := by
  induction blocks generalizing first with
  | nil => exact absurd rfl h.ne_nil
  | cons b rest ih =>
    obtain ⟨rfl, ⟨-, rfl⟩ | ⟨next, hn, h⟩⟩ := h.cases_cons
    · exact b.base_le_broadcast
    · have hb := Address.le_iff_toNat_le.1 b.base_le_broadcast
      have hl := Address.le_iff_toNat_le.1 (ih h)
      rw [Address.next?_eq_some_iff.1 hn] at hl
      exact Address.le_iff_toNat_le.2 (by omega)

/-- Every address from `first` to `last` is in one block of a tiling, every other address in none. -/
theorem countP_contains (h : Tiling first last blocks) (a : Address f) :
    blocks.countP (·.Contains a) = if first ≤ a ∧ a ≤ last then 1 else 0 := by
  induction blocks generalizing first with
  | nil => exact absurd rfl h.ne_nil
  | cons b rest ih =>
    obtain ⟨rfl, ⟨rfl, rfl⟩ | ⟨next, hn, h⟩⟩ := h.cases_cons
    · simp [Block.contains_iff_between]
    · have hn := Address.next?_eq_some_iff.1 hn
      have hb := Address.le_iff_toNat_le.1 b.base_le_broadcast
      have hl := Address.le_iff_toNat_le.1 h.first_le_last
      rw [List.countP_cons, ih h]
      simp only [decide_eq_true_eq, Block.contains_iff_between, Address.le_iff_toNat_le]
      -- `next` is one past the end of `b`, so `a` is in `b`, past it, or before it
      split <;> split <;> split <;> omega

/-- Among the addresses of both families, a tiling has one block around each from `first` to `last`. -/
theorem countP_any_contains (h : Tiling first last blocks) (x : AnyAddress) :
    (blocks.map (⟨f, ·⟩) : List AnyBlock).countP (·.Contains x) =
      if ⟨f, first⟩ ≤ x ∧ x ≤ ⟨f, last⟩ then 1 else 0 := by
  by_cases hx : x.family = f
  · obtain ⟨g, a⟩ := x
    obtain rfl : g = f := hx
    simp only [List.countP_map, AnyAddress.mk_le_mk]
    rw [← h.countP_contains a]
    exact List.countP_congr fun b _ => by simp [AnyBlock.contains_mk]
  · rw [if_neg, List.countP_eq_zero]
    · intro b hb
      obtain ⟨c, -, rfl⟩ := List.mem_map.1 hb
      rw [decide_eq_true_eq]
      exact fun hc => hx (AnyBlock.family_eq hc).symm
    · intro hb
      obtain ⟨a, rfl, -, -⟩ := AnyAddress.between_iff.1 hb
      exact hx rfl

theorem exists_contains_iff (h : Tiling first last blocks) (a : Address f) :
    (∃ b ∈ blocks, b.Contains a) ↔ first ≤ a ∧ a ≤ last := by
  have hcount := h.countP_contains a
  have hpos := List.countP_pos_iff (p := (·.Contains a)) (l := blocks)
  simp only [decide_eq_true_eq] at hpos
  rw [← hpos, hcount]
  split <;> simp_all

/-- Two blocks of a tiling with a common address are the same. -/
theorem eq_of_common (h : Tiling first last blocks) {b c : Block f} (hb : b ∈ blocks) (hc : c ∈ blocks)
    {a : Address f} (hba : b.Contains a) (hca : c.Contains a) : b = c := by
  have hcount := h.countP_contains a
  rw [List.countP_eq_length_filter] at hcount
  have hle : (blocks.filter (·.Contains a)).length ≤ 1 := by
    rw [hcount]; split <;> omega
  have hb' : b ∈ blocks.filter (·.Contains a) := List.mem_filter.2 ⟨hb, by simpa using hba⟩
  have hc' : c ∈ blocks.filter (·.Contains a) := List.mem_filter.2 ⟨hc, by simpa using hca⟩
  generalize blocks.filter (·.Contains a) = around at hle hb' hc'
  match around, hle with
  | [], _ => simp at hb'
  | [d], _ => rw [List.mem_singleton.1 hb', List.mem_singleton.1 hc']

/-- No block occurs twice in a tiling. -/
theorem nodup (h : Tiling first last blocks) : blocks.Nodup := by
  rw [List.nodup_iff_count_le_one]
  intro b
  have hle : blocks.count b ≤ blocks.countP (·.Contains b.base) := by
    refine List.countP_mono_left fun c _ hc => ?_
    rw [beq_iff_eq.1 hc]
    exact decide_eq_true b.contains_base
  rw [h.countP_contains] at hle
  split at hle <;> omega

end Tiling

/-! ## Tilings by equal blocks -/

/-- A tiling by blocks of one prefix length and one host mask. -/
structure EvenTiling (p : Nat) (m : HostMask f) (first last : Address f) (blocks : List (Block f)) : Prop
    extends Tiling first last blocks where
  kind : ∀ b ∈ blocks, b.prefixLength = p ∧ b.hostMask = m

namespace EvenTiling

variable {p : Nat} {m : HostMask f} {first last : Address f} {blocks : List (Block f)}

theorem single {b : Block f} (hp : b.prefixLength = p) (hm : b.hostMask = m) :
    EvenTiling p m b.base b.broadcast [b] where
  toTiling := .single b
  kind := by simp [hp, hm]

theorem cons {b : Block f} {next : Address f} (hp : b.prefixLength = p) (hm : b.hostMask = m)
    (hn : b.broadcast.next? = some next) (h : EvenTiling p m next last blocks) :
    EvenTiling p m b.base last (b :: blocks) where
  toTiling := h.toTiling.cons hn
  kind := by
    intro c hc
    rcases List.mem_cons.1 hc with rfl | hc
    · exact ⟨hp, hm⟩
    · exact h.kind c hc

/-- An even tiling is one block, or a block and an even tiling from its size further up. -/
theorem cases_cons {b : Block f} {rest : List (Block f)} (h : EvenTiling p m first last (b :: rest)) :
    b.base = first ∧ ((rest = [] ∧ first.toNat + f.span p = last.toNat + 1) ∨
      ∃ next, next.toNat = first.toNat + f.span p ∧ EvenTiling p m next last rest) := by
  have hend := b.toNat_broadcast_succ
  rw [Block.size, (h.kind b List.mem_cons_self).1] at hend
  obtain ⟨rfl, ⟨rfl, rfl⟩ | ⟨next, hn, hrest⟩⟩ := h.toTiling.cases_cons
  · exact ⟨rfl, .inl ⟨rfl, hend.symm⟩⟩
  · refine ⟨rfl, .inr ⟨next, ?_, hrest, ?_⟩⟩
    · rw [Address.next?_eq_some_iff.1 hn, hend]
    · intro c hc
      exact h.kind c (List.mem_cons_of_mem b hc)

theorem toNat_add_length_mul (h : EvenTiling p m first last blocks) :
    first.toNat + blocks.length * f.span p = last.toNat + 1 := by
  induction blocks generalizing first with
  | nil => exact absurd rfl h.ne_nil
  | cons b rest ih =>
    rw [List.length_cons, Nat.succ_mul]
    obtain ⟨-, ⟨rfl, hlast⟩ | ⟨next, hnext, hrest⟩⟩ := h.cases_cons
    · rw [List.length_nil]; omega
    · have hlen := ih hrest
      omega

/-- The position of a block tells its base. -/
theorem base_of_getElem? (h : EvenTiling p m first last blocks) {k : Nat} {b : Block f} (hk : blocks[k]? = some b) :
    b.base.toNat = first.toNat + k * f.span p := by
  induction blocks generalizing first k with
  | nil => simp at hk
  | cons c rest ih =>
    obtain ⟨rfl, hrest⟩ := h.cases_cons
    cases k with
    | zero =>
      simp only [List.getElem?_cons_zero, Option.some.injEq] at hk
      rw [hk, Nat.zero_mul, Nat.add_zero]
    | succ k =>
      rw [List.getElem?_cons_succ] at hk
      rcases hrest with ⟨rfl, -⟩ | ⟨next, hnext, hrest⟩
      · simp at hk
      · rw [ih hrest hk, hnext, Nat.succ_mul]; omega

/-- The blocks of the kind in the range are those of the tiling. -/
theorem mem_iff (h : EvenTiling p m first last blocks) {c : Block f} (hp : c.prefixLength = p)
    (hm : c.hostMask = m) : c ∈ blocks ↔ first ≤ c.base ∧ c.broadcast ≤ last := by
  constructor
  · intro hc
    exact ⟨((h.exists_contains_iff _).1 ⟨c, hc, c.contains_base⟩).1,
      ((h.exists_contains_iff _).1 ⟨c, hc, c.contains_broadcast⟩).2⟩
  · intro ⟨hfirst, hlast⟩
    obtain ⟨d, hd, hdc⟩ := (h.exists_contains_iff c.base).2 ⟨hfirst, c.base_le_broadcast.trans hlast⟩
    obtain ⟨hdp, hdm⟩ := h.kind d hd
    rwa [← Block.eq_of_contains_base (hdp.trans hp.symm) (hdm.trans hm.symm) hdc]

end EvenTiling

/-! ## Covers in any order -/

/-- The blocks hold the addresses from `first` to `last` and no others. -/
def Covers (blocks : List AnyBlock) (first last : AnyAddress) : Prop :=
  ∀ x : AnyAddress, (∃ b ∈ blocks, b.Contains x) ↔ first ≤ x ∧ x ≤ last

variable {first last : Address f}

theorem Tiling.covers {blocks : List (Block f)} (h : Tiling first last blocks) :
    Covers (blocks.map (⟨f, ·⟩)) ⟨f, first⟩ ⟨f, last⟩ := by
  intro x
  have hcount := h.countP_any_contains x
  have hpos := List.countP_pos_iff (p := (·.Contains x)) (l := (blocks.map (⟨f, ·⟩) : List AnyBlock))
  simp only [decide_eq_true_eq] at hpos
  rw [← hpos, hcount]
  split <;> simp_all

/-- Blocks that cover a range are of its family. -/
theorem Covers.exists_map {others : List AnyBlock} {first last : Address f}
    (h : Covers others ⟨f, first⟩ ⟨f, last⟩) : ∃ blocks : List (Block f), others = blocks.map (⟨f, ·⟩) := by
  have hfamily : ∀ b ∈ others, b.family = f := by
    rintro ⟨g, b⟩ hb
    have hbase : AnyBlock.Contains ⟨g, b⟩ ⟨g, b.base⟩ := AnyBlock.contains_mk.2 b.contains_base
    obtain ⟨a, ha, -, -⟩ := AnyAddress.between_iff.1 ((h _).1 ⟨_, hb, hbase⟩)
    exact congrArg AnyAddress.family ha
  clear h
  induction others with
  | nil => exact ⟨[], rfl⟩
  | cons b others ih =>
    obtain ⟨blocks, rfl⟩ := ih fun c hc => hfamily c (List.mem_cons_of_mem b hc)
    obtain ⟨g, b⟩ := b
    obtain rfl : g = f := hfamily _ List.mem_cons_self
    exact ⟨b :: blocks, rfl⟩

theorem Covers.of_map {blocks : List (Block f)} {first last : Address f}
    (h : Covers (blocks.map (⟨f, ·⟩)) ⟨f, first⟩ ⟨f, last⟩) (a : Address f) :
    (∃ b ∈ blocks, b.Contains a) ↔ first ≤ a ∧ a ≤ last := by
  have := h ⟨f, a⟩
  simpa [AnyBlock.contains_mk, AnyAddress.mk_le_mk] using this

end IpSpace
