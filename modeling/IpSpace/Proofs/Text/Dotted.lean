import IpSpace.Text.Dotted
import IpSpace.Proofs.Text.Numeral
import Mathlib.Data.List.Forall2

/-!
# The texts of four bytes in dotted decimal

A byte is one to three decimal digits without leading zeros, and four such bytes joined by dots are a quad. Reading
accepts exactly the bytes (`readByte?_eq_some_iff`) and the quads (`read?_four_iff`), and writing gives one of them
(`spellsByte_writeByte`, `spellsQuad_write`).
-/
namespace IpSpace.Text.Dotted

/-! ## Bytes -/

/-- The text is the byte in decimal. -/
structure SpellsByte (cs : List Char) (b : UInt8) : Prop where
  within : Numeral.Within 10 3 cs b.toNat
  noLeadingZero : Numeral.NoLeadingZero cs

theorem readByte?_eq_some_iff {cs : List Char} {b : UInt8} : readByte? cs = some b ↔ SpellsByte cs b := by
  unfold readByte?
  split
  · rename_i h
    simp only [reduceCtorEq, false_iff]
    intro hs
    exact h.2 (hs.noLeadingZero h.1)
  · rename_i h
    have hzero : Numeral.NoLeadingZero cs := fun hhead => Classical.not_not.1 fun hne => h ⟨hhead, hne⟩
    simp only [Option.map_eq_some_iff, Option.filter_eq_some_iff, Numeral.read?_eq_some_iff (show 10 ≤ 16 by decide),
      decide_eq_true_eq]
    constructor
    · rintro ⟨value, ⟨hw, hlt⟩, rfl⟩
      exact ⟨by rwa [UInt8.toNat_ofNat_of_lt' hlt], hzero⟩
    · intro hs
      exact ⟨b.toNat, ⟨hs.within, b.toNat_lt⟩, UInt8.ofNat_toNat⟩

theorem spellsByte_writeByte (b : UInt8) : SpellsByte (writeByte b) b := by
  have hb : b.toNat < 10 ^ 3 := Nat.lt_trans b.toNat_lt (by decide)
  obtain ⟨hw, hzero, -⟩ := Numeral.write_plain (by decide) (by decide) (by decide) hb
  exact ⟨hw, hzero⟩

theorem SpellsByte.not_mem {cs : List Char} {b : UInt8} (h : SpellsByte cs b) {c : Char} (hc : digitValue? c = none) :
    c ∉ cs := h.within.spells.not_mem (by decide) hc

/-! ## Four bytes -/

/-- The text is four bytes in decimal, joined by dots. -/
inductive SpellsQuad : List Char → List UInt8 → Prop
  | quad {p q r s : List Char} {a b c d : UInt8} : SpellsByte p a → SpellsByte q b → SpellsByte r c → SpellsByte s d →
      SpellsQuad (p ++ '.' :: (q ++ '.' :: (r ++ '.' :: s))) [a, b, c, d]

theorem SpellsQuad.length_eq {cs : List Char} {bytes : List UInt8} (h : SpellsQuad cs bytes) : bytes.length = 4 := by
  cases h with
  | quad => rfl

theorem SpellsQuad.mem_dot {cs : List Char} {bytes : List UInt8} (h : SpellsQuad cs bytes) : '.' ∈ cs := by
  cases h with
  | quad => simp

theorem SpellsQuad.not_mem {cs : List Char} {bytes : List UInt8} (h : SpellsQuad cs bytes) {c : Char} (hdot : c ≠ '.')
    (hc : digitValue? c = none) : c ∉ cs := by
  cases h with
  | quad hp hq hr hs => simp [hdot, hp.not_mem hc, hq.not_mem hc, hr.not_mem hc, hs.not_mem hc]

theorem SpellsQuad.subset {cs : List Char} {bytes : List UInt8} (h : SpellsQuad cs bytes) :
    cs ⊆ '.' :: hexDigits := by
  have hbyte {p : List Char} {a : UInt8} (hp : SpellsByte p a) : p ⊆ '.' :: hexDigits :=
    List.subset_cons_of_subset _ (hp.within.spells.subset_hexDigits (by decide))
  cases h with
  | quad hp hq hr hs => simp [hbyte hp, hbyte hq, hbyte hr, hbyte hs]

theorem mapM_eq_some_iff {α β : Type} {f : α → Option β} {xs : List α} {ys : List β} :
    xs.mapM f = some ys ↔ List.Forall₂ (fun x y => f x = some y) xs ys := by
  induction xs generalizing ys with
  | nil => cases ys <;> simp
  | cons x xs ih => cases ys <;> simp [Option.bind_eq_some_iff, ih]

theorem read?_four_iff {cs : List Char} {bytes : List UInt8} :
    (read? cs = some bytes ∧ bytes.length = 4) ↔ SpellsQuad cs bytes := by
  have hdot : digitValue? '.' = none := rfl
  simp only [read?, mapM_eq_some_iff, readByte?_eq_some_iff]
  constructor
  · intro ⟨hbytes, hlength⟩
    have hcs := intercalate_pieces '.' cs
    obtain ⟨a, b, c, d, rfl⟩ := List.length_eq_four.1 hlength
    simp only [List.forall₂_cons_right_iff, List.forall₂_nil_right_iff] at hbytes
    obtain ⟨p, _, hp, ⟨q, _, hq, ⟨r, _, hr, ⟨s, _, hs, rfl, rfl⟩, rfl⟩, rfl⟩, hpieces⟩ := hbytes
    rw [hpieces] at hcs
    subst hcs
    simpa [List.intercalate_cons_cons] using SpellsQuad.quad hp hq hr hs
  · rintro ⟨hp, hq, hr, hs⟩
    rw [pieces_append (hp.not_mem hdot), pieces_append (hq.not_mem hdot), pieces_append (hr.not_mem hdot),
      pieces_of_not_mem (hs.not_mem hdot)]
    simp [hp, hq, hr, hs]

theorem spellsQuad_write {bytes : List UInt8} (h : bytes.length = 4) : SpellsQuad (write bytes) bytes := by
  obtain ⟨a, b, c, d, rfl⟩ := List.length_eq_four.1 h
  have hquad := SpellsQuad.quad (spellsByte_writeByte a) (spellsByte_writeByte b) (spellsByte_writeByte c)
    (spellsByte_writeByte d)
  simpa [write, List.intercalate_cons_cons] using hquad

end IpSpace.Text.Dotted
