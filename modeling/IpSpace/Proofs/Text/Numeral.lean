import IpSpace.Text.Numeral
import Mathlib.Data.List.Basic

/-!
# Numerals and their values

`Numeral.Spells base cs value` says that the digits `cs` make up `value`: a digit counts its value times the base to the
number of digits after it. A numeral of bounded width is such a text of one digit or more.

* `Numeral.read?_eq_some_iff`: reading accepts exactly the numerals of the width, and gives their value.
* `Numeral.write_plain`: writing gives a numeral in lower case, without leading zeros.
-/
namespace IpSpace.Text

/-! ## Digits -/

/-- `c` is the digit of a base that counts `value`, in either case. -/
def IsDigit (base : Nat) (c : Char) (value : Nat) : Prop :=
  value < base ∧ (c = Nat.digitChar value ∨ c = (Nat.digitChar value).toUpper)

theorem IsDigit.mono {base base' : Nat} {c : Char} {value : Nat} (h : IsDigit base c value) (hb : base ≤ base') :
    IsDigit base' c value := ⟨Nat.lt_of_lt_of_le h.1 hb, h.2⟩

theorem toNat_digitChar {value : Nat} (h : value < 16) :
    (Nat.digitChar value).toNat = if value < 10 then value + 48 else value + 87 := by
  revert value; decide

theorem toNat_toUpper_digitChar {value : Nat} (h : value < 16) :
    (Nat.digitChar value).toUpper.toNat = if value < 10 then value + 48 else value + 55 := by
  revert value; decide

theorem digitValue?_eq (c : Char) :
    digitValue? c =
      if 48 ≤ c.toNat ∧ c.toNat ≤ 57 then some (c.toNat - 48)
      else if 97 ≤ c.toNat ∧ c.toNat ≤ 102 then some (c.toNat - 87)
      else if 65 ≤ c.toNat ∧ c.toNat ≤ 70 then some (c.toNat - 55)
      else none := rfl

theorem digitValue?_eq_some_iff {c : Char} {value : Nat} : digitValue? c = some value ↔ IsDigit 16 c value := by
  rw [digitValue?_eq]
  constructor
  · intro h
    have hv : value < 16 := by grind
    rw [IsDigit, ← Char.toNat_inj, ← Char.toNat_inj, toNat_digitChar hv, toNat_toUpper_digitChar hv]
    grind
  · rintro ⟨hv, rfl | rfl⟩
    · rw [toNat_digitChar hv]; grind
    · rw [toNat_toUpper_digitChar hv]; grind

theorem digitOf?_eq_some_iff {base : Nat} (hb : base ≤ 16) {c : Char} {value : Nat} :
    digitOf? base c = some value ↔ IsDigit base c value := by
  simp only [digitOf?, Option.filter_eq_some_iff, digitValue?_eq_some_iff, decide_eq_true_eq]
  constructor
  · intro ⟨h, hlt⟩
    exact ⟨hlt, h.2⟩
  · intro h
    exact ⟨h.mono hb, h.1⟩

/-- A character is a digit of one value at most. -/
theorem IsDigit.unique {base : Nat} (hb : base ≤ 16) {c : Char} {m n : Nat} (hm : IsDigit base c m)
    (hn : IsDigit base c n) : m = n :=
  Option.some.inj ((digitOf?_eq_some_iff hb).2 hm ▸ (digitOf?_eq_some_iff hb).2 hn)

theorem IsDigit.isDigit {c : Char} {value : Nat} (h : IsDigit 10 c value) : c.isDigit = true := by
  have key : ∀ value < 10, (Nat.digitChar value).isDigit ∧ (Nat.digitChar value).toUpper.isDigit := by decide
  obtain ⟨hv, rfl | rfl⟩ := h
  · exact (key value hv).1
  · exact (key value hv).2

/-- The digits of all bases up to sixteen, in either case. -/
def hexDigits : List Char := "0123456789abcdefABCDEF".toList

theorem IsDigit.mem_hexDigits {base : Nat} (hb : base ≤ 16) {c : Char} {value : Nat} (h : IsDigit base c value) :
    c ∈ hexDigits := by
  have key : ∀ value < 16, Nat.digitChar value ∈ hexDigits ∧ (Nat.digitChar value).toUpper ∈ hexDigits := by decide
  obtain ⟨hv, hc⟩ := h
  obtain ⟨hlower, hupper⟩ := key value (Nat.lt_of_lt_of_le hv hb)
  rcases hc with rfl | rfl
  · exact hlower
  · exact hupper

namespace Numeral

variable {base width value : Nat} {cs : List Char}

/-! ## Values -/

/-- The digits make up the value. -/
inductive Spells (base : Nat) : List Char → Nat → Prop
  | nil : Spells base [] 0
  | cons {c : Char} {cs : List Char} {digit value : Nat} : IsDigit base c digit → Spells base cs value →
      Spells base (c :: cs) (digit * base ^ cs.length + value)

/-- A text of one to `width` digits that make up the value. -/
structure Within (base width : Nat) (cs : List Char) (value : Nat) : Prop where
  ne_nil : cs ≠ []
  length_le : cs.length ≤ width
  spells : Spells base cs value

/-- Zero begins no text but its own. -/
def NoLeadingZero (cs : List Char) : Prop := cs.head? = some '0' → cs = ['0']

theorem Spells.exists_isDigit (h : Spells base cs value) {c : Char} (hc : c ∈ cs) : ∃ digit, IsDigit base c digit := by
  induction h with
  | nil => cases hc
  | cons hd _ ih =>
    rcases List.mem_cons.1 hc with rfl | hc
    · exact ⟨_, hd⟩
    · exact ih hc

theorem Spells.not_mem (h : Spells base cs value) (hb : base ≤ 16) {c : Char} (hc : digitValue? c = none) : c ∉ cs := by
  intro hmem
  obtain ⟨digit, hd⟩ := h.exists_isDigit hmem
  rw [digitValue?_eq_some_iff.2 (hd.mono hb)] at hc
  cases hc

theorem Spells.subset_hexDigits (h : Spells base cs value) (hb : base ≤ 16) : cs ⊆ hexDigits := by
  intro c hc
  obtain ⟨digit, hd⟩ := h.exists_isDigit hc
  exact hd.mem_hexDigits hb

/-! ## Reading -/

/-- What is read is worth what the digits so far are worth in front of the rest. -/
theorem readFrom?_eq_some_iff (hb : base ≤ 16) {start : Nat} :
    readFrom? base start cs = some value ↔ ∃ rest, Spells base cs rest ∧ value = start * base ^ cs.length + rest := by
  induction cs generalizing start with
  | nil =>
    simp only [readFrom?, Option.some.injEq, List.length_nil, Nat.pow_zero, Nat.mul_one]
    constructor
    · rintro rfl
      exact ⟨0, .nil, rfl⟩
    · rintro ⟨_, ⟨⟩, rfl⟩
      rfl
  | cons c cs ih =>
    have hshift (digit rest : Nat) : (base * start + digit) * base ^ cs.length + rest =
        start * base ^ (cs.length + 1) + (digit * base ^ cs.length + rest) := by
      rw [Nat.pow_succ, Nat.add_mul, Nat.mul_comm base start, Nat.mul_assoc, Nat.mul_comm base, Nat.add_assoc]
    simp only [readFrom?, Option.bind_eq_bind, Option.bind_eq_some_iff, digitOf?_eq_some_iff hb, ih, hshift,
      List.length_cons]
    constructor
    · rintro ⟨digit, hd, rest, hrest, rfl⟩
      exact ⟨_, .cons hd hrest, rfl⟩
    · rintro ⟨_, hs, rfl⟩
      cases hs with
      | cons hd hrest => exact ⟨_, hd, _, hrest, rfl⟩

theorem readFrom?_zero_eq_some_iff (hb : base ≤ 16) : readFrom? base 0 cs = some value ↔ Spells base cs value := by
  simp [readFrom?_eq_some_iff hb]

theorem read?_eq_some_iff (hb : base ≤ 16) : read? base width cs = some value ↔ Within base width cs value := by
  rw [read?]
  split
  · rename_i h
    rw [readFrom?_zero_eq_some_iff hb]
    exact ⟨fun hs => ⟨h.1, h.2, hs⟩, Within.spells⟩
  · rename_i h
    simp only [reduceCtorEq, false_iff]
    intro hw
    exact h ⟨hw.ne_nil, hw.length_le⟩

/-! ## Writing -/

@[simp] theorem length_digits : (digits base width value).length = width := by
  induction width with
  | zero => rfl
  | succ width ih => simp [digits, ih]

theorem spells_digits (hb : 0 < base) : Spells base (digits base width value) (value % base ^ width) := by
  induction width with
  | zero => simpa [digits, Nat.mod_one] using Spells.nil
  | succ width ih =>
    have hd : IsDigit base (Nat.digitChar (value / base ^ width % base)) (value / base ^ width % base) :=
      ⟨Nat.mod_lt _ hb, .inl rfl⟩
    have h := Spells.cons hd ih
    rwa [length_digits, Nat.mul_comm, Nat.add_comm, ← Nat.mod_mul, ← Nat.pow_succ] at h

theorem trim_subset (cs : List Char) : trim cs ⊆ cs := by
  fun_induction trim cs with
  | case1 d cs ih => exact List.subset_cons_of_subset _ ih
  | case2 => exact List.Subset.refl _
  | case3 => exact List.Subset.refl _

theorem length_trim_le (cs : List Char) : (trim cs).length ≤ cs.length := by
  fun_induction trim cs with
  | case1 d cs ih => exact Nat.le_succ_of_le ih
  | case2 => exact Nat.le_refl _
  | case3 => exact Nat.le_refl _

theorem trim_ne_nil (h : cs ≠ []) : trim cs ≠ [] := by
  fun_induction trim cs with
  | case1 d cs ih => exact ih (List.cons_ne_nil _ _)
  | case2 => exact h
  | case3 => exact h

theorem noLeadingZero_trim (cs : List Char) : NoLeadingZero (trim cs) := by
  fun_induction trim cs with
  | case1 d cs ih => exact ih
  | case2 c d cs h => simp [NoLeadingZero, h]
  | case3 cs h =>
    cases cs with
    | nil => simp [NoLeadingZero]
    | cons c cs =>
      cases cs with
      | nil => simp [NoLeadingZero]
      | cons d cs => exact absurd rfl (h c d cs)

theorem spells_trim (hb : base ≤ 16) (h : Spells base cs value) : Spells base (trim cs) value := by
  fun_induction trim cs generalizing value with
  | case1 d cs ih =>
    cases h with
    | @cons _ _ digit rest hd hrest =>
      have hzero : digit = 0 :=
        hd.unique hb ⟨Nat.zero_lt_of_lt hd.1, .inl rfl⟩
      rw [hzero, Nat.zero_mul, Nat.zero_add]
      exact ih hrest
  | case2 => exact h
  | case3 => exact h

theorem isUpper_of_mem_digits (hb : 0 < base) (hb' : base ≤ 16) {c : Char} (h : c ∈ digits base width value) :
    c.isUpper = false := by
  have hlower : ∀ digit < 16, (Nat.digitChar digit).isUpper = false := by decide
  induction width with
  | zero => cases h
  | succ width ih =>
    rcases List.mem_cons.1 h with rfl | h
    · exact hlower _ (Nat.lt_of_lt_of_le (Nat.mod_lt _ hb) hb')
    · exact ih h

theorem write_plain (hb : 0 < base) (hb' : base ≤ 16) (hwidth : 0 < width) (h : value < base ^ width) :
    Within base width (write base width value) value ∧ NoLeadingZero (write base width value) ∧
      ∀ c ∈ write base width value, c.isUpper = false := by
  have hne : digits base width value ≠ [] := by
    rw [← List.length_pos_iff, length_digits]; exact hwidth
  have hspells : Spells base (digits base width value) (value % base ^ width) := spells_digits hb
  rw [Nat.mod_eq_of_lt h] at hspells
  refine ⟨⟨trim_ne_nil hne, ?_, spells_trim hb' hspells⟩, noLeadingZero_trim _, ?_⟩
  · simpa [write] using length_trim_le (digits base width value)
  · intro c hc
    exact isUpper_of_mem_digits hb hb' (trim_subset _ hc)

end Numeral

end IpSpace.Text
