import IpSpace.Json.Quoted
import IpSpace.Proofs.Text.Numeral

/-!
# The texts between quotes

`SpellsText raw text` says that the characters `raw` between two quotes stand for `text`: an escape stands for one character,
and every character but the quote, the backslash and the control characters may stand for itself. Reading up to a quote
accepts exactly these texts (`readQuoted?_eq_some_iff`).
-/
namespace IpSpace.Json

/-! ## Escapes -/

/-- Four hexadecimal digits, a unit of UTF-16. -/
structure SpellsUnit (cs : List Char) (unit : Nat) : Prop where
  length_eq : cs.length = 4
  spells : Text.Numeral.Spells 16 cs unit

/-- The letters that may follow a backslash, and what they stand for. -/
def letterEscapes : List (Char × Char) :=
  [('\x22', '\x22'), ('\\', '\\'), ('/', '/'), ('b', '\x08'), ('f', '\x0c'), ('n', '\n'), ('r', '\r'), ('t', '\t')]

/-- The text after a backslash stands for the character. A surrogate does so only in a pair. -/
inductive SpellsEscape : List Char → Char → Prop
  | letter {e c : Char} : (e, c) ∈ letterEscapes → SpellsEscape [e] c
  | unit {cs : List Char} {unit : Nat} : SpellsUnit cs unit → unit < 0xd800 ∨ 0xdfff < unit →
      SpellsEscape ('u' :: cs) (Char.ofNat unit)
  | pair {cs ds : List Char} {high low : Nat} : SpellsUnit cs high → 0xd800 ≤ high → high < 0xdc00 →
      SpellsUnit ds low → 0xdc00 ≤ low → low ≤ 0xdfff →
      SpellsEscape ('u' :: (cs ++ '\\' :: 'u' :: ds))
        (Char.ofNat (0x10000 + (high - 0xd800) * 0x400 + (low - 0xdc00)))

variable {cs rest : List Char} {c : Char}

theorem letterEscape?_eq_some_iff {e : Char} : letterEscape? e = some c ↔ (e, c) ∈ letterEscapes := by
  unfold letterEscape? letterEscapes
  split <;> simp_all [eq_comm]

theorem readUnit?_eq_some_iff {unit : Nat} :
    readUnit? cs = some (unit, rest) ↔ ∃ ds, SpellsUnit ds unit ∧ cs = ds ++ rest := by
  have hread {ds : List Char} : Text.Numeral.readFrom? 16 0 ds = some unit ↔ Text.Numeral.Spells 16 ds unit :=
    Text.Numeral.readFrom?_zero_eq_some_iff (Nat.le_refl 16)
  constructor
  · intro h
    unfold readUnit? at h
    split at h
    · rename_i a b c d cs
      obtain ⟨_, hvalue, heq⟩ := Option.map_eq_some_iff.1 h
      cases heq
      exact ⟨[a, b, c, d], ⟨rfl, hread.1 hvalue⟩, rfl⟩
    · cases h
  · rintro ⟨ds, hds, rfl⟩
    obtain ⟨a, b, c, d, rfl⟩ := List.length_eq_four.1 hds.length_eq
    simp [readUnit?, hread.2 hds.spells]

theorem readLow?_eq_some_iff {low : Nat} :
    readLow? cs = some (low, rest) ↔
      ∃ ds, SpellsUnit ds low ∧ 0xdc00 ≤ low ∧ low ≤ 0xdfff ∧ cs = '\\' :: 'u' :: (ds ++ rest) := by
  constructor
  · intro h
    unfold readLow? at h
    split at h
    · simp only [Option.filter_eq_some_iff, decide_eq_true_eq] at h
      obtain ⟨ds, hds, rfl⟩ := readUnit?_eq_some_iff.1 h.1
      exact ⟨ds, hds, h.2.1, h.2.2, rfl⟩
    · cases h
  · rintro ⟨ds, hds, hlow, hhigh, rfl⟩
    simp [readLow?, readUnit?_eq_some_iff.2 ⟨ds, hds, rfl⟩, Option.filter, hlow, hhigh]

theorem readUnits?_eq_some_iff :
    readUnits? cs = some (c, rest) ↔ ∃ es, SpellsEscape ('u' :: es) c ∧ cs = es ++ rest := by
  constructor
  · intro h
    unfold readUnits? at h
    split at h
    · cases h
    · rename_i unit cs hunit
      obtain ⟨ds, hds, rfl⟩ := readUnit?_eq_some_iff.1 hunit
      split at h
      · rename_i hplain
        cases h
        exact ⟨ds, .unit hds hplain, rfl⟩
      · rename_i hsurrogate
        split at h
        · rename_i hhigh
          obtain ⟨⟨low, _⟩, hlow, heq⟩ := Option.map_eq_some_iff.1 h
          obtain ⟨rfl, rfl⟩ := Prod.mk.inj heq
          obtain ⟨ls, hls, hle, hge, rfl⟩ := readLow?_eq_some_iff.1 hlow
          exact ⟨ds ++ '\\' :: 'u' :: ls, .pair hds (by omega) hhigh hls hle hge, by simp⟩
        · cases h
  · rintro ⟨es, hes, rfl⟩
    cases hes with
    | letter hmem => simp [letterEscapes] at hmem
    | unit hds hplain => simp [readUnits?, readUnit?_eq_some_iff.2 ⟨_, hds, rfl⟩, hplain]
    | pair hds hge hhigh hls hle hlow =>
      rw [readUnits?, List.append_assoc, readUnit?_eq_some_iff.2 ⟨_, hds, rfl⟩]
      simp only [List.cons_append]
      rw [if_neg (by omega), if_pos hhigh, readLow?_eq_some_iff.2 ⟨_, hls, hle, hlow, rfl⟩, Option.map_some]

theorem readEscape?_eq_some_iff :
    readEscape? cs = some (c, rest) ↔ ∃ es, SpellsEscape es c ∧ cs = es ++ rest := by
  constructor
  · intro h
    unfold readEscape? at h
    split at h
    · cases h
    · rename_i e cs
      split at h
      · rename_i hu
        obtain ⟨es, hes, rfl⟩ := readUnits?_eq_some_iff.1 h
        exact ⟨'u' :: es, hes, hu ▸ rfl⟩
      · obtain ⟨_, hletter, heq⟩ := Option.map_eq_some_iff.1 h
        cases heq
        exact ⟨[e], .letter (letterEscape?_eq_some_iff.1 hletter), rfl⟩
  · rintro ⟨es, hes, rfl⟩
    cases hes with
    | letter hmem =>
      have hletter := letterEscape?_eq_some_iff.2 hmem
      rw [List.singleton_append, readEscape?, if_neg, hletter, Option.map_some]
      rintro rfl
      cases hletter
    | unit hds hplain => exact readUnits?_eq_some_iff.2 ⟨_, .unit hds hplain, rfl⟩
    | pair hds hge hhigh hls hle hlow => exact readUnits?_eq_some_iff.2 ⟨_, .pair hds hge hhigh hls hle hlow, rfl⟩

/-! ## Whole texts -/

/-- The text between two quotes stands for the characters. -/
inductive SpellsText : List Char → List Char → Prop
  | nil : SpellsText [] []
  | plain {c : Char} {cs ds : List Char} : c ≠ '\x22' → c ≠ '\\' → ' ' ≤ c → SpellsText cs ds →
      SpellsText (c :: cs) (c :: ds)
  | escape {es cs ds : List Char} {c : Char} : SpellsEscape es c → SpellsText cs ds →
      SpellsText ('\\' :: (es ++ cs)) (c :: ds)

theorem readQuoted?_escape (h : readEscape? cs = some (c, rest)) :
    readQuoted? ('\\' :: cs) = (readQuoted? rest).map fun (ds, rest) => (c :: ds, rest) := by
  rw [readQuoted?, if_neg (by decide), if_pos rfl]
  split <;> simp_all

theorem readQuoted?_eq_some_iff {text : List Char} :
    readQuoted? cs = some (text, rest) ↔ ∃ raw, SpellsText raw text ∧ cs = raw ++ '\x22' :: rest := by
  constructor
  · intro h
    fun_induction readQuoted? cs generalizing text with
    | case1 => cases h
    | case2 cs =>
      cases h
      exact ⟨[], .nil, rfl⟩
    | case3 => cases h
    | case4 cs d tail he _ ih =>
      obtain ⟨⟨ds, _⟩, hq, heq⟩ := Option.map_eq_some_iff.1 h
      cases heq
      obtain ⟨raw, hraw, rfl⟩ := ih hq
      obtain ⟨es, hes, rfl⟩ := readEscape?_eq_some_iff.1 he
      exact ⟨'\\' :: (es ++ raw), .escape hes hraw, by simp⟩
    | case5 => cases h
    | case6 c cs hquote hslash hcontrol ih =>
      obtain ⟨⟨ds, _⟩, hq, heq⟩ := Option.map_eq_some_iff.1 h
      cases heq
      obtain ⟨raw, hraw, rfl⟩ := ih hq
      exact ⟨c :: raw, .plain hquote hslash (Char.not_lt.1 hcontrol) hraw, rfl⟩
  · rintro ⟨raw, hraw, rfl⟩
    induction hraw with
    | nil => rw [List.nil_append, readQuoted?, if_pos rfl]
    | plain hquote hslash hcontrol _ ih =>
      rw [List.cons_append, readQuoted?, if_neg hquote, if_neg hslash, if_neg (Char.not_lt.2 hcontrol), ih, Option.map_some]
    | escape hes _ ih =>
      rw [List.cons_append, List.append_assoc, readQuoted?_escape (readEscape?_eq_some_iff.2 ⟨_, hes, rfl⟩), ih,
        Option.map_some]

end IpSpace.Json
