import IpSpace.Text.Numeral

/-!
# Quoted text in JSON

Reads the characters between two quotes. A backslash begins an escape: one of eight letters, or `u` and four
hexadecimal digits for a unit of UTF-16, of which a surrogate counts only in a pair. Control characters have to be
escaped.
-/
namespace IpSpace.Json

/-- What a letter after a backslash stands for. -/
def letterEscape? : Char → Option Char
  | '\x22' => some '\x22'
  | '\\' => some '\\'
  | '/' => some '/'
  | 'b' => some '\x08'
  | 'f' => some '\x0c'
  | 'n' => some '\n'
  | 'r' => some '\r'
  | 't' => some '\t'
  | _ => none

/-- Reads four hexadecimal digits: their value and the text after them. -/
def readUnit? : List Char → Option (Nat × List Char)
  | a :: b :: c :: d :: cs => (Text.Numeral.readFrom? 16 0 [a, b, c, d]).map (·, cs)
  | _ => none

/-- Reads the second unit of a pair, with its escape. -/
def readLow? : List Char → Option (Nat × List Char)
  | '\\' :: 'u' :: cs => (readUnit? cs).filter fun (low, _) => 0xdc00 ≤ low ∧ low ≤ 0xdfff
  | _ => none

/-- Reads the character of an escape by units, after its `u`. -/
def readUnits? (cs : List Char) : Option (Char × List Char) :=
  match readUnit? cs with
  | none => none
  | some (unit, cs) =>
    if unit < 0xd800 ∨ 0xdfff < unit then some (Char.ofNat unit, cs)
    else if unit < 0xdc00 then
      (readLow? cs).map fun (low, cs) => (Char.ofNat (0x10000 + (unit - 0xd800) * 0x400 + (low - 0xdc00)), cs)
    else none

/-- Reads the character of an escape, after its backslash. -/
def readEscape? : List Char → Option (Char × List Char)
  | [] => none
  | c :: cs => if c = 'u' then readUnits? cs else (letterEscape? c).map (·, cs)

theorem length_of_readUnit? {cs rest : List Char} {unit : Nat} (h : readUnit? cs = some (unit, rest)) :
    rest.length < cs.length := by
  unfold readUnit? at h
  split at h
  · obtain ⟨_, _, h⟩ := Option.map_eq_some_iff.1 h
    cases h; simp; omega
  · cases h

theorem length_of_readLow? {cs rest : List Char} {low : Nat} (h : readLow? cs = some (low, rest)) :
    rest.length < cs.length := by
  unfold readLow? at h
  split at h
  · have := length_of_readUnit? (Option.filter_eq_some_iff.1 h).1
    simp; omega
  · cases h

theorem length_of_readUnits? {cs rest : List Char} {c : Char} (h : readUnits? cs = some (c, rest)) :
    rest.length < cs.length := by
  unfold readUnits? at h
  split at h
  · cases h
  · have hu := length_of_readUnit? ‹_›
    split at h
    · rw [← (Prod.mk.inj (Option.some.inj h)).2]; exact hu
    · split at h
      · obtain ⟨⟨_, _⟩, hl, h⟩ := Option.map_eq_some_iff.1 h
        rw [← (Prod.mk.inj h).2]
        exact Nat.lt_trans (length_of_readLow? hl) hu
      · cases h

theorem length_of_readEscape? {cs rest : List Char} {c : Char} (h : readEscape? cs = some (c, rest)) :
    rest.length < cs.length := by
  unfold readEscape? at h
  split at h
  · cases h
  · split at h
    · exact Nat.lt_succ_of_lt (length_of_readUnits? h)
    · obtain ⟨_, _, h⟩ := Option.map_eq_some_iff.1 h
      rw [← (Prod.mk.inj h).2]; exact Nat.lt_succ_self _

/-- Reads up to the closing quote: the characters in front of it and the text after it. -/
def readQuoted? : List Char → Option (List Char × List Char)
  | [] => none
  | c :: cs =>
    if c = '\x22' then some ([], cs)
    else if c = '\\' then
      match _h : readEscape? cs with
      | none => none
      | some (d, rest) => (readQuoted? rest).map fun (ds, rest) => (d :: ds, rest)
    else if c < ' ' then none
    else (readQuoted? cs).map fun (ds, rest) => (c :: ds, rest)
termination_by cs => cs.length
decreasing_by
  · exact Nat.lt_succ_of_lt (length_of_readEscape? ‹_›)
  · exact Nat.lt_succ_self _

theorem length_of_readQuoted? {cs text rest : List Char} (h : readQuoted? cs = some (text, rest)) :
    rest.length < cs.length := by
  fun_induction readQuoted? cs generalizing text with
  | case1 => cases h
  | case2 cs => cases h; exact Nat.lt_succ_self _
  | case3 => cases h
  | case4 cs d tail he _ ih =>
    obtain ⟨⟨_, _⟩, hq, h⟩ := Option.map_eq_some_iff.1 h
    rw [(Prod.mk.inj h).2] at hq
    exact Nat.lt_succ_of_lt (Nat.lt_trans (ih hq) (length_of_readEscape? he))
  | case5 => cases h
  | case6 c cs _ _ _ ih =>
    obtain ⟨⟨_, _⟩, hq, h⟩ := Option.map_eq_some_iff.1 h
    rw [(Prod.mk.inj h).2] at hq
    exact Nat.lt_succ_of_lt (ih hq)

end IpSpace.Json
