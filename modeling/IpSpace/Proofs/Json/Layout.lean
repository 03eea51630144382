import IpSpace.Json.Token
import IpSpace.Proofs.Json.Quoted
import Mathlib.Data.List.Chain
import Mathlib.Data.List.Forall2

/-!
# Tokens and the texts they are laid out in

A token has its lexemes (`Lexeme`): punctuation and numbers are written in one way, a quoted text also with escapes. A text
lays out a list of lexemes if it is the lexemes in order with blanks before, between and after them (`Laid`).

Scanning gives the tokens whose lexemes a text lays out (`scan_eq_some_iff`). Two numbers side by side are left out there:
without a blank between them they are one number.
-/
namespace IpSpace.Json

/-! ## Lexemes -/

/-- The text may be written for the token. -/
inductive Lexeme : Token → List Char → Prop
  | openArray : Lexeme .openArray ['[']
  | closeArray : Lexeme .closeArray [']']
  | openObject : Lexeme .openObject ['\x7b']
  | closeObject : Lexeme .closeObject ['\x7d']
  | comma : Lexeme .comma [',']
  | colon : Lexeme .colon [':']
  | number {digits : List Char} : digits ≠ [] → (∀ c ∈ digits, c.isDigit) → Lexeme (.number digits) digits
  | string {raw text : List Char} : SpellsText raw text → Lexeme (.string text) ('\x22' :: raw ++ ['\x22'])

/-- The token has one lexeme, the one that is written. -/
def Token.Plain : Token → Prop
  | .string _ => False
  | .number digits => digits ≠ [] ∧ ∀ c ∈ digits, c.isDigit
  | _ => True

theorem lexeme_iff_eq_write {t : Token} (ht : t.Plain) {l : List Char} : Lexeme t l ↔ l = t.write := by
  constructor
  · intro h
    cases h with
    | string => exact ht.elim
    | _ => rfl
  · rintro rfl
    cases t with
    | number digits => exact .number ht.1 ht.2
    | string => exact ht.elim
    | _ => constructor

theorem lexeme_string_iff {text l : List Char} :
    Lexeme (.string text) l ↔ ∃ raw, SpellsText raw text ∧ l = '\x22' :: raw ++ ['\x22'] := by
  constructor
  · intro h
    cases h with
    | string hraw => exact ⟨_, hraw, rfl⟩
  · rintro ⟨raw, hraw, rfl⟩
    exact .string hraw

theorem forall₂_lexeme_iff {ts : List Token} (hts : ∀ t ∈ ts, t.Plain) {ls : List (List Char)} :
    List.Forall₂ Lexeme ts ls ↔ ls = ts.map Token.write := by
  induction ts generalizing ls with
  | nil => simp
  | cons t ts ih =>
    obtain ⟨ht, hts⟩ := List.forall_mem_cons.1 hts
    simp [List.forall₂_cons_left_iff, lexeme_iff_eq_write ht, ih hts]

def Token.IsNumber : Token → Prop
  | .number _ => True
  | _ => False

/-- No two neighbours are both numbers. -/
def Apart (ts : List Token) : Prop := ts.IsChain fun s t => ¬ (s.IsNumber ∧ t.IsNumber)

/-! ## Layout -/

/-- The text is the lexemes with blanks before, between and after them. -/
inductive Laid : List (List Char) → List Char → Prop
  | nil {blanks : List Char} : (∀ c ∈ blanks, isBlank c) → Laid [] blanks
  | cons {blanks l cs : List Char} {ls : List (List Char)} : (∀ c ∈ blanks, isBlank c) → Laid ls cs →
      Laid (l :: ls) (blanks ++ (l ++ cs))

variable {c : Char} {cs l : List Char} {ls : List (List Char)} {t : Token} {ts : List Token}

theorem Laid.blank (hc : isBlank c) (h : Laid ls cs) : Laid ls (c :: cs) := by
  cases h with
  | nil hblanks => exact .nil (List.forall_mem_cons.2 ⟨hc, hblanks⟩)
  | @cons blanks _ _ _ hblanks h =>
    have hall : ∀ b ∈ c :: blanks, isBlank b := List.forall_mem_cons.2 ⟨hc, hblanks⟩
    exact .cons hall h

theorem Laid.lexeme (h : Laid ls cs) : Laid (l :: ls) (l ++ cs) := by
  have hnone : ∀ c ∈ ([] : List Char), isBlank c := List.forall_mem_nil _
  exact .cons hnone h

/-- Lexemes one right after the other are laid out. -/
theorem laid_flatten (ls : List (List Char)) : Laid ls ls.flatten := by
  induction ls with
  | nil => exact .nil (by simp)
  | cons l ls ih => exact ih.lexeme

/-! ## What is scanned is laid out -/

theorem lexeme_of_ofChar? (h : Token.ofChar? c = some t) : Lexeme t [c] := by
  unfold Token.ofChar? at h
  split at h <;> cases h <;> constructor

theorem laid_of_scan (h : scan cs = some ts) : ∃ ls, List.Forall₂ Lexeme ts ls ∧ Laid ls cs := by
  fun_induction scan cs generalizing ts with
  | case1 =>
    cases h
    exact ⟨[], .nil, .nil (by simp)⟩
  | case2 c cs hblank ih =>
    obtain ⟨ls, hlex, hlaid⟩ := ih h
    exact ⟨ls, hlex, hlaid.blank hblank⟩
  | case3 c cs _ hdigit ih =>
    obtain ⟨ts, hts, rfl⟩ := Option.map_eq_some_iff.1 h
    obtain ⟨ls, hlex, hlaid⟩ := ih hts
    have hnumber : Lexeme (.number (c :: cs.takeWhile Char.isDigit)) (c :: cs.takeWhile Char.isDigit) :=
      .number (List.cons_ne_nil _ _) (List.forall_mem_cons.2 ⟨hdigit, List.all_eq_true.1 List.all_takeWhile⟩)
    have hcs := hlaid.lexeme (l := c :: cs.takeWhile Char.isDigit)
    rw [List.cons_append, List.takeWhile_append_dropWhile] at hcs
    exact ⟨_, .cons hnumber hlex, hcs⟩
  | case4 => cases h
  | @case5 cs text rest hq _ _ ih =>
    obtain ⟨ts, hts, rfl⟩ := Option.map_eq_some_iff.1 h
    obtain ⟨ls, hlex, hlaid⟩ := ih hts
    obtain ⟨raw, hraw, rfl⟩ := readQuoted?_eq_some_iff.1 hq
    have hcs := hlaid.lexeme (l := '\x22' :: raw ++ ['\x22'])
    rw [List.append_assoc, List.cons_append] at hcs
    exact ⟨_, .cons (.string hraw) hlex, hcs⟩
  | case6 => cases h
  | case7 c cs _ _ _ t ht ih =>
    obtain ⟨ts, hts, rfl⟩ := Option.map_eq_some_iff.1 h
    obtain ⟨ls, hlex, hlaid⟩ := ih hts
    exact ⟨_, .cons (lexeme_of_ofChar? ht) hlex, hlaid.lexeme⟩

/-! ## What is laid out is scanned -/

theorem scan_blanks {blanks : List Char} (h : ∀ c ∈ blanks, isBlank c) : scan (blanks ++ cs) = scan cs := by
  induction blanks with
  | nil => rfl
  | cons c blanks ih =>
    obtain ⟨hc, hblanks⟩ := List.forall_mem_cons.1 h
    rw [List.cons_append, scan, if_pos hc, ih hblanks]

theorem not_isDigit_of_isBlank (h : isBlank c) : c.isDigit = false := by
  simp only [isBlank, Bool.or_eq_true, decide_eq_true_eq] at h
  rcases h with ((rfl | rfl) | rfl) | rfl <;> rfl

/-- The lexeme is read off the text in front of whatever follows; after a number that is no digit. -/
theorem scan_lexeme (h : Lexeme t l) (hnext : t.IsNumber → ∀ c ∈ cs.head?, c.isDigit = false) :
    scan (l ++ cs) = (scan cs).map (t :: ·) := by
  cases h with
  | openArray => simp [scan, isBlank, Token.ofChar?]
  | closeArray => simp [scan, isBlank, Token.ofChar?]
  | openObject => simp [scan, isBlank, Token.ofChar?]
  | closeObject => simp [scan, isBlank, Token.ofChar?]
  | comma => simp [scan, isBlank, Token.ofChar?]
  | colon => simp [scan, isBlank, Token.ofChar?]
  | number hne hdigits =>
    obtain ⟨d, ds, rfl⟩ := List.exists_cons_of_ne_nil hne
    obtain ⟨hd, hds⟩ := List.forall_mem_cons.1 hdigits
    have hblank : ¬ isBlank d := fun hb => by simp [not_isDigit_of_isBlank hb] at hd
    have hstop : cs.takeWhile Char.isDigit = [] ∧ cs.dropWhile Char.isDigit = cs := by
      cases cs with
      | nil => exact ⟨rfl, rfl⟩
      | cons c cs => simp [hnext trivial c rfl]
    rw [List.cons_append, scan, if_neg hblank, if_pos hd, List.takeWhile_append_of_pos hds,
      List.dropWhile_append_of_pos hds, hstop.1, hstop.2, List.append_nil]
  | @string raw text hraw =>
    have hread : readQuoted? (raw ++ '\x22' :: cs) = some (text, cs) := readQuoted?_eq_some_iff.2 ⟨raw, hraw, rfl⟩
    rw [List.append_assoc, List.cons_append, scan, if_neg (by decide), if_neg (by decide), if_pos rfl]
    split <;> simp_all

theorem Lexeme.exists_cons (h : Lexeme t l) (ht : ¬ t.IsNumber) : ∃ c rest, l = c :: rest ∧ c.isDigit = false := by
  cases h with
  | number => exact absurd trivial ht
  | string => exact ⟨_, _, rfl, rfl⟩
  | _ => exact ⟨_, _, rfl, rfl⟩

/-- A text in which the first lexeme is no number does not begin with a digit. -/
theorem Laid.head?_not_isDigit (h : Laid ls cs) (hlex : List.Forall₂ Lexeme ts ls) (hts : ∀ t ∈ ts.head?, ¬ t.IsNumber) :
    ∀ c ∈ cs.head?, c.isDigit = false := by
  intro c hc
  cases h with
  | nil hblanks => exact not_isDigit_of_isBlank (hblanks c (List.mem_of_mem_head? hc))
  | @cons blanks l cs ls hblanks h =>
    cases blanks with
    | nil =>
      cases hlex with
      | cons ht hlex =>
        obtain ⟨d, rest, rfl, hd⟩ := ht.exists_cons (hts _ rfl)
        cases hc
        exact hd
    | cons blank blanks =>
      cases hc
      exact not_isDigit_of_isBlank (hblanks _ List.mem_cons_self)

theorem scan_of_laid (hapart : Apart ts) (hlex : List.Forall₂ Lexeme ts ls) (h : Laid ls cs) : scan cs = some ts := by
  induction hlex generalizing cs with
  | nil =>
    cases h with
    | nil hblanks =>
      have hscan : scan (cs ++ []) = scan [] := scan_blanks hblanks
      simpa [scan] using hscan
  | @cons t l ts ls ht hlex ih =>
    cases h with
    | cons hblanks h =>
      obtain ⟨hnext, hapart⟩ := List.isChain_cons.1 hapart
      rw [scan_blanks hblanks, scan_lexeme ht, ih hapart h, Option.map_some]
      intro hnumber
      exact h.head?_not_isDigit hlex fun u hu hu' => hnext u hu ⟨hnumber, hu'⟩

theorem scan_eq_some_iff (hapart : Apart ts) : scan cs = some ts ↔ ∃ ls, List.Forall₂ Lexeme ts ls ∧ Laid ls cs :=
  ⟨laid_of_scan, fun ⟨_, hlex, hlaid⟩ => scan_of_laid hapart hlex hlaid⟩

end IpSpace.Json
