/-!
# Text cut at a separator

`pieces` cuts a text at every occurrence of a separator: there is always one more piece than there are separators, and
a piece may be empty. Joining the pieces gives the text back (`intercalate_pieces`), and a text up to the first separator
is the first piece (`pieces_append`).
-/
namespace IpSpace.Text

/-- The parts of a text between the separators. -/
def pieces (separator : Char) : List Char → List (List Char)
  | [] => [[]]
  | c :: cs =>
    if c = separator then [] :: pieces separator cs
    else match pieces separator cs with
      | [] => [[c]]
      | p :: ps => (c :: p) :: ps

theorem pieces_ne_nil (separator : Char) (cs : List Char) : pieces separator cs ≠ [] := by
  cases cs with
  | nil => simp [pieces]
  | cons c cs =>
    rw [pieces]
    split
    · simp
    · split <;> simp

theorem intercalate_pieces (separator : Char) (cs : List Char) :
    [separator].intercalate (pieces separator cs) = cs := by
  induction cs with
  | nil => simp [pieces]
  | cons c cs ih =>
    rw [pieces]
    split
    · rename_i h
      obtain ⟨p, ps, hp⟩ := List.exists_cons_of_ne_nil (pieces_ne_nil separator cs)
      rw [hp] at ih ⊢
      rw [List.intercalate_cons_cons, ih, h]
      rfl
    · obtain ⟨p, ps, hp⟩ := List.exists_cons_of_ne_nil (pieces_ne_nil separator cs)
      rw [hp] at ih ⊢
      cases ps with
      | nil => simpa using ih
      | cons q qs =>
        rw [List.intercalate_cons_cons] at ih ⊢
        simp [ih]

theorem pieces_of_not_mem {separator : Char} {cs : List Char} (h : separator ∉ cs) : pieces separator cs = [cs] := by
  induction cs with
  | nil => rfl
  | cons c cs ih =>
    simp only [List.mem_cons, not_or] at h
    rw [pieces, if_neg (Ne.symm h.1), ih h.2]

theorem pieces_append {separator : Char} {cs : List Char} (h : separator ∉ cs) (rest : List Char) :
    pieces separator (cs ++ separator :: rest) = cs :: pieces separator rest := by
  induction cs with
  | nil => simp [pieces]
  | cons c cs ih =>
    simp only [List.mem_cons, not_or] at h
    rw [List.cons_append, pieces, if_neg (Ne.symm h.1), ih h.2]

end IpSpace.Text
