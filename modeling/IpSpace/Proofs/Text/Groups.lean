import IpSpace.Text.Groups
import IpSpace.Proofs.Text.Dotted

/-!
# The texts of eight units

An IPv6 text is eight units of sixteen bits, or fewer with one `::` for the missing ones; the last two units of the text
may be in dotted decimal. `Spells` is that grammar: which texts there are and which units each stands for. Reading accepts
exactly the texts of the grammar and gives the bytes of their units (`read?_whole_iff`).

The text before a `::` holds no `::` of its own and does not end in a colon, so the reader finds the `::` that the grammar
means (`SpellsUnits.splitElision_append`).
-/
namespace IpSpace.Text.Groups

/-! ## The grammar -/

/-- The text is units joined by colons; with `quad`, the last two may be four bytes in dotted decimal. -/
inductive SpellsUnits (quad : Bool) : List Char → List Nat → Prop
  | unit {cs : List Char} {u : Nat} : Numeral.Within 16 4 cs u → SpellsUnits quad cs [u]
  | quad {cs : List Char} {a b c d : UInt8} : quad = true → Dotted.SpellsQuad cs [a, b, c, d] →
      SpellsUnits quad cs [BigEndian.toNat [a, b], BigEndian.toNat [c, d]]
  | cons {cs ds : List Char} {u : Nat} {us : List Nat} : Numeral.Within 16 4 cs u → SpellsUnits quad ds us →
      SpellsUnits quad (cs ++ ':' :: ds) (u :: us)

/-- The text on one side of `::`, which may be nothing. -/
inductive SpellsSide (quad : Bool) : List Char → List Nat → Prop
  | nothing : SpellsSide quad [] []
  | units {cs : List Char} {us : List Nat} : SpellsUnits quad cs us → SpellsSide quad cs us

/-- The number of units that a whole text stands for. -/
def unitCount : Nat := 8

/-- The text stands for eight units. -/
inductive Spells : List Char → List Nat → Prop
  | full {cs : List Char} {us : List Nat} : SpellsUnits true cs us → us.length = unitCount → Spells cs us
  | elided {before after : List Char} {high low : List Nat} : SpellsSide false before high → SpellsSide true after low →
      high.length + low.length < unitCount →
      Spells (before ++ ':' :: ':' :: after)
        (high ++ List.replicate (unitCount - (high.length + low.length)) 0 ++ low)

/-- The bytes of units. -/
def toBytes (units : List Nat) : List UInt8 := units.flatMap (BigEndian.ofNat 2)

@[simp] theorem toBytes_nil : toBytes [] = [] := rfl

@[simp] theorem toBytes_cons (u : Nat) (us : List Nat) : toBytes (u :: us) = BigEndian.ofNat 2 u ++ toBytes us := rfl

@[simp] theorem toBytes_append (us vs : List Nat) : toBytes (us ++ vs) = toBytes us ++ toBytes vs := List.flatMap_append

@[simp] theorem length_toBytes (us : List Nat) : (toBytes us).length = 2 * us.length := by
  induction us with
  | nil => rfl
  | cons u us ih => simp [ih]; omega

theorem toBytes_replicate_zero (n : Nat) : toBytes (List.replicate n 0) = List.replicate (2 * n) 0 := by
  induction n with
  | zero => rfl
  | succ n ih => rw [List.replicate_succ, toBytes_cons, ih, Nat.mul_succ, List.replicate_succ, List.replicate_succ]; rfl

theorem toBytes_quad (a b c d : UInt8) :
    toBytes [BigEndian.toNat [a, b], BigEndian.toNat [c, d]] = [a, b, c, d] := by
  simp only [toBytes_cons, toBytes_nil, List.append_nil]
  rw [show 2 = [a, b].length from rfl, BigEndian.ofNat_toNat, show [a, b].length = [c, d].length from rfl,
    BigEndian.ofNat_toNat]
  rfl

/-! ## Where the elision is -/

theorem splitElision_cons {c : Char} (h : c ≠ ':') (cs : List Char) :
    splitElision (c :: cs) = (splitElision cs).map fun (before, after) => (c :: before, after) := by
  cases cs with
  | nil => rfl
  | cons d cs => rw [splitElision, if_neg fun hc => h hc.1]

/-- There is no elision in a text without colons, so one is looked for behind it. -/
theorem splitElision_append {cs : List Char} (h : ':' ∉ cs) (ds : List Char) :
    splitElision (cs ++ ds) = (splitElision ds).map fun (before, after) => (cs ++ before, after) := by
  induction cs with
  | nil => exact Option.map_id'.symm
  | cons c cs ih =>
    simp only [List.mem_cons, not_or] at h
    rw [List.cons_append, splitElision_cons (Ne.symm h.1), ih h.2, Option.map_map]
    rfl

theorem splitElision_of_not_mem {cs : List Char} (h : ':' ∉ cs) : splitElision cs = none := by
  have hnone := splitElision_append h []
  rwa [List.append_nil] at hnone

theorem splitElision_unit {cs : List Char} (h : ':' ∉ cs) (after : List Char) :
    splitElision (cs ++ ':' :: ':' :: after) = some (cs, after) := by
  rw [splitElision_append h, splitElision, if_pos ⟨rfl, rfl⟩, Option.map_some]
  exact congrArg (fun before => some (before, after)) (List.append_nil cs)

/-- A single colon is no elision. -/
theorem splitElision_colon {cs : List Char} (h : ':' ∉ cs) {d : Char} (hd : d ≠ ':') (ds : List Char) :
    splitElision (cs ++ ':' :: d :: ds) =
      (splitElision (d :: ds)).map fun (before, after) => (cs ++ ':' :: before, after) := by
  rw [splitElision_append h, splitElision, if_neg fun hc => hd hc.2, Option.map_map]
  rfl

theorem splitElision_eq_some {cs before after : List Char} (h : splitElision cs = some (before, after)) :
    cs = before ++ ':' :: ':' :: after := by
  fun_induction splitElision cs generalizing before with
  | case1 => cases h
  | case2 => cases h
  | case3 c d cs hc =>
    cases h
    rw [hc.1, hc.2]
    rfl
  | case4 c d cs hc ih =>
    obtain ⟨⟨b, a⟩, hs, heq⟩ := Option.map_eq_some_iff.1 h
    cases heq
    rw [ih hs]
    rfl

/-! ## Units -/

theorem not_mem_colon_of_within {cs : List Char} {u : Nat} (h : Numeral.Within 16 4 cs u) : ':' ∉ cs :=
  h.spells.not_mem (by decide) rfl

theorem not_mem_colon_of_quad {cs : List Char} {bytes : List UInt8} (h : Dotted.SpellsQuad cs bytes) : ':' ∉ cs :=
  h.not_mem (by decide) rfl

variable {quad : Bool} {cs ds : List Char} {us : List Nat} {bytes : List UInt8}

/-- Units begin with a digit. -/
theorem SpellsUnits.exists_cons (h : SpellsUnits quad cs us) : ∃ c rest, cs = c :: rest ∧ c ≠ ':' := by
  -- a text without colons at the front settles it, also when more follows
  have hfront {front : List Char} (hne : front ≠ []) (hcolon : ':' ∉ front) (more : List Char) :
      ∃ c rest, front ++ more = c :: rest ∧ c ≠ ':' := by
    obtain ⟨c, rest, rfl⟩ := List.exists_cons_of_ne_nil hne
    exact ⟨c, rest ++ more, rfl, fun hc => hcolon (hc ▸ List.mem_cons_self)⟩
  cases h with
  | unit hu =>
    simpa using hfront hu.ne_nil (not_mem_colon_of_within hu) []
  | quad _ hq =>
    have hcolon := not_mem_colon_of_quad hq
    simpa using hfront (List.ne_nil_of_mem hq.mem_dot) hcolon []
  | cons hu _ => exact hfront hu.ne_nil (not_mem_colon_of_within hu) _

theorem SpellsSide.units_of_ne_nil (h : SpellsSide quad cs us) (hne : us ≠ []) : SpellsUnits quad cs us := by
  cases h with
  | nothing => exact absurd rfl hne
  | units h => exact h

theorem SpellsUnits.splitElision_eq_none (h : SpellsUnits quad cs us) : splitElision cs = none := by
  induction h with
  | unit hu => exact splitElision_of_not_mem (not_mem_colon_of_within hu)
  | quad _ hq => exact splitElision_of_not_mem (not_mem_colon_of_quad hq)
  | cons hu hus ih =>
    obtain ⟨d, ds, rfl, hd⟩ := hus.exists_cons
    rw [splitElision_colon (not_mem_colon_of_within hu) hd, ih, Option.map_none]

theorem SpellsUnits.splitElision_append (h : SpellsUnits quad cs us) (after : List Char) :
    splitElision (cs ++ ':' :: ':' :: after) = some (cs, after) := by
  induction h with
  | unit hu => exact splitElision_unit (not_mem_colon_of_within hu) after
  | quad _ hq => exact splitElision_unit (not_mem_colon_of_quad hq) after
  | cons hu hus ih =>
    obtain ⟨d, ds, rfl, hd⟩ := hus.exists_cons
    rw [List.append_assoc, List.cons_append, List.cons_append, splitElision_colon (not_mem_colon_of_within hu) hd,
      ← List.cons_append, ih, Option.map_some]

theorem readGroup?_eq_some_iff : readGroup? cs = some bytes ↔ ∃ u, Numeral.Within 16 4 cs u ∧ bytes = toBytes [u] := by
  simp only [readGroup?, Option.map_eq_some_iff, Numeral.read?_eq_some_iff (Nat.le_refl 16), toBytes_cons, toBytes_nil,
    List.append_nil, @eq_comm _ bytes]

theorem readQuad?_eq_some_iff : readQuad? cs = some bytes ↔ Dotted.SpellsQuad cs bytes := by
  rw [← Dotted.read?_four_iff, readQuad?, Option.filter_eq_some_iff, decide_eq_true_eq]

/-- A quad is no group: it has dots. -/
theorem readGroup?_of_quad (h : Dotted.SpellsQuad cs bytes) : readGroup? cs = none := by
  apply Option.eq_none_iff_forall_ne_some.2
  intro group hgroup
  obtain ⟨u, hu, -⟩ := readGroup?_eq_some_iff.1 hgroup
  exact hu.spells.not_mem (Nat.le_refl 16) rfl h.mem_dot

theorem readPieces?_cons {p : List Char} {ps : List (List Char)} (h : ps ≠ []) :
    readPieces? quad (p :: ps) = (readGroup? p).bind fun group => (readPieces? quad ps).map (group ++ ·) := by
  obtain ⟨q, qs, rfl⟩ := List.exists_cons_of_ne_nil h
  cases hp : readGroup? p <;> cases hqs : readPieces? quad (q :: qs) <;> simp [readPieces?, hp, hqs]

theorem exists_spellsUnits {ps : List (List Char)} (hne : ps ≠ []) (h : readPieces? quad ps = some bytes) :
    ∃ us, SpellsUnits quad ([':'].intercalate ps) us ∧ bytes = toBytes us := by
  induction ps generalizing bytes with
  | nil => exact absurd rfl hne
  | cons p ps ih =>
    cases ps with
    | nil =>
      rw [List.intercalate_singleton]
      have hread : readGroup? p = some bytes ∨ quad = true ∧ readQuad? p = some bytes := by
        rw [readPieces?] at h
        cases hg : readGroup? p <;> cases quad <;> simp_all
      rcases hread with hgroup | ⟨hq, hquad⟩
      · obtain ⟨u, hu, rfl⟩ := readGroup?_eq_some_iff.1 hgroup
        exact ⟨[u], .unit hu, rfl⟩
      · have hspells := readQuad?_eq_some_iff.1 hquad
        obtain ⟨a, b, c, d, rfl⟩ := List.length_eq_four.1 hspells.length_eq
        exact ⟨_, .quad hq hspells, (toBytes_quad a b c d).symm⟩
    | cons q qs =>
      rw [readPieces?_cons (List.cons_ne_nil q qs)] at h
      obtain ⟨group, hgroup, h⟩ := Option.bind_eq_some_iff.1 h
      obtain ⟨more, hmore, rfl⟩ := Option.map_eq_some_iff.1 h
      obtain ⟨u, hu, rfl⟩ := readGroup?_eq_some_iff.1 hgroup
      obtain ⟨us, hus, rfl⟩ := ih (List.cons_ne_nil q qs) hmore
      rw [List.intercalate_cons_cons, List.append_assoc]
      exact ⟨u :: us, .cons hu hus, (toBytes_append [u] us).symm⟩

theorem readPieces?_eq_some_iff :
    readPieces? quad (pieces ':' cs) = some bytes ↔ ∃ us, SpellsUnits quad cs us ∧ bytes = toBytes us := by
  constructor
  · intro h
    have hunits := exists_spellsUnits (pieces_ne_nil ':' cs) h
    rwa [intercalate_pieces] at hunits
  · rintro ⟨us, h, rfl⟩
    induction h with
    | unit hu =>
      rw [pieces_of_not_mem (not_mem_colon_of_within hu), readPieces?, readGroup?_eq_some_iff.2 ⟨_, hu, rfl⟩]
      rfl
    | quad hq hs =>
      rw [pieces_of_not_mem (not_mem_colon_of_quad hs), readPieces?, readGroup?_of_quad hs, toBytes_quad, if_pos hq,
        readQuad?_eq_some_iff.2 hs]
      rfl
    | cons hu hus ih =>
      rw [pieces_append (not_mem_colon_of_within hu), readPieces?_cons (pieces_ne_nil _ _), ih,
        readGroup?_eq_some_iff.2 ⟨_, hu, rfl⟩]
      exact congrArg some (toBytes_append _ _).symm

theorem readSide?_eq_some_iff :
    readSide? quad cs = some bytes ↔ ∃ us, SpellsSide quad cs us ∧ bytes = toBytes us := by
  rw [readSide?]
  split
  · rename_i h
    subst h
    constructor
    · intro h
      cases h
      exact ⟨[], .nothing, rfl⟩
    · rintro ⟨us, h, rfl⟩
      cases h with
      | nothing => rfl
      | units h =>
        obtain ⟨_, _, hcs, -⟩ := h.exists_cons
        cases hcs
  · rename_i h
    rw [readPieces?_eq_some_iff]
    constructor
    · rintro ⟨us, hus, rfl⟩
      exact ⟨us, .units hus, rfl⟩
    · rintro ⟨us, hus, rfl⟩
      cases hus with
      | nothing => exact absurd rfl h
      | units hus => exact ⟨us, hus, rfl⟩

/-! ## Whole texts -/

theorem fill?_toBytes (high low : List Nat) :
    fill? (toBytes high) (toBytes low) =
      if high.length + low.length < unitCount then
        some (toBytes (high ++ List.replicate (unitCount - (high.length + low.length)) 0 ++ low))
      else none := by
  have hlt : 2 * high.length + 2 * low.length + 2 ≤ width ↔ high.length + low.length < unitCount := by
    rw [width, unitCount]; omega
  have hzeros : width - (2 * high.length + 2 * low.length) = 2 * (unitCount - (high.length + low.length)) := by
    rw [width, unitCount]; omega
  simp only [fill?, length_toBytes, hlt, hzeros, toBytes_append, toBytes_replicate_zero]

theorem splitElision_side {before : List Char} {high : List Nat} (h : SpellsSide quad before high) (after : List Char) :
    splitElision (before ++ ':' :: ':' :: after) = some (before, after) := by
  cases h with
  | nothing => rfl
  | units h => exact h.splitElision_append after

theorem Spells.length_eq (h : Spells cs us) : us.length = unitCount := by
  cases h with
  | full _ hlength => exact hlength
  | elided _ _ hlength => simp; omega

/-- Eight units have a colon between them, also if the last two are in dotted decimal. -/
theorem Spells.mem_colon (h : Spells cs us) : ':' ∈ cs := by
  cases h with
  | full h hlength =>
    cases h with
    | unit => cases hlength
    | quad => cases hlength
    | cons => simp
  | elided => simp

/-- The characters that a text of units may have. -/
def alphabet : List Char := ':' :: '.' :: hexDigits

theorem SpellsUnits.subset (h : SpellsUnits quad cs us) : cs ⊆ alphabet := by
  have hunit {ds : List Char} {u : Nat} (hu : Numeral.Within 16 4 ds u) : ds ⊆ alphabet :=
    List.subset_cons_of_subset _ (List.subset_cons_of_subset _ (hu.spells.subset_hexDigits (Nat.le_refl 16)))
  induction h with
  | unit hu => exact hunit hu
  | quad _ hq => exact List.subset_cons_of_subset _ hq.subset
  | cons hu _ ih => exact List.append_subset.2 ⟨hunit hu, List.cons_subset.2 ⟨List.mem_cons_self, ih⟩⟩

theorem SpellsSide.subset (h : SpellsSide quad cs us) : cs ⊆ alphabet := by
  cases h with
  | nothing => exact List.nil_subset _
  | units h => exact h.subset

theorem Spells.subset (h : Spells cs us) : cs ⊆ alphabet := by
  cases h with
  | full h _ => exact h.subset
  | elided hhigh hlow _ =>
    have hcolon : ':' ∈ alphabet := List.mem_cons_self
    exact List.append_subset.2 ⟨hhigh.subset, List.cons_subset.2 ⟨hcolon, List.cons_subset.2 ⟨hcolon, hlow.subset⟩⟩⟩

theorem read?_whole_iff :
    (read? cs = some bytes ∧ bytes.length = width) ↔ ∃ us, Spells cs us ∧ bytes = toBytes us := by
  constructor
  · intro ⟨h, hlength⟩
    rw [read?] at h
    cases hsplit : splitElision cs with
    | none =>
      rw [hsplit] at h
      obtain ⟨us, hus, rfl⟩ := readPieces?_eq_some_iff.1 h
      rw [length_toBytes, width] at hlength
      exact ⟨us, .full hus (by rw [unitCount]; omega), rfl⟩
    | some sides =>
      obtain ⟨before, after⟩ := sides
      rw [hsplit] at h
      obtain ⟨_, hbefore, h⟩ := Option.bind_eq_some_iff.1 h
      obtain ⟨_, hafter, h⟩ := Option.bind_eq_some_iff.1 h
      obtain ⟨high, hhigh, rfl⟩ := readSide?_eq_some_iff.1 hbefore
      obtain ⟨low, hlow, rfl⟩ := readSide?_eq_some_iff.1 hafter
      rw [fill?_toBytes] at h
      split at h
      · rename_i hlt
        cases h
        rw [splitElision_eq_some hsplit]
        exact ⟨_, .elided hhigh hlow hlt, rfl⟩
      · cases h
  · rintro ⟨us, h, rfl⟩
    refine ⟨?_, by rw [length_toBytes, h.length_eq]; rfl⟩
    cases h with
    | full h _ =>
      rw [read?, h.splitElision_eq_none]
      exact readPieces?_eq_some_iff.2 ⟨us, h, rfl⟩
    | elided hhigh hlow hlt =>
      rw [read?, splitElision_side hhigh]
      simp only [readSide?_eq_some_iff.2 ⟨_, hhigh, rfl⟩, readSide?_eq_some_iff.2 ⟨_, hlow, rfl⟩,
        Option.bind_eq_bind, Option.bind_some]
      rw [fill?_toBytes, if_pos hlt]

end IpSpace.Text.Groups
