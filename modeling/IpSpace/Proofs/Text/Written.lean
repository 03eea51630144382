import IpSpace.Proofs.Text.Groups

/-!
# How eight units are written

Of the texts that stand for the same units, `Writes` picks the one to print. A unit is in lower case and has no leading
zeros; `::` stands for the leftmost of the longest runs of two or more zero units, and for nothing else; the last two units
are in dotted decimal exactly when the six before them are those of a mapped IPv4 address.

Writing follows these rules (`writes_write`), and what follows them is spelled by the grammar of reading
(`Writes.spells`).
-/
namespace IpSpace.Text.Groups

/-! ## Runs of zeros -/

/-- There are `length` units of zero from `start` on. -/
def IsRun (us : List Nat) (start length : Nat) : Prop := ∀ i < length, us[start + i]? = some 0

/-- The run is a longest one, and there is none of its length before it. -/
structure IsLeftmostLongest (us : List Nat) (start length : Nat) : Prop where
  run : IsRun us start length
  longest : ∀ i n, IsRun us i n → n ≤ length
  leftmost : ∀ i n, IsRun us i n → i < start → n < length

theorem le_length_takeWhile_iff {us : List Nat} {n : Nat} :
    n ≤ (us.takeWhile (· == 0)).length ↔ ∀ i < n, us[i]? = some 0 := by
  induction us generalizing n with
  | nil =>
    constructor
    · intro h i hi
      exact absurd hi (by simp at h; omega)
    · intro h
      cases n with
      | zero => exact Nat.le_refl 0
      | succ n => cases h 0 (Nat.succ_pos n)
  | cons u us ih =>
    cases n with
    | zero => simp
    | succ n =>
      rw [Nat.forall_lt_succ_left, List.getElem?_cons_zero, Option.some.injEq]
      simp only [List.getElem?_cons_succ, ← ih]
      by_cases hu : u = 0 <;> simp [hu]

theorem le_zerosFrom_iff {us : List Nat} {start n : Nat} : n ≤ zerosFrom us start ↔ IsRun us start n := by
  simp only [zerosFrom, le_length_takeWhile_iff, List.getElem?_drop, IsRun]

theorem zerosFrom_eq_zero {us : List Nat} {start : Nat} (h : us.length ≤ start) : zerosFrom us start = 0 := by
  rw [zerosFrom, List.drop_eq_nil_of_le h]; rfl

/-- After the places below `n` the best run is a longest one of those that start there, and the leftmost of them. -/
theorem longest_of_foldl (us : List Nat) (n : Nat) :
    let best := (List.range n).foldl
      (fun best start => if best.2 < zerosFrom us start then (start, zerosFrom us start) else best) (0, 0)
    best.2 ≤ zerosFrom us best.1 ∧ (∀ i < n, zerosFrom us i ≤ best.2) ∧ ∀ i < best.1, zerosFrom us i < best.2 := by
  induction n with
  | zero => simp
  | succ n ih =>
    rw [List.range_succ, List.foldl_append]
    generalize (List.range n).foldl _ (0, 0) = best at ih ⊢
    obtain ⟨hrun, hlongest, hleftmost⟩ := ih
    simp only [List.foldl_cons, List.foldl_nil]
    split
    · rename_i hlt
      refine ⟨Nat.le_refl _, fun i hi => ?_, fun i hi => Nat.lt_of_le_of_lt (hlongest i hi) hlt⟩
      rcases Nat.lt_succ_iff_lt_or_eq.1 hi with hi | rfl
      · exact Nat.le_trans (hlongest i hi) (Nat.le_of_lt hlt)
      · exact Nat.le_refl _
    · rename_i hle
      refine ⟨hrun, fun i hi => ?_, hleftmost⟩
      rcases Nat.lt_succ_iff_lt_or_eq.1 hi with hi | rfl
      · exact hlongest i hi
      · exact Nat.le_of_not_lt hle

theorem isLeftmostLongest_longestZeros (us : List Nat) :
    IsLeftmostLongest us (longestZeros us).1 (longestZeros us).2 := by
  obtain ⟨hrun, hlongest, hleftmost⟩ := longest_of_foldl us us.length
  refine ⟨le_zerosFrom_iff.1 hrun, fun i n hi => ?_, fun i n hi hlt => ?_⟩
  · rcases Nat.lt_or_ge i us.length with hlt | hge
    · exact Nat.le_trans (le_zerosFrom_iff.2 hi) (hlongest i hlt)
    · have hzero := le_zerosFrom_iff.2 hi
      rw [zerosFrom_eq_zero hge] at hzero
      exact Nat.le_trans hzero (Nat.zero_le _)
  · exact Nat.lt_of_le_of_lt (le_zerosFrom_iff.2 hi) (hleftmost i hlt)

/-- A run is the part of the units that it covers. -/
theorem IsRun.split {us : List Nat} {start length : Nat} (h : IsRun us start length) (hpos : 0 < length) :
    start + length ≤ us.length ∧
      us = us.take start ++ List.replicate length 0 ++ us.drop (start + length) := by
  have hend := (List.getElem?_eq_some_iff.1 (h (length - 1) (by omega))).1
  have hzeros : (us.drop start).take length = List.replicate length 0 := by
    apply List.ext_getElem?
    intro i
    by_cases hi : i < length
    · simp [hi, h i hi]
    · rw [List.getElem?_take, if_neg hi, List.getElem?_replicate, if_neg hi]
  refine ⟨by omega, ?_⟩
  calc us = us.take start ++ us.drop start := (List.take_append_drop start us).symm
    _ = us.take start ++ ((us.drop start).take length ++ (us.drop start).drop length) := by
      rw [List.take_append_drop length]
    _ = us.take start ++ List.replicate length 0 ++ us.drop (start + length) := by
      rw [hzeros, List.drop_drop, List.append_assoc]

/-! ## The written form -/

/-- The text is a unit in lower case, without leading zeros. -/
structure WritesUnit (cs : List Char) (u : Nat) : Prop where
  within : Numeral.Within 16 4 cs u
  noLeadingZero : Numeral.NoLeadingZero cs
  lower : ∀ c ∈ cs, c.isUpper = false

/-- The text is written units joined by colons; no units are written as nothing. -/
def WritesUnits (cs : List Char) (us : List Nat) : Prop :=
  ∃ parts, List.Forall₂ WritesUnit parts us ∧ cs = [':'].intercalate parts

/-- The first six units of an IPv4 address that is carried as an IPv6 one. -/
def mappedUnits : List Nat := [0, 0, 0, 0, 0, 0xffff]

/-- The text is the one to print for eight units. -/
inductive Writes : List Char → List Nat → Prop
  | mapped {cs : List Char} {a b c d : UInt8} : Dotted.SpellsQuad cs [a, b, c, d] →
      Writes ("::ffff:".toList ++ cs) (mappedUnits ++ [BigEndian.toNat [a, b], BigEndian.toNat [c, d]])
  | full {cs : List Char} {us : List Nat} : us.length = unitCount → us.take 6 ≠ mappedUnits →
      (∀ i n, IsRun us i n → n < 2) → WritesUnits cs us → Writes cs us
  | elided {before after : List Char} {us : List Nat} {start length : Nat} : us.length = unitCount →
      us.take 6 ≠ mappedUnits → IsLeftmostLongest us start length → 2 ≤ length → WritesUnits before (us.take start) →
      WritesUnits after (us.drop (start + length)) → Writes (before ++ ':' :: ':' :: after) us

/-! ## Writing follows the rules -/

theorem writesUnit_writeGroup {u : Nat} (h : u < 65536) : WritesUnit (writeGroup u) u := by
  have hu : u < 16 ^ 4 := h
  obtain ⟨hw, hzero, hlower⟩ := Numeral.write_plain (by decide) (by decide) (by decide) hu
  exact ⟨hw, hzero, hlower⟩

theorem writesUnits_writeGroups {us : List Nat} (h : ∀ u ∈ us, u < 65536) : WritesUnits (writeGroups us) us := by
  refine ⟨us.map writeGroup, ?_, rfl⟩
  rw [List.forall₂_map_left_iff, List.forall₂_same]
  exact fun u hu => writesUnit_writeGroup (h u hu)

theorem writes_writeElided {us : List Nat} (hlength : us.length = unitCount) (hu : ∀ u ∈ us, u < 65536)
    (hmapped : us.take 6 ≠ mappedUnits) : Writes (writeElided us) us := by
  have hbest := isLeftmostLongest_longestZeros us
  unfold writeElided
  generalize longestZeros us = best at hbest ⊢
  obtain ⟨start, length⟩ := best
  simp only
  split
  · rename_i hshort
    exact .full hlength hmapped (fun i n hi => Nat.lt_of_le_of_lt (hbest.longest i n hi) hshort) (writesUnits_writeGroups hu)
  · rename_i hlong
    rw [List.append_assoc]
    exact .elided hlength hmapped hbest (Nat.le_of_not_lt hlong)
      (writesUnits_writeGroups fun u h => hu u (List.mem_of_mem_take h))
      (writesUnits_writeGroups fun u h => hu u (List.mem_of_mem_drop h))

theorem lt_of_mem_ofBytes {bytes : List UInt8} {u : Nat} (h : u ∈ ofBytes bytes) : u < 65536 := by
  fun_induction ofBytes bytes with
  | case1 high low bytes ih =>
    rcases List.mem_cons.1 h with rfl | h
    · simpa using BigEndian.toNat_lt [high, low]
    · exact ih h
  | case2 => cases h

theorem toBytes_ofBytes {bytes : List UInt8} {n : Nat} (h : bytes.length = 2 * n) : toBytes (ofBytes bytes) = bytes := by
  fun_induction ofBytes bytes generalizing n with
  | case1 high low bytes ih =>
    have hpair := BigEndian.ofNat_toNat [high, low]
    rw [toBytes_cons, ih (n := n - 1) (by simp at h; omega)]
    exact congrArg (· ++ bytes) hpair
  | case2 bytes hshort =>
    cases bytes with
    | nil => rfl
    | cons byte bytes =>
      cases bytes with
      | nil => simp at h; omega
      | cons low bytes => exact absurd rfl (hshort byte low bytes)

theorem take_toBytes {us : List Nat} {n : Nat} (h : n ≤ us.length) : (toBytes us).take (2 * n) = toBytes (us.take n) := by
  have hlength : (toBytes (us.take n)).length = 2 * n := by simp; omega
  rw [← hlength, ← List.take_append_drop n us, toBytes_append, List.take_append_drop, List.take_left]

theorem writes_write {bytes : List UInt8} (h : bytes.length = width) : Writes (write bytes) (ofBytes bytes) := by
  have hbytes := toBytes_ofBytes (n := unitCount) h
  have hlength : (ofBytes bytes).length = unitCount := by
    have := length_toBytes (ofBytes bytes)
    rw [hbytes, h, width] at this
    rw [unitCount]; omega
  unfold write
  split
  · rename_i hmapped
    have htail : (bytes.drop 12).length = 4 := by rw [List.length_drop, h]; rfl
    obtain ⟨a, b, c, d, hquad⟩ := List.length_eq_four.1 htail
    have hunits : ofBytes bytes = mappedUnits ++ [BigEndian.toNat [a, b], BigEndian.toNat [c, d]] := by
      rw [← List.take_append_drop 12 bytes, hmapped, hquad]
      rfl
    rw [hunits, hquad]
    exact .mapped (Dotted.spellsQuad_write rfl)
  · rename_i hmapped
    refine writes_writeElided hlength (fun u => lt_of_mem_ofBytes) fun hunits => hmapped ?_
    rw [← hbytes, take_toBytes (n := 6) (by rw [hlength]; decide), hunits]
    rfl

/-! ## What follows the rules is spelled by the grammar -/

theorem WritesUnits.spellsSide {quad : Bool} {cs : List Char} {us : List Nat} (h : WritesUnits cs us) :
    SpellsSide quad cs us := by
  obtain ⟨parts, hparts, rfl⟩ := h
  induction hparts with
  | nil => exact .nothing
  | @cons p u parts us hp hparts ih =>
    cases hparts with
    | nil =>
      rw [List.intercalate_singleton]
      exact .units (.unit hp.within)
    | cons =>
      rw [List.intercalate_cons_cons, List.append_assoc]
      exact .units (.cons hp.within (ih.units_of_ne_nil (List.cons_ne_nil _ _)))

theorem Writes.spells {cs : List Char} {us : List Nat} (h : Writes cs us) : Spells cs us := by
  cases h with
  | mapped hquad =>
    have hffff : Numeral.Within 16 4 ['f', 'f', 'f', 'f'] 0xffff := (Numeral.read?_eq_some_iff (Nat.le_refl 16)).1 rfl
    exact .elided .nothing (.units (.cons hffff (.quad rfl hquad))) (show 0 + 3 < 8 by decide)
  | full hlength _ _ hunits =>
    have hne : us ≠ [] := by
      rintro rfl
      cases hlength
    exact .full (hunits.spellsSide.units_of_ne_nil hne) hlength
  | @elided _ _ _ start length hlength _ hbest hlong hbefore hafter =>
    obtain ⟨hend, hsplit⟩ := hbest.run.split (by omega)
    have hmissing : unitCount - ((us.take start).length + (us.drop (start + length)).length) = length := by
      rw [List.length_take, List.length_drop]; omega
    have h := Spells.elided hbefore.spellsSide hafter.spellsSide (by rw [List.length_take, List.length_drop]; omega)
    rwa [hmissing, ← hsplit] at h

end IpSpace.Text.Groups
