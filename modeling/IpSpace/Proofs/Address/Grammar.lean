import IpSpace.Address.Text
import IpSpace.Proofs.Text.Groups

/-!
# Which texts are addresses

An IPv4 text is four bytes in dotted decimal and an IPv6 text eight units in groups of hexadecimal digits, as the grammars
`Text.Dotted.SpellsQuad` and `Text.Groups.Spells` have them. Reading a family is being spelled by the text
(`Address.read?_eq_some_iff`). A colon tells the families apart (`Address.SpelledBy.mem_colon_iff`), so reading without a
stated family gives whatever is spelled (`AnyAddress.read?_eq_some_iff`).
-/
namespace IpSpace

variable {f : Family} {cs : List Char}

namespace Address

/-- The text stands for the address. -/
def SpelledBy : {f : Family} → Address f → List Char → Prop
  | .v4, a, cs => Text.Dotted.SpellsQuad cs a.octets
  | .v6, a, cs => ∃ units, Text.Groups.Spells cs units ∧ a.octets = Text.Groups.toBytes units

/-! ## Reading -/

theorem ofOctets?_eq_some_iff {octets : List UInt8} {a : Address f} : ofOctets? f octets = some a ↔ octets = a.octets := by
  unfold ofOctets?
  split
  · rw [Option.some.injEq, Address.ext_iff]
  · rename_i h
    simp only [reduceCtorEq, false_iff]
    rintro rfl
    exact h a.length_octets

theorem read?_eq_some_iff {a : Address f} : read? f cs = some a ↔ a.SpelledBy cs := by
  have hoctets : read? f cs = some a ↔ readOctets? f cs = some a.octets := by
    simp only [read?, Option.bind_eq_bind, Option.bind_eq_some_iff, ofOctets?_eq_some_iff, exists_eq_right]
  rw [hoctets]
  cases f with
  | v4 =>
    rw [SpelledBy, ← Text.Dotted.read?_four_iff]
    exact (and_iff_left a.length_octets).symm
  | v6 =>
    rw [SpelledBy, ← Text.Groups.read?_whole_iff]
    exact (and_iff_left a.length_octets).symm

theorem parse_ok_iff {s : String} {a : Address f} : parse f s = .ok a ↔ a.SpelledBy s.toList := by
  rw [← read?_eq_some_iff, parse]
  split <;> simp_all

theorem parse_error_iff {s : String} : parse f s = .error ⟨some f⟩ ↔ ∀ a : Address f, ¬ a.SpelledBy s.toList := by
  simp only [← read?_eq_some_iff, ← Option.eq_none_iff_forall_ne_some, parse]
  split <;> simp_all

/-! ## Characters -/

theorem SpelledBy.mem_colon_iff {a : Address f} (h : a.SpelledBy cs) : ':' ∈ cs ↔ f = .v6 := by
  cases f with
  | v4 => exact iff_of_false (h.not_mem (by decide) rfl) (by decide)
  | v6 =>
    obtain ⟨units, hunits, -⟩ := h
    exact iff_of_true hunits.mem_colon rfl

/-- No text stands for addresses of both families. -/
theorem SpelledBy.family_eq {g : Family} {a : Address f} {b : Address g} (ha : a.SpelledBy cs) (hb : b.SpelledBy cs) :
    f = g := by
  have hiff := ha.mem_colon_iff.symm.trans hb.mem_colon_iff
  revert hiff
  cases f <;> cases g <;> decide

theorem SpelledBy.subset_alphabet {a : Address f} (h : a.SpelledBy cs) : cs ⊆ Text.Groups.alphabet := by
  cases f with
  | v4 => exact List.subset_cons_of_subset _ (Text.Dotted.SpellsQuad.subset h)
  | v6 =>
    obtain ⟨units, hunits, -⟩ := h
    exact hunits.subset

end Address

/-! ## Either family -/

namespace AnyAddress

theorem read?_eq_some_iff {x : AnyAddress} : read? cs = some x ↔ x.address.SpelledBy cs := by
  obtain ⟨f, a⟩ := x
  rw [← Address.read?_eq_some_iff]
  -- what is read as one family is not read as the other
  have hfamily {b : Address .v4} {c : Address .v6} : ¬ (Address.read? .v4 cs = some b ∧ Address.read? .v6 cs = some c) := by
    rintro ⟨hb, hc⟩
    cases (Address.read?_eq_some_iff.1 hb).family_eq (Address.read?_eq_some_iff.1 hc)
  unfold read?
  cases h4 : Address.read? .v4 cs with
  | none => cases h6 : Address.read? .v6 cs <;> cases f <;> simp [h4, h6]
  | some b =>
    cases h6 : Address.read? .v6 cs with
    | none => cases f <;> simp [h4, h6]
    | some c => exact absurd ⟨h4, h6⟩ hfamily

theorem parse_ok_iff {s : String} {x : AnyAddress} : parse s = .ok x ↔ x.address.SpelledBy s.toList := by
  rw [← read?_eq_some_iff, parse]
  split <;> simp_all

theorem parse_error_iff {s : String} :
    parse s = .error ⟨none⟩ ↔ ∀ x : AnyAddress, ¬ x.address.SpelledBy s.toList := by
  simp only [← read?_eq_some_iff, ← Option.eq_none_iff_forall_ne_some, parse]
  split <;> simp_all

end AnyAddress

/-- A text is read as an address of a family just if it stands for it, and without a stated family just if it stands for an
address of some family; every other text is refused. A text stands for nothing if it has a character that is no digit, dot
or colon. -/
theorem parse_accepts_grammar (s : String) :
    (∀ f (a : Address f), Address.parse f s = .ok a ↔ a.SpelledBy s.toList) ∧
    (∀ f, Address.parse f s = .error ⟨some f⟩ ↔ ∀ a : Address f, ¬ a.SpelledBy s.toList) ∧
    (∀ x : AnyAddress, AnyAddress.parse s = .ok x ↔ x.address.SpelledBy s.toList) ∧
    (AnyAddress.parse s = .error ⟨none⟩ ↔ ∀ x : AnyAddress, ¬ x.address.SpelledBy s.toList) ∧
    ∀ c ∈ s.toList, c ∉ Text.Groups.alphabet →
      (∀ f, Address.parse f s = .error ⟨some f⟩) ∧ AnyAddress.parse s = .error ⟨none⟩ := by
  refine ⟨fun f a => Address.parse_ok_iff, fun f => Address.parse_error_iff, fun x => AnyAddress.parse_ok_iff,
    AnyAddress.parse_error_iff, fun c hc hout => ⟨fun f => ?_, ?_⟩⟩
  · exact Address.parse_error_iff.2 fun a ha => hout (ha.subset_alphabet hc)
  · exact AnyAddress.parse_error_iff.2 fun x hx => hout (hx.subset_alphabet hc)

end IpSpace
