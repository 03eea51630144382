import IpSpace.Proofs.Address.Grammar
import IpSpace.Proofs.Text.Written
import Mathlib.Logic.Function.Basic

/-!
# Address text round trips

What is written for an address is the printed form of its family (`Address.printedAs_text`), which is a text that stands for
the address (`Address.PrintedAs.spelledBy`). So reading it gives the address back, as its own family and without a stated
one (`text_round_trips`). IPv4 addresses that are carried as IPv6 ones have colons in their text and stay IPv6.
-/
namespace IpSpace

variable {f : Family}

namespace Address

/-- The text is the one to print for the address. -/
def PrintedAs : {f : Family} → Address f → List Char → Prop
  | .v4, a, cs => Text.Dotted.SpellsQuad cs a.octets
  | .v6, a, cs => Text.Groups.Writes cs (Text.Groups.ofBytes a.octets)

theorem PrintedAs.spelledBy {a : Address f} {cs : List Char} (h : a.PrintedAs cs) : a.SpelledBy cs := by
  cases f with
  | v4 => exact h
  | v6 => exact ⟨_, Text.Groups.Writes.spells h, (Text.Groups.toBytes_ofBytes (n := 8) a.length_octets).symm⟩

theorem printedAs_text (a : Address f) : a.PrintedAs a.text.toList := by
  rw [text, String.toList_ofList]
  cases f with
  | v4 => exact Text.Dotted.spellsQuad_write a.length_octets
  | v6 => exact Text.Groups.writes_write a.length_octets

theorem spelledBy_text (a : Address f) : a.SpelledBy a.text.toList := a.printedAs_text.spelledBy

end Address

theorem AnyAddress.parse_ok_iff_parse {s : String} {x : AnyAddress} :
    parse s = .ok x ↔ Address.parse x.family s = .ok x.address := by
  rw [parse_ok_iff, Address.parse_ok_iff]

/-- The text of an address is in the printed form of its family. Reading it gives the address back, as its own family and
without a stated one. No text is read as both families, and without a stated family just what is read as one of them is read,
as the same address. So addresses with the same text are the same. -/
theorem text_round_trips :
    (∀ (f : Family) (a : Address f), a.PrintedAs a.text.toList ∧ Address.parse f a.text = .ok a ∧
      AnyAddress.parse a.text = .ok ⟨f, a⟩) ∧
    (∀ x : AnyAddress, AnyAddress.parse x.text = .ok x) ∧
    (∀ (s : String) (a : Address .v4) (b : Address .v6),
      ¬ (Address.parse .v4 s = .ok a ∧ Address.parse .v6 s = .ok b)) ∧
    (∀ (s : String) (x : AnyAddress), AnyAddress.parse s = .ok x ↔ Address.parse x.family s = .ok x.address) ∧
    Function.Injective AnyAddress.text := by
  have hparse (x : AnyAddress) : AnyAddress.parse x.text = .ok x :=
    AnyAddress.parse_ok_iff.2 x.address.spelledBy_text
  refine ⟨fun f a => ⟨a.printedAs_text, Address.parse_ok_iff.2 a.spelledBy_text, hparse ⟨f, a⟩⟩, hparse, ?_,
    fun s x => AnyAddress.parse_ok_iff_parse, fun x y hxy => ?_⟩
  · rintro s a b ⟨ha, hb⟩
    cases (Address.parse_ok_iff.1 ha).family_eq (Address.parse_ok_iff.1 hb)
  · have hx := hparse x
    rw [hxy, hparse y] at hx
    exact (Except.ok.inj hx).symm

end IpSpace
