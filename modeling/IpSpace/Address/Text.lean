import IpSpace.Address.Any
import IpSpace.Text.Groups

/-!
# Address text

IPv4 addresses are written in dotted decimal (`IpSpace.Text.Dotted`), IPv6 addresses as groups of hexadecimal digits
(`IpSpace.Text.Groups`). A text without a stated family is read as IPv4 if it can be, and else as IPv6.
-/
namespace IpSpace

namespace Address

/-- The address with these bytes, if their number is right. -/
def ofOctets? (f : Family) (octets : List UInt8) : Option (Address f) :=
  if h : octets.length = f.bytes then some ⟨octets, h⟩ else none

/-- The bytes that a text of the family stands for. -/
def readOctets? : Family → List Char → Option (List UInt8)
  | .v4, cs => Text.Dotted.read? cs
  | .v6, cs => Text.Groups.read? cs

/-- The text of the bytes of an address of the family. -/
def writeOctets : Family → List UInt8 → List Char
  | .v4, octets => Text.Dotted.write octets
  | .v6, octets => Text.Groups.write octets

def read? (f : Family) (cs : List Char) : Option (Address f) := do ofOctets? f (← readOctets? f cs)

def write {f : Family} (a : Address f) : List Char := writeOctets f a.octets

/-- The address of the family that a text stands for. Models `Address4.from_str` and `Address6.from_str`. -/
def parse (f : Family) (s : String) : Except SyntaxError (Address f) :=
  match read? f s.toList with
  | some a => .ok a
  | none => .error ⟨some f⟩

/-- The text of an address. Models `Address4.fmt` and `Address6.fmt`. -/
def text {f : Family} (a : Address f) : String := String.ofList a.write

end Address

namespace AnyAddress

def read? (cs : List Char) : Option AnyAddress :=
  ((Address.read? .v4 cs).map (⟨.v4, ·⟩)) <|> ((Address.read? .v6 cs).map (⟨.v6, ·⟩))

/-- The address that a text stands for. Models `Address.from_str`. -/
def parse (s : String) : Except SyntaxError AnyAddress :=
  match read? s.toList with
  | some a => .ok a
  | none => .error ⟨none⟩

/-- The text of an address. Models `Address.fmt`. -/
def text (a : AnyAddress) : String := a.address.text

end AnyAddress

end IpSpace
