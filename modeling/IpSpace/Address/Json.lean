import IpSpace.Address.Text
import IpSpace.Json.Token

/-!
# Addresses in JSON

An address of a stated family is the array of its bytes; an address of either family is an object whose one entry is
that array under the family's key, as in `{"V4":[192,0,2,1]}`. A byte is spelled as in dotted decimal: without sign,
leading zeros, fraction or exponent.
-/
namespace IpSpace

open Json (Token)

/-- The key of an address of the family. -/
def Family.key : Family → List Char
  | .v4 => ['V', '4']
  | .v6 => ['V', '6']

def Family.ofKey? (key : List Char) : Option Family :=
  if key = Family.key .v4 then some .v4 else if key = Family.key .v6 then some .v6 else none

namespace Json

/-! ## Arrays of bytes -/

/-- Reads the rest of an array after a byte: the bytes in it and the tokens after it. -/
def readMore? : List Token → Option (List UInt8 × List Token)
  | .closeArray :: rest => some ([], rest)
  | .comma :: .number digits :: rest => do
    let byte ← Text.Dotted.readByte? digits
    let (bytes, rest) ← readMore? rest
    some (byte :: bytes, rest)
  | _ => none

/-- Reads an array of one or more bytes. -/
def readBytes? : List Token → Option (List UInt8 × List Token)
  | .openArray :: .number digits :: rest => do
    let byte ← Text.Dotted.readByte? digits
    let (bytes, rest) ← readMore? rest
    some (byte :: bytes, rest)
  | _ => none

/-- The tokens of an array of bytes. -/
def ofBytes (bytes : List UInt8) : List Token :=
  .openArray :: (bytes.map fun b => Token.number (Text.Dotted.writeByte b)).intersperse .comma ++ [.closeArray]

end Json

namespace Address

variable {f : Family}

def toTokens (a : Address f) : List Token := Json.ofBytes a.octets

def ofTokens? (f : Family) (tokens : List Token) : Option (Address f) :=
  match Json.readBytes? tokens with
  | some (bytes, []) => ofOctets? f bytes
  | _ => none

/-- The array of the bytes. Models `Address4.serialize` and `Address6.serialize`. -/
def toJson (a : Address f) : String := String.ofList (a.toTokens.flatMap Token.write)

/-- Reads an array of as many bytes as the family has. Models `Address4.deserialize` and `Address6.deserialize`. -/
def fromJson? (f : Family) (s : String) : Option (Address f) := do ofTokens? f (← Json.scan s.toList)

end Address

namespace AnyAddress

def toTokens (a : AnyAddress) : List Token :=
  [.openObject, .string a.family.key, .colon] ++ a.address.toTokens ++ [.closeObject]

def ofTokens? : List Token → Option AnyAddress
  | .openObject :: .string key :: .colon :: tokens => do
    let family ← Family.ofKey? key
    match ← Json.readBytes? tokens with
    | (bytes, [.closeObject]) => (Address.ofOctets? family bytes).map (⟨family, ·⟩)
    | _ => none
  | _ => none

/-- The entry for the family. Models `Address.serialize`. -/
def toJson (a : AnyAddress) : String := String.ofList (a.toTokens.flatMap Token.write)

/-- Reads an entry for either family. Models `Address.deserialize`. -/
def fromJson? (s : String) : Option AnyAddress := do ofTokens? (← Json.scan s.toList)

end AnyAddress

end IpSpace
