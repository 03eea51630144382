import IpSpace.Family

/-!
# What can go wrong

`Error` has the causes that operations on addresses, masks, blocks and ranges report; `SyntaxError` is the one cause of
a text that is no address.
-/
namespace IpSpace

/-- Why an operation fails. Models `Error`. -/
inductive Error where
  /-- A step would leave the block. -/
  | addressAtEndOfRange
  /-- The address is not one the operation works on. -/
  | addressOutOfRange
  /-- A prefix or host mask is too long, or the two do not go together. -/
  | badMaskLength
  /-- The address is reserved as the broadcast address of its block. -/
  | broadcastAddress
  /-- The address is reserved as the network address of its block. -/
  | networkAddress
  /-- The two addresses bound no range. -/
  | noValidRange
deriving DecidableEq

/-- The text of the error. Models `Error.fmt`. -/
def Error.message : Error → String
  | .addressAtEndOfRange => "proposed operation would cause the address to exit the block"
  | .addressOutOfRange => "address is not a part of this block"
  | .badMaskLength => "illegal mask length"
  | .broadcastAddress => "address is the broadcast address of this block"
  | .networkAddress => "address is the network address of this block"
  | .noValidRange => "no block can be found between the supplied addresses"

/-- A text is no address of the expected family (`none`: of either family). Models `AddrParseError`. -/
structure SyntaxError where
  expected : Option Family
deriving DecidableEq

/-- The text of the error. Models `AddrParseError.fmt`. -/
def SyntaxError.message (e : SyntaxError) : String :=
  match e.expected with
  | some .v4 => "invalid IPv4 address syntax"
  | some .v6 => "invalid IPv6 address syntax"
  | none => "invalid IP address syntax"

end IpSpace
