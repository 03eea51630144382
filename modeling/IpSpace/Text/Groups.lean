import IpSpace.Bytes.BigEndian
import IpSpace.Text.Dotted

/-!
# Groups of hexadecimal digits

The text of sixteen bytes as eight groups of two bytes, as in `2001:db8::1`. A group has one to four digits, groups are
joined by colons, and one `::` may stand for one or more groups of zeros. The last four bytes may be in dotted decimal.

Writing drops leading zeros of a group, lets `::` stand for the leftmost of the longest runs of two or more groups of
zeros, and uses dotted decimal exactly for the addresses `::ffff:0.0.0.0` to `::ffff:255.255.255.255`.
-/
namespace IpSpace.Text.Groups

/-- The number of bytes that a whole text stands for. -/
def width : Nat := 16

/-! ## Reading -/

/-- Reads one group: two bytes. -/
def readGroup? (cs : List Char) : Option (List UInt8) :=
  (Numeral.read? 16 4 cs).map (BigEndian.ofNat 2)

/-- Reads four bytes in dotted decimal. -/
def readQuad? (cs : List Char) : Option (List UInt8) :=
  (Dotted.read? cs).filter (·.length = 4)

/-- Reads the pieces between single colons; with `quad`, the last one may be in dotted decimal. -/
def readPieces? (quad : Bool) : List (List Char) → Option (List UInt8)
  | [] => some []
  | [p] => readGroup? p <|> (if quad then readQuad? p else none)
  | p :: ps => do some ((← readGroup? p) ++ (← readPieces? quad ps))

/-- Reads what stands on one side of `::`, which may be nothing. -/
def readSide? (quad : Bool) (cs : List Char) : Option (List UInt8) :=
  if cs = [] then some [] else readPieces? quad (pieces ':' cs)

/-- The texts before and after the first `::`. -/
def splitElision : List Char → Option (List Char × List Char)
  | [] => none
  | [_] => none
  | c :: d :: cs =>
    if c = ':' ∧ d = ':' then some ([], cs)
    else (splitElision (d :: cs)).map fun (before, after) => (c :: before, after)

/-- Puts zeros between two sides, where at least one group is missing. -/
def fill? (high low : List UInt8) : Option (List UInt8) :=
  if high.length + low.length + 2 ≤ width then
    some (high ++ List.replicate (width - (high.length + low.length)) 0 ++ low)
  else none

/-- Reads a whole text. -/
def read? (cs : List Char) : Option (List UInt8) :=
  match splitElision cs with
  | none => readPieces? true (pieces ':' cs)
  | some (before, after) => do fill? (← readSide? false before) (← readSide? true after)

/-! ## Writing -/

/-- The values of the groups. -/
def ofBytes : List UInt8 → List Nat
  | high :: low :: bytes => BigEndian.toNat [high, low] :: ofBytes bytes
  | _ => []

def writeGroup (group : Nat) : List Char := Numeral.write 16 4 group

def writeGroups (groups : List Nat) : List Char := [':'].intercalate (groups.map writeGroup)

/-- How many groups of zeros there are from `start` on. -/
def zerosFrom (groups : List Nat) (start : Nat) : Nat :=
  ((groups.drop start).takeWhile (· == 0)).length

/-- Where the leftmost of the longest runs of zeros starts, and how long it is. -/
def longestZeros (groups : List Nat) : Nat × Nat :=
  (List.range groups.length).foldl
    (fun best start => if best.2 < zerosFrom groups start then (start, zerosFrom groups start) else best) (0, 0)

/-- Writes groups, the longest run of zeros as `::` if it has two or more. -/
def writeElided (groups : List Nat) : List Char :=
  let (start, length) := longestZeros groups
  if length < 2 then writeGroups groups
  else writeGroups (groups.take start) ++ [':', ':'] ++ writeGroups (groups.drop (start + length))

/-- The bytes in front of an IPv4 address that is carried as an IPv6 one. -/
def mappedHead : List UInt8 := List.replicate 10 0 ++ [0xff, 0xff]

/-- Writes a whole text. -/
def write (bytes : List UInt8) : List Char :=
  if bytes.take 12 = mappedHead then "::ffff:".toList ++ Dotted.write (bytes.drop 12)
  else writeElided (ofBytes bytes)

end IpSpace.Text.Groups
