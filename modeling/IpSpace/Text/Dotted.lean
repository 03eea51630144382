import IpSpace.Text.Numeral
import IpSpace.Text.Pieces

/-!
# Dotted decimal

Bytes written in decimal and joined by dots, as in `192.0.2.1`. A byte has no leading zeros.
-/
namespace IpSpace.Text.Dotted

/-- Reads one byte: one to three digits, below 256, with a leading zero in `0` alone. -/
def readByte? (cs : List Char) : Option UInt8 :=
  if cs.head? = some '0' ∧ cs ≠ ['0'] then none
  else ((Numeral.read? 10 3 cs).filter (· < 256)).map UInt8.ofNat

/-- Reads bytes joined by dots. -/
def read? (cs : List Char) : Option (List UInt8) := (pieces '.' cs).mapM readByte?

def writeByte (b : UInt8) : List Char := Numeral.write 10 3 b.toNat

def write (bytes : List UInt8) : List Char := ['.'].intercalate (bytes.map writeByte)

end IpSpace.Text.Dotted
