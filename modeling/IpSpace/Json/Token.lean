import IpSpace.Json.Quoted

/-!
# JSON tokens

The tokens of the part of JSON that addresses use: brackets and braces, commas and colons, whole numbers without a sign,
and quoted texts. Blanks may stand between tokens; a text with anything else in it is not scanned.

A number is kept as its digits, so that its spelling can be judged by what it is used for.
-/
namespace IpSpace.Json

inductive Token where
  | openArray
  | closeArray
  | openObject
  | closeObject
  | comma
  | colon
  | number (digits : List Char)
  | string (text : List Char)
deriving DecidableEq

/-- The blanks of JSON. -/
def isBlank (c : Char) : Bool := c = ' ' || c = '\t' || c = '\n' || c = '\r'

/-- The tokens of one character. -/
def Token.ofChar? : Char → Option Token
  | '[' => some .openArray
  | ']' => some .closeArray
  | '\x7b' => some .openObject
  | '\x7d' => some .closeObject
  | ',' => some .comma
  | ':' => some .colon
  | _ => none

/-- The tokens of a text. -/
def scan : List Char → Option (List Token)
  | [] => some []
  | c :: cs =>
    if isBlank c then scan cs
    else if c.isDigit then
      (scan (cs.dropWhile Char.isDigit)).map (.number (c :: cs.takeWhile Char.isDigit) :: ·)
    else if c = '\x22' then
      match _h : readQuoted? cs with
      | none => none
      | some (text, rest) => (scan rest).map (.string text :: ·)
    else match Token.ofChar? c with
      | none => none
      | some t => (scan cs).map (t :: ·)
termination_by cs => cs.length
decreasing_by
  · exact Nat.lt_succ_self _
  · exact Nat.lt_succ_of_le (List.dropWhile_sublist _).length_le
  · exact Nat.lt_succ_of_lt (length_of_readQuoted? ‹_›)
  · exact Nat.lt_succ_self _

/-- How a token is written. The texts of tokens to write hold no character that needs an escape. -/
def Token.write : Token → List Char
  | .openArray => ['[']
  | .closeArray => [']']
  | .openObject => ['\x7b']
  | .closeObject => ['\x7d']
  | .comma => [',']
  | .colon => [':']
  | .number digits => digits
  | .string text => '\x22' :: text ++ ['\x22']

end IpSpace.Json
