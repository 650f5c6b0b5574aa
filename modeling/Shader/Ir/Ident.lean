import Shader.Numeral.Digits
import Shader.Numeral.Dyadic

/-!
# Identifiers of the target

Letters, digits and four signs stand for themselves in an identifier. A name with any other
character is put in quotes, where the visible characters of ASCII and the blank stand for
themselves too; the octets of all other characters, of the quote and of the backslash are written
in hexadecimal. A name that would read as a number is also put in quotes, because numbers stand for
what has no name.

Where a name is told without its sigil, it is told as it is, unless it spells an integer: then it
is that integer in quotes.
-/

namespace Shader.Ir.Ident

/-- The characters that need no quotes. -/
def isPlain (c : Char) : Bool := c.isAlphanum || c = '$' || c = '-' || c = '.' || c = '_'

/-- The characters that stand for themselves in quotes. -/
def isQuotable (c : Char) : Bool := ' ' ≤ c && c ≤ '~' && c ≠ '"' && c ≠ '\\'

/-- An octet behind a backslash. -/
def escapeOctet (b : UInt8) : List Char :=
  let digits := (Nat.toDigits 16 b.toNat).map Char.toUpper
  '\\' :: (List.replicate (2 - digits.length) '0' ++ digits)

/-- A character inside quotes. -/
def escapeChar (c : Char) : List Char :=
  if isQuotable c then [c] else (String.singleton c).toUTF8.toList.flatMap escapeOctet

/-- A name in quotes. -/
def quoted (name : String) : String :=
  String.ofList (['"'] ++ name.toList.flatMap escapeChar ++ ['"'])

/-- The value of decimal digits, of which there must be some. -/
def digits? (cs : List Char) : Option Nat :=
  if cs ≠ [] ∧ cs.all Char.isDigit then some (Numeral.ofDigits cs) else none

/-- Whether a name reads as a number: as digits whose value fits sixty-four bits. -/
def isNumber (name : String) : Bool := (digits? name.toList).any fun n => n < 2 * Numeral.wordBound

/-- A name as it is written behind a sigil or in front of a colon. -/
def written (name : String) : String :=
  if name.toList.all isPlain && !isNumber name then name else quoted name

/-- The integer that a name spells with or without a sign, if it fits sixty-four bits. -/
def integer? (name : String) : Option Int :=
  let value : Option Int :=
    match name.toList with
    | '-' :: cs => (digits? cs).map fun n => -(n : Int)
    | '+' :: cs => (digits? cs).map Int.ofNat
    | cs => (digits? cs).map Int.ofNat
  value.filter fun n => -Numeral.wordBound ≤ n && n < Numeral.wordBound

/-- A name as it is told without a sigil. -/
def told (name : String) : String :=
  match integer? name with
  | some n => "\"" ++ toString n ++ "\""
  | none => name

/-- The identifier of a global with a name. -/
def global (name : String) : String := "@" ++ written name

end Shader.Ir.Ident
