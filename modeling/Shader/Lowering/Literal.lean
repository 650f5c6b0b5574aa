import Shader.Lowering.Cause
import Shader.Ir
import Shader.Numeral.Decimal

/-!
# Numbers in the text

The constants that numbers stand for. An integer must be representable in the 32 bits of its type;
an unsigned one in the upper half of its range is kept as the signed integer with the same bits. A
floating-point number is rounded to its precision, and must not be too large for it.
-/

namespace Shader.Lowering

open Ir

/-- The number of signed integers of 32 bits that are not negative. -/
def signedBound : Nat := 2147483648

/-- The number of unsigned integers of 32 bits. -/
def unsignedBound : Nat := 4294967296

/-- The signed integer with the same 32 bits as an unsigned one. -/
def signedWord (n : Nat) : Int := if n < signedBound then n else n - unsignedBound

/-- The constant of a floating-point number. -/
def floatLiteral (kind : NumberKind) (f : Numeral.Format) (text : String) : Except Cause Value :=
  match (Numeral.Decimal.ofText text.toList).toDyadic? f false with
  | none => .error (.invalidLiteral kind text)
  | some x => .ok (.const (.ofScalar kind.type x))

/-- The letters of suffixes. -/
def isSuffixLetter (c : Char) : Bool := c == 'f' || c == 'F' || c == 'u' || c == 'U'

/-- A text without the letters of a suffix at its end. -/
def unsuffixed (text : List Char) : List Char := (text.reverse.dropWhile isSuffixLetter).reverse

/-- The number of 32 bits that a text of decimal digits stands for. -/
def parseUnsigned? (text : List Char) : Option Nat :=
  let n := Numeral.ofDigits text
  if text ≠ [] ∧ text.all Char.isDigit = true ∧ n < unsignedBound then some n else none

/-- The constant of an integer below a bound. -/
def intLiteral (kind : NumberKind) (bound : Nat) (text : String) : Except Cause Value :=
  match parseUnsigned? (unsuffixed text.toList) with
  | none => .error (.literalRange kind text)
  | some n => if n < bound then .ok (.int (signedWord n)) else .error (.literalRange kind text)

/-- The constant of a number. -/
def literal (kind : NumberKind) (text : String) : Except Cause Value :=
  match kind with
  | .int => intLiteral .int signedBound text
  | .uint => intLiteral .uint unsignedBound text
  | .float => floatLiteral .float .single text
  | .double => floatLiteral .double .double text

end Shader.Lowering
