/-!
# Decimal digits

The value of a sequence of decimal digits.
-/

namespace Shader.Numeral

/-- The value of a decimal digit. -/
def digitValue (c : Char) : Nat := c.toNat - '0'.toNat

/-- The value of decimal digits that follow a number. -/
def digitsFrom (start : Nat) (digits : List Char) : Nat :=
  digits.foldl (fun n c => 10 * n + digitValue c) start

/-- The value of a sequence of decimal digits; no digits are zero. -/
def ofDigits (digits : List Char) : Nat := digitsFrom 0 digits

end Shader.Numeral
