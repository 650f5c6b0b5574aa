import Shader.Ir.Ty
import Shader.Numeral.Decimal

/-!
# Constants

Constants of the target and their spelling. An integer is written in decimal, unless its
hexadecimal digits are so uniform and its decimal digits so mixed that the former are easier to
read. A floating-point number is written in decimal if its shortest decimal is exact, and otherwise
as the bits that it has in double precision.
-/

namespace Shader.Ir

/-- Constants. -/
inductive Const where
  /-- an integer of 32 bits -/
  | int (v : Int)
  /-- a number in single precision -/
  | float (x : Numeral.Dyadic)
  /-- a number in double precision -/
  | double (x : Numeral.Dyadic)
  /-- the value of a type whose components are all zero -/
  | zero (t : Ty)
  /-- an arbitrary value of a type -/
  | undef (t : Ty)
  deriving DecidableEq, Repr

namespace Const

/-- The type of a constant. -/
def type : Const → Ty
  | int _ => .i32
  | float _ => .float
  | double _ => .double
  | zero t => t
  | undef t => t

/-- The constant of a scalar type nearest to a number; integers drop the fraction. -/
def ofScalar : ScalarType → Numeral.Dyadic → Const
  | .float, x => float x
  | .double, x => double x
  | _, x => int x.toWord

/-- The zero of a type of the shader. -/
def zeroOf : DataType → Const
  | .scalar s => ofScalar s .zero
  | t => zero (Ty.ofData t)

/-! ## Integers -/

/-- How mixed the digits of a number are: the share of different digits among all of them, or among
the digits of the base if the number has more. -/
def entropy (base : Nat) (digits : List Char) : Float :=
  Float.ofNat digits.eraseDups.length / Float.ofNat (min digits.length base)

/-- The largest entropy of hexadecimal digits that count as uniform. -/
def uniformBound (length : Nat) : Float :=
  if length ≤ 6 then 2 / Float.ofNat length
  else if length ≤ 10 then 3 / Float.ofNat length
  else 4 / Float.ofNat (min length 16)

/-- Whether a number is easier to read in hexadecimal. -/
def prefersHex (n : Nat) : Bool :=
  let hexDigits := Nat.toDigits 16 n
  let hex := entropy 16 hexDigits
  let dec := entropy 10 (Nat.toDigits 10 n)
  4096 ≤ n && hex ≤ uniformBound hexDigits.length + 0.01 && dec ≥ hex + 0.2

/-- A number in upper-case hexadecimal digits. -/
def upperHex (n : Nat) : String := String.ofList ((Nat.toDigits 16 n).map Char.toUpper)

/-- The spelling of an integer. -/
def intText (v : Int) : String :=
  if prefersHex v.toNat then "u0x" ++ upperHex v.toNat else toString v

/-! ## Floating-point numbers -/

/-- The bits of double precision that single precision does not have. -/
def surplusBits : Nat := 29

/-- The spelling of a number of a format, of whose bits in double precision some are not used. -/
def floatText (f : Numeral.Format) (unused : Nat) (x : Numeral.Dyadic) : String :=
  match Numeral.Decimal.faithful? f x with
  | some d => (if x.negative then "-" else "") ++ d.text
  | none => "0x" ++ upperHex (x.bits / Nat.pow 2 unused * Nat.pow 2 unused)

/-- The spelling of a constant without its type. -/
def spelling : Const → String
  | int v => intText v
  | float x => floatText .single surplusBits x
  | double x => floatText .double 0 x
  | zero _ => "zeroinitializer"
  | undef _ => "undef"

/-- The type and the spelling of a constant. -/
def text (c : Const) : String := c.type.text ++ " " ++ c.spelling

@[simp] theorem type_ofScalar (s : ScalarType) (x : Numeral.Dyadic) :
    (ofScalar s x).type = Ty.ofScalar s := by
  cases s <;> rfl

@[simp] theorem type_zeroOf (t : DataType) : (zeroOf t).type = Ty.ofData t := by
  cases t <;> simp [zeroOf, Ty.ofData] <;> rfl

end Const

end Shader.Ir
