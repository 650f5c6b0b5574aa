import Shader.Numeral.Digits
import Shader.Numeral.Dyadic

/-!
# Decimal numerals

Numbers as an integer times a power of ten: reading them as values of a binary format, and the two
decimals of such a value, its exact one and the shortest one that reads back as the value. Both are
kept without zeros at the end, so that they are equal if and only if they are the same number.
-/

namespace Shader.Numeral

/-- The number `coefficient · 10 ^ exponent`. -/
structure Decimal where
  /-- the coefficient -/
  coefficient : Nat
  /-- the exponent -/
  exponent : Int
  deriving DecidableEq, Repr

/-- The decimal digits of a number. -/
def digitsOf (n : Nat) : List Char := Nat.toDigits 10 n

namespace Decimal

/-- Moves zeros from the end of a positive coefficient to the exponent. -/
def trim (d : Decimal) : Decimal :=
  if h : d.coefficient ≠ 0 ∧ d.coefficient % 10 = 0 then
    trim ⟨d.coefficient / 10, d.exponent + 1⟩
  else d
termination_by d.coefficient
decreasing_by exact Nat.div_lt_self (Nat.pos_of_ne_zero h.1) (by decide)

/-- The exponent of the number when one digit stands before the point. -/
def magnitude (d : Decimal) : Int := d.exponent + ((digitsOf d.coefficient).length - 1 : Nat)

/-! ## Reading -/

/-- The decimal of a numeral: digits, a point and digits, a mark `e` or `E`, a sign and digits, as
far as they are there. -/
def ofText (text : List Char) : Decimal :=
  let whole := text.takeWhile Char.isDigit
  let text := text.dropWhile Char.isDigit
  let (fraction, text) :=
    match text with
    | '.' :: text => (text.takeWhile Char.isDigit, text.dropWhile Char.isDigit)
    | _ => ([], text)
  let exponent : Int :=
    match text.drop 1 with
    | '-' :: digits => -ofDigits (digits.takeWhile Char.isDigit)
    | '+' :: digits => ofDigits (digits.takeWhile Char.isDigit)
    | digits => ofDigits (digits.takeWhile Char.isDigit)
  ⟨ofDigits (whole ++ fraction), exponent - fraction.length⟩

/-- Decimals whose magnitude is past this bound are beyond every format. -/
def magnitudeBound : Int := 400

/-- The value of a format nearest to a decimal; nothing if the decimal is too large. -/
def toDyadic? (f : Format) (negative : Bool) (d : Decimal) : Option Dyadic :=
  let value (r : Nat × Int) : Dyadic := ⟨negative, r.1, r.2⟩
  if d.coefficient = 0 ∨ d.magnitude < -magnitudeBound then some (value (0, 0))
  else if magnitudeBound < d.magnitude then none
  else
    (f.round? (scaleNum 10 d.coefficient d.exponent) (scaleDen 10 1 d.exponent)).map value

/-! ## Writing -/

/-- The exact decimal of `m · 2 ^ e`. -/
def exact (m : Nat) (e : Int) : Decimal :=
  if 0 ≤ e then ⟨m * Nat.pow 2 e.toNat, 0⟩ else ⟨m * Nat.pow 5 (-e).toNat, e⟩

/-- A decimal rounded to a number of digits. -/
def roundTo (digits : Nat) (d : Decimal) : Decimal :=
  let surplus := (digitsOf d.coefficient).length - digits
  ⟨roundDiv d.coefficient (Nat.pow 10 surplus), d.exponent + surplus⟩

/-- The numbers that round to a value of a format: in fourths of the unit of its mantissa, the
value and the ends of the interval, and whether the ends belong to it. -/
structure Interval where
  /-- the value -/
  value : Nat
  /-- the lower end -/
  low : Nat
  /-- the upper end -/
  high : Nat
  /-- whether the ends belong to the interval -/
  closed : Bool

/-- The numbers that round to `m · 2 ^ e`. Below a power of two the values of the format lie more
densely. -/
def Interval.of (f : Format) (m : Nat) (e : Int) : Interval where
  value := 4 * m
  low :=
    if m = Nat.pow 2 (f.precision - 1) ∧ f.minExponent < e then 4 * m - 1 else 4 * m - 2
  high := 4 * m + 2
  closed := m % 2 = 0

/-- The decimal with a number of digits that lies in the interval around `value · 2 ^ unit`, the
nearer one if there are two. -/
def ofLength? (i : Interval) (unit magnitude : Int) (digits : Nat) : Option Decimal :=
  let t := magnitude - digits + 1
  let grid := scaleNum 10 1 t * scaleDen 2 1 unit
  let scale := scaleNum 2 1 unit * scaleDen 10 1 t
  let inside (q : Nat) : Bool :=
    if i.closed then i.low * scale ≤ q * grid && q * grid ≤ i.high * scale
    else i.low * scale < q * grid && q * grid < i.high * scale
  let below := i.value * scale / grid
  let left := i.value * scale - below * grid
  match inside below, inside (below + 1) with
  | true, true => some ⟨if 2 * left ≤ grid then below else below + 1, t⟩
  | true, false => some ⟨below, t⟩
  | false, true => some ⟨below + 1, t⟩
  | false, false => none

/-- The shortest decimal that rounds to `m · 2 ^ e` in a format. Seventeen digits are enough for
both formats. -/
def shortest (f : Format) (m : Nat) (e : Int) : Decimal :=
  let exact := exact m e
  let found := (List.range 17).findSome? fun k =>
    ofLength? (.of f m e) (e - 2) exact.magnitude (k + 1)
  (found.getD exact).trim

/-- The decimal that is both the exact and the shortest one of a value, if they are the same. The
exact one is looked at to a hundred digits behind the first. -/
def faithful? (f : Format) (x : Dyadic) : Option Decimal :=
  match x.roundTo? f with
  | none => none
  | some (m, e) =>
    let exact := ((exact m e).roundTo 101).trim
    if x.fits f ∧ exact = shortest f m e then some exact else none

/-- The text of a decimal: positional where one digit before the point needs an exponent from -4
to 5, and with an exponent of at least two digits elsewhere; a point always, and a digit behind
it. -/
def text (d : Decimal) : String :=
  let digits := digitsOf d.coefficient
  let e := d.magnitude
  let zeros (n : Int) : List Char := List.replicate n.toNat '0'
  let pointed (whole fraction : List Char) : List Char :=
    whole ++ ['.'] ++ if fraction.isEmpty then ['0'] else fraction
  if d.coefficient = 0 then "0.0"
  else if e < -4 ∨ 6 ≤ e then
    let power := digitsOf e.natAbs
    String.ofList (pointed (digits.take 1) (digits.drop 1)) ++ "e" ++
      (if e < 0 then "-" else "+") ++ String.ofList (zeros (2 - power.length) ++ power)
  else if e < 0 then String.ofList (pointed ['0'] (zeros (-e - 1) ++ digits))
  else
    let size := (e + 1).toNat
    String.ofList (pointed (digits.take size ++ zeros (size - digits.length)) (digits.drop size))

end Decimal

end Shader.Numeral
