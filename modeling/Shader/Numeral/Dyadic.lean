/-!
# Dyadic numbers

Floating-point values as an integer times a power of two, and the rounding of quotients to the
values of a binary format. Rounding goes to the nearest value of the format, and from the middle
between two of them to the one with an even mantissa. All arithmetic is exact.
-/

namespace Shader.Numeral

/-- The number `±mantissa · 2 ^ exponent`; zero has a sign, too. -/
structure Dyadic where
  /-- whether the sign is a minus -/
  negative : Bool
  /-- the mantissa -/
  mantissa : Nat
  /-- the exponent -/
  exponent : Int
  deriving DecidableEq, Repr

/-- A binary floating-point format. -/
structure Format where
  /-- the number of bits of a mantissa -/
  precision : Nat
  /-- the least exponent of an integral mantissa -/
  minExponent : Int
  /-- the exponent of the least power of two that is too large -/
  maxExponent : Int

/-- Single precision. -/
def Format.single : Format := ⟨24, -149, 128⟩

/-- Double precision. -/
def Format.double : Format := ⟨53, -1074, 1024⟩

/-- The quotient rounded to an integer, a half to the even neighbour. -/
def roundDiv (num den : Nat) : Nat :=
  let q := num / den
  let r := num % den
  if 2 * r < den then q
  else if den < 2 * r then q + 1
  else q + q % 2

/-- The numerator of `num / den · b ^ k`. -/
def scaleNum (b num : Nat) (k : Int) : Nat := num * Nat.pow b k.toNat

/-- The denominator of `num / den · b ^ k`. -/
def scaleDen (b den : Nat) (k : Int) : Nat := den * Nat.pow b (-k).toNat

/-- The largest power of two that is not above a positive quotient, by its exponent. -/
def floorLog2 (num den : Nat) : Int :=
  let k : Int := (num.log2 : Int) - (den.log2 : Int)
  if scaleDen 2 den (-k) ≤ scaleNum 2 num (-k) then k else k - 1

namespace Format

/-- The mantissa and exponent of the value of the format that is nearest to a quotient; nothing if
the quotient is too large for the format. -/
def round? (f : Format) (num den : Nat) : Option (Nat × Int) :=
  if num = 0 then some (0, 0)
  else
    let e := max f.minExponent (floorLog2 num den - (f.precision - 1 : Nat))
    let m := roundDiv (scaleNum 2 num (-e)) (scaleDen 2 den (-e))
    let (m, e) :=
      if m = Nat.pow 2 f.precision then (Nat.pow 2 (f.precision - 1), e + 1) else (m, e)
    if f.maxExponent < e + f.precision then none else some (m, e)

end Format

/-- The least integer above those of a signed word of sixty-four bits. -/
def wordBound : Int := 9223372036854775808

namespace Dyadic

/-- Zero. -/
def zero : Dyadic := ⟨false, 0, 0⟩

/-- The number with the other sign. -/
def neg (x : Dyadic) : Dyadic := { x with negative := !x.negative }

/-- The number rounded to a format, as mantissa and exponent. -/
def roundTo? (f : Format) (x : Dyadic) : Option (Nat × Int) :=
  f.round? (scaleNum 2 x.mantissa x.exponent) (scaleDen 2 1 x.exponent)

/-- Whether two mantissas with exponents stand for one number. -/
def sameSize (m : Nat) (e : Int) (n : Nat) (d : Int) : Bool :=
  scaleNum 2 m (e - d) = scaleDen 2 n (e - d)

/-- Whether the number is a value of a format. -/
def fits (f : Format) (x : Dyadic) : Bool :=
  (x.roundTo? f).any fun (m, e) => sameSize m e x.mantissa x.exponent

/-- The bits of a value of double precision: the sign, eleven bits of a biased exponent and
fifty-two bits of a mantissa whose first bit is left out unless the exponent is the least. -/
def bits (x : Dyadic) : Nat :=
  let sign := if x.negative then Nat.pow 2 63 else 0
  let unit := Nat.pow 2 52
  match x.roundTo? .double with
  | none => sign + 2047 * unit
  | some (m, e) =>
    if m < unit then sign + m else sign + (e + 1075).toNat * unit + (m - unit)

/-- The integer part, rounded toward zero. -/
def trunc (x : Dyadic) : Int :=
  let size : Int := scaleNum 2 x.mantissa x.exponent / scaleDen 2 1 x.exponent
  if x.negative then -size else size

/-- The integer part as a word of sixty-four bits; what is too large for the word becomes its least
value. -/
def toWord (x : Dyadic) : Int :=
  let n := x.trunc
  if -wordBound ≤ n ∧ n < wordBound then n else -wordBound

end Dyadic

end Shader.Numeral
