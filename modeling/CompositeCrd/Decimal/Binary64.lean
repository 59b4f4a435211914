/-!
# Binary64 numbers as exact integers

A finite binary64 number is held as sign, mantissa and exponent, `± mantissa * 2 ^ exponent`.
Reading a decimal rounds its exact value to the nearest such number, with ties to the even
mantissa (`Binary64.nearest`); all arithmetic is on natural numbers.

The numbers made here are in canonical form: the exponent is at least `minExponent`, the
mantissa is below `2 ^ 53`, and it is at least `2 ^ 52` unless the exponent is the least one.
So equal values have equal representations, the two zeros apart.
-/

namespace CompositeCrd

/-- A finite binary64 number, `mantissa * 2 ^ exponent` with a sign. -/
structure Binary64 where
  /-- Whether the sign is minus; zero has a sign too. -/
  negative : Bool
  /-- The mantissa, below `2 ^ 53`. -/
  mantissa : Nat
  /-- The exponent of two. -/
  exponent : Int
deriving DecidableEq, Repr

namespace Binary64

/-- The exponent of the least positive number. -/
def minExponent : Int := -1074

/-- The exponent of the greatest finite number. -/
def maxExponent : Int := 971

/-- The least mantissa of a number whose exponent is not the least one, which is `2 ^ 52`. -/
def leastNormal : Nat := 0x10000000000000

/-- Zero, with the given sign. -/
def zero (negative : Bool) : Binary64 :=
  { negative, mantissa := 0, exponent := minExponent }

/-- Equality of values: the two zeros are equal. -/
def same (x y : Binary64) : Bool :=
  x == y || (x.mantissa == 0 && y.mantissa == 0)

/-- The fraction `n * base ^ e` as numerator and denominator. -/
def scaled (n base : Nat) (e : Int) : Nat × Nat :=
  if 0 ≤ e then (n * Nat.pow base e.toNat, 1) else (n, Nat.pow base (-e).toNat)

/-- The quotient rounded to the nearest integer, a half to the even neighbour. -/
def roundHalfEven (num den : Nat) : Nat :=
  let q := num / den
  let r := num % den
  if 2 * r < den then q
  else if den < 2 * r then q + 1
  -- A tie goes to the even one.
  else q + q % 2

/-- The exponent at which the positive fraction `num / den` has a mantissa of 53 bits, or the
least exponent if that is greater. -/
def exponentOf (num den : Nat) : Int :=
  let k : Int := num.log2 - den.log2
  let (n, d) := scaled 1 2 k
  let top := if d * num < n * den then k - 1 else k
  max (top - 52) minExponent

/-- The binary64 number nearest to `num / den`, ties to the even mantissa, or `none` if the
value is too great. -/
def nearest (negative : Bool) (num den : Nat) : Option Binary64 :=
  if num = 0 then some (zero negative)
  else
    let e := exponentOf num den
    let (n, d) := scaled 1 2 e
    let m := roundHalfEven (num * d) (den * n)
    -- rounding up may carry into a bit of its own
    let (m, e) := if m = 2 * leastNormal then (leastNormal, e + 1) else (m, e)
    if maxExponent < e then none else some { negative, mantissa := m, exponent := e }

/-- The number of decimal digits of `n`, which is 1 for zero. -/
def digitCount (n : Nat) : Nat :=
  (Nat.toDigits 10 n).length

/-- The binary64 number nearest to `digits * 10 ^ exponent`, or `none` if that is too great.
Magnitudes far outside the range are settled by the number of digits alone. -/
def ofDecimal (negative : Bool) (digits : Nat) (exponent : Int) : Option Binary64 :=
  let magnitude := digitCount digits + exponent
  if digits = 0 ∨ magnitude < -330 then some (zero negative)
  else if 310 < magnitude then none
  else
    let (num, den) := scaled digits 10 exponent
    nearest negative num den

end Binary64

end CompositeCrd
