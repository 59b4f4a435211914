import CompositeCrd.Decimal.Binary64

/-!
# Reading a decimal with binary64 arithmetic

A decimal `significand * 10 ^ exponent` whose significand has 64 bits can be read with two or
three operations on binary64 numbers: the significand and the power of ten are rounded, and then
they are multiplied or divided (`Binary64.ofParts`). Every operation rounds, so the result can be
some units of the last place away from the nearest number that `Binary64.ofDecimal` gives.

The operations look at magnitudes only, and the sign is put on at the end.
-/

namespace CompositeCrd.Binary64

/-- The product of two magnitudes, or `none` if it is too great. -/
def mul? (x y : Binary64) : Option Binary64 :=
  let (num, den) := scaled (x.mantissa * y.mantissa) 2 (x.exponent + y.exponent)
  nearest false num den

/-- The quotient of two magnitudes, or `none` if it is too great. -/
def div? (x y : Binary64) : Option Binary64 :=
  let (num, den) := scaled x.mantissa 2 (x.exponent - y.exponent)
  nearest false num (den * y.mantissa)

/-- The exponent of the greatest power of ten within the range of the numbers. -/
def maxPower : Nat := 308

/-- The number nearest to `10 ^ k`. -/
def power? (k : Nat) : Option Binary64 :=
  nearest false (Nat.pow 10 k) 1

/-- Divides by the greatest power of ten a number of times, as long as there is something left. -/
def shrink? : Nat → Binary64 → Option Binary64
  | 0, x => some x
  | steps + 1, x =>
    if x.mantissa = 0 then some x
    else do
      let x ← x.div? (← power? maxPower)
      x.shrink? steps

/-- The magnitude that the arithmetic gives for `significand * 10 ^ exponent`, or `none` if that
is too great. Powers of ten beyond the greatest one are divided out in steps. -/
def magnitude? (significand : Nat) (exponent : Int) : Option Binary64 := do
  let x ← nearest false significand 1
  let n := exponent.natAbs
  if 0 ≤ exponent then
    -- Beyond the greatest power only zero is in range.
    if n ≤ maxPower then x.mul? (← power? n)
    else if x.mantissa = 0 then some x else none
  else
    -- Whole greatest powers first, and then what is left of the exponent.
    let steps := (n - 1) / maxPower
    let x ← x.shrink? steps
    x.div? (← power? (n - maxPower * steps))

/-- The number that the arithmetic gives for `significand * 10 ^ exponent`, with a sign. -/
def ofParts (negative : Bool) (significand : Nat) (exponent : Int) : Option Binary64 :=
  (magnitude? significand exponent).map ({ · with negative })

end CompositeCrd.Binary64
