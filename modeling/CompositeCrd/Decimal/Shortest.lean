import CompositeCrd.Decimal.Binary64

/-!
# The fewest digits that read back

A binary64 number is written with the fewest decimal digits that read back to it, and among
those with the ones nearest to its value (`Binary64.shortest`). A decimal reads back when it
lies between the halves of the gaps to the two neighbouring numbers, ends included if the
mantissa is even (`Binary64.readsBack`).

The layout is that of documents: positional for decimal exponents from -5 to 15 and always
with a point, otherwise one digit before the point and an exponent. Formats differ in whether
a positive exponent has a sign.
-/

namespace CompositeCrd.Binary64

/-- A decimal number `digits * 10 ^ exponent`. -/
structure Decimal where
  /-- The digits, as one number. -/
  digits : Nat
  /-- The exponent of ten. -/
  exponent : Int
deriving DecidableEq, Repr

/-- Compares `a * 10 ^ i` with `b * 2 ^ j`. -/
def compareScaled (a : Nat) (i : Int) (b : Nat) (j : Int) : Ordering :=
  let (n, d) := scaled a 10 i
  let (n', d') := scaled b 2 j
  compare (n * d') (n' * d)

/-- Whether the gap below a number is half the gap above it. -/
def narrowBelow (x : Binary64) : Bool :=
  x.mantissa == leastNormal && minExponent < x.exponent

/-- Whether a decimal lies among the values that round to the magnitude of `x`. -/
def readsBack (x : Binary64) (d : Decimal) : Bool :=
  -- The ends of the interval in quarters of a unit; at a power of two the lower one is nearer.
  let low := 4 * x.mantissa - (if x.narrowBelow then 1 else 2)
  let high := 4 * x.mantissa + 2
  let closed := x.mantissa % 2 == 0
  let atLow := compareScaled d.digits d.exponent low (x.exponent - 2)
  let atHigh := compareScaled d.digits d.exponent high (x.exponent - 2)
  (atLow == .gt || (closed && atLow == .eq)) && (atHigh == .lt || (closed && atHigh == .eq))

/-- The least `k` with `x < 10 ^ k`, for the magnitude of a number that is not zero. Every such
number is above `10 ^ -330`, so its digits can be counted after scaling by `10 ^ 340`. -/
def decimalPoint (x : Binary64) : Int :=
  let (n, d) := scaled x.mantissa 2 x.exponent
  digitCount (n * Nat.pow 10 340 / d) - 340

/-- The decimal with grid `10 ^ exponent` that reads back and is nearest to `x`, if the value's
two neighbours on the grid include one. On an exact tie the even one is taken. -/
def onGrid (x : Binary64) (exponent : Int) : Option Decimal :=
  let (n, d) := scaled x.mantissa 2 x.exponent
  let (p, r) := scaled 1 10 exponent
  let below := n * r / (d * p)
  let lower : Decimal := { digits := below, exponent }
  let upper : Decimal := { digits := below + 1, exponent }
  match x.readsBack lower, x.readsBack upper with
  | true, true => some <|
    -- Both neighbours read back: the nearer one, and of two as near the even one.
    match compare (2 * (n * r)) ((2 * below + 1) * (d * p)) with
    | .lt => lower
    | .gt => upper
    | .eq => if below % 2 = 0 then lower else upper
  | true, false => some lower
  | false, true => some upper
  | false, false => none

/-- A decimal without trailing zeros among at most `fuel` digits. -/
def stripZeros : Nat → Decimal → Decimal
  | 0, d => d
  | fuel + 1, d =>
    if d.digits ≠ 0 ∧ d.digits % 10 = 0 then
      stripZeros fuel { digits := d.digits / 10, exponent := d.exponent + 1 }
    else d

/-- The decimal of fewest digits that reads back, for a number below `10 ^ point`. Seventeen
digits are always enough. -/
def search (x : Binary64) (point : Int) : Option Decimal :=
  (List.range 17).findSome? fun (i : Nat) => x.onGrid (point - (i + 1 : Nat))

/-- The decimal of fewest digits that reads back to the magnitude of `x`. -/
def shortest (x : Binary64) : Decimal :=
  ((x.search x.decimalPoint).map (stripZeros 20)).getD { digits := 0, exponent := 0 }

/-- The layout of the digits `ds` with the point after the first `point` of them. A positive
exponent is marked by `plus`. -/
def layout (plus ds : List Char) (point : Int) : List Char :=
  let exponent := point - 1
  if -5 ≤ exponent ∧ exponent ≤ 15 then
    -- With the point among the digits or not too far from them, else with an exponent.
    if point ≤ 0 then '0' :: '.' :: List.replicate (-point).toNat '0' ++ ds
    else
      let whole := ds.take point.toNat
      let fraction := ds.drop point.toNat
      whole ++ List.replicate (point.toNat - whole.length) '0'
        ++ '.' :: (if fraction.isEmpty then ['0'] else fraction)
  else
    let fraction := ds.drop 1
    ds.take 1 ++ (if fraction.isEmpty then [] else '.' :: fraction)
      ++ 'e' :: (if exponent < 0 then ['-'] else plus) ++ Nat.toDigits 10 exponent.natAbs

/-- The text of a number, in which `plus` marks a positive exponent. -/
def chars (plus : List Char) (x : Binary64) : List Char :=
  let magnitude :=
    if x.mantissa = 0 then ['0', '.', '0']
    else
      let d := x.shortest
      let ds := Nat.toDigits 10 d.digits
      layout plus ds (ds.length + d.exponent)
  if x.negative then '-' :: magnitude else magnitude

end CompositeCrd.Binary64
