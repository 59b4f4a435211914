import CompositeCrd.Decimal.Binary64

/-!
# The core schema

A scalar without quotes is a text only if it does not look like something else. `resolve` says
what it looks like: null, a truth value, an integer in base 10, 16, 8 or 2, or a floating point
number. Digits with needless leading zeros are none of these.

Readers ask `resolve` for the value of a scalar, and the writer asks it whether a text needs
quotes.
-/

namespace CompositeCrd.Yaml

/-- What an unquoted scalar stands for. -/
inductive Resolved where
  /-- Nothing. -/
  | null
  /-- A truth value. -/
  | bool (b : Bool)
  /-- An integer of at most 128 bits. -/
  | int (n : Int)
  /-- A floating point number. -/
  | float (x : Binary64)
  /-- An infinity. -/
  | infinite (negative : Bool)
  /-- What is no number, among the floating point numbers. -/
  | nan
  /-- A text. -/
  | text
deriving DecidableEq, Repr

/-- Whether a scalar spells out nothing. -/
def isNull (cs : List Char) : Bool :=
  String.ofList cs ∈ ["null", "Null", "NULL", "~"]

/-- The truth value that a scalar spells out. -/
def bool? (cs : List Char) : Option Bool :=
  if String.ofList cs ∈ ["true", "True", "TRUE"] then some true
  else if String.ofList cs ∈ ["false", "False", "FALSE"] then some false
  else none

/-- The value of a digit in a base of at most 16. -/
def digit? (base : Nat) (c : Char) : Option Nat :=
  let value :=
    if '0' ≤ c ∧ c ≤ '9' then c.toNat - '0'.toNat
    else if 'a' ≤ c ∧ c ≤ 'f' then c.toNat - 'a'.toNat + 10
    else if 'A' ≤ c ∧ c ≤ 'F' then c.toNat - 'A'.toNat + 10
    else base
  if value < base then some value else none

/-- The number that digits write, of which there is at least one. -/
def digits? (base : Nat) : List Char → Option Nat
  | [] => none
  | cs => cs.foldlM (fun n c => (digit? base c).map (n * base + ·)) 0

/-- The number that unsigned digits write, in the base that their first two characters tell. -/
def magnitude? (cs : List Char) : Option Nat :=
  match cs with
  | '0' :: 'x' :: ds => digits? 16 ds
  | '0' :: 'o' :: ds => digits? 8 ds
  | '0' :: 'b' :: ds => digits? 2 ds
  -- A zero in front of other digits makes no integer; it is read as a number with a fraction, or
  -- as a text.
  | ['0'] => some 0
  | '0' :: _ => none
  | ds => digits? 10 ds

/-- The integer that a scalar writes, of any size. -/
def int? : List Char → Option Int
  | '-' :: cs => (magnitude? cs).map fun n => -(n : Int)
  | '+' :: cs => (magnitude? cs).map fun n => (n : Int)
  | cs => (magnitude? cs).map fun n => (n : Int)

/-- Whether a scalar consists of digits, maybe behind a sign, with needless leading zeros. -/
def isPadded : List Char → Bool
  | '-' :: cs => padded cs
  | '+' :: cs => padded cs
  | cs => padded cs
where
  /-- Whether there are digits only, a zero first and something behind it. -/
  padded : List Char → Bool
    | '0' :: c :: cs => (c :: cs).all Char.isDigit
    | _ => false

/-- The number that decimal digits write. -/
def ofDecimalDigits (ds : List Char) : Nat :=
  ds.foldl (fun n c => n * 10 + (c.toNat - '0'.toNat)) 0

/-- The exponent behind the digits of a floating point number, zero if none is written. -/
def exponent? : List Char → Option Int
  | [] => some 0
  | c :: cs =>
    if c = 'e' ∨ c = 'E' then
      -- The sign may be missing, the digits may not.
      let (negative, ds) := match cs with
        | '-' :: ds => (true, ds)
        | '+' :: ds => (false, ds)
        | ds => (false, ds)
      if ds.isEmpty ∨ !ds.all Char.isDigit then none
      else some (if negative then -(ofDecimalDigits ds : Int) else ofDecimalDigits ds)
    else none

/-- The floating point number that unsigned digits write, with a point, with an exponent, with
both, or with neither. There must be a digit beside the point. -/
def decimal? (negative : Bool) (cs : List Char) : Option Binary64 :=
  let whole := cs.takeWhile Char.isDigit
  let rest := cs.dropWhile Char.isDigit
  let (fraction, rest) := match rest with
    | '.' :: rest => (rest.takeWhile Char.isDigit, rest.dropWhile Char.isDigit)
    | rest => ([], rest)
  -- A point alone is no number.
  if whole.isEmpty ∧ fraction.isEmpty then none
  else do
    let e ← exponent? rest
    Binary64.ofDecimal negative (ofDecimalDigits (whole ++ fraction)) (e - fraction.length)

/-- The floating point number that a scalar writes. -/
def float? : List Char → Option Binary64
  | '-' :: cs => decimal? true cs
  | '+' :: cs => decimal? false cs
  | cs => decimal? false cs

/-- What a scalar stands for as a floating point number, which may be an infinity or none. -/
def floating? (cs : List Char) : Option Resolved :=
  if String.ofList cs ∈ [".inf", ".Inf", ".INF", "+.inf", "+.Inf", "+.INF"] then
    some (.infinite false)
  else if String.ofList cs ∈ ["-.inf", "-.Inf", "-.INF"] then some (.infinite true)
  else if String.ofList cs ∈ [".nan", ".NaN", ".NAN"] then some .nan
  else (float? cs).map .float

/-- What a scalar stands for as an integer of at most 128 bits. -/
def integer? (cs : List Char) : Option Resolved :=
  match int? cs with
  | some n =>
    if -0x80000000000000000000000000000000 ≤ n ∧ n < 0x100000000000000000000000000000000 then
      some (.int n)
    else none
  | none => none

/-- What an unquoted scalar stands for. -/
def resolve (cs : List Char) : Resolved :=
  if cs.isEmpty || isNull cs then .null
  else match bool? cs with
    | some b => .bool b
    | none => match integer? cs with
      | some n => n
      | none => if isPadded cs then .text else (floating? cs).getD .text

end CompositeCrd.Yaml
