import CompositeCrd.Decimal.Shortest
import CompositeCrd.Keyed

/-!
# JSON values

`Value` is a JSON value with its members in the order in which they are written. Values that
were read from a document have their members sorted and without repetition; values made by
encoding a record keep the order in which the record declares its fields.

Integers of at most 64 bits stay integers, every other number is a binary64 number. The two
kinds are never equal.
-/

namespace CompositeCrd.Json

/-- An integer as one of 32 bits. -/
def int32? (n : Int) : Option Int32 :=
  if Int32.minValue.toInt ≤ n ∧ n ≤ Int32.maxValue.toInt then some (Int32.ofInt n) else none

/-- A number of a JSON document. -/
inductive Number where
  /-- An integer between `-2 ^ 63` and `2 ^ 64 - 1`. -/
  | int (n : Int)
  /-- Any other number. -/
  | float (x : Binary64)
deriving DecidableEq, Repr

/-- Whether an integer is kept as one: 64 bits must hold it, with or without a sign. -/
def Number.fits (n : Int) : Bool :=
  -0x8000000000000000 ≤ n && n < 0x10000000000000000

/-- Equality of numbers; the two zeros among the floats are equal. -/
def Number.same : Number → Number → Bool
  | .int m, .int n => m == n
  | .float x, .float y => x.same y
  | _, _ => false

/-- The text of a number. -/
def Number.chars : Number → List Char
  | .int n => if n < 0 then '-' :: Nat.toDigits 10 n.natAbs else Nat.toDigits 10 n.natAbs
  | .float x => x.chars ['+']

/-- A JSON value. -/
inductive Value where
  /-- The value `null`. -/
  | null
  /-- A truth value. -/
  | bool (b : Bool)
  /-- A number. -/
  | number (n : Number)
  /-- A text. -/
  | string (s : String)
  /-- A list of values. -/
  | array (items : List Value)
  /-- An object with its members in order. -/
  | object (members : List (String × Value))
deriving Inhabited

mutual

/-- Equality of values, members in the same order. -/
def Value.same : Value → Value → Bool
  | .null, .null => true
  | .bool a, .bool b => a == b
  | .number a, .number b => a.same b
  | .string a, .string b => a == b
  | .array as, .array bs => sameItems as bs
  | .object as, .object bs => sameMembers as bs
  | _, _ => false

/-- Equality of lists of values. -/
def sameItems : List Value → List Value → Bool
  | [], [] => true
  | a :: as, b :: bs => a.same b && sameItems as bs
  | _, _ => false

/-- Equality of lists of members. -/
def sameMembers : Keyed Value → Keyed Value → Bool
  | [], [] => true
  | (k, a) :: as, (l, b) :: bs => k == l && a.same b && sameMembers as bs
  | _, _ => false

end

mutual

/-- The value with the members of every object sorted; of repeated members the last counts. -/
def Value.sorted : Value → Value
  | .array items => .array (sortedItems items)
  | .object members => .object (sortedMembers [] members)
  | v => v

/-- The items, each sorted. -/
def sortedItems : List Value → List Value
  | [] => []
  | v :: items => v.sorted :: sortedItems items

/-- The members, each sorted, inserted one by one into the table `m`. -/
def sortedMembers (m : Keyed Value) : Keyed Value → Keyed Value
  | [] => m
  | (k, v) :: members => sortedMembers (m.insert k v.sorted) members

end

end CompositeCrd.Json
