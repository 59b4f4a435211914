/-!
# Text from bytes

Documents arrive as bytes and are meant to be UTF-8. `Utf8.symbols` splits any byte list
into characters and **strays**, the longest stretches of bytes that start a character and do
not finish it, so that a reader can go on after a fault and decide for itself where a stray
matters. `Utf8.encode` is the other direction.

The bounds on the second byte of a character (`Utf8.lead`) leave out overlong forms,
surrogates and everything above U+10FFFF, so each character has one encoding.
-/

namespace CompositeCrd

/-- One unit of a document read from bytes. -/
inductive Symbol where
  /-- A character. -/
  | char (c : Char)
  /-- A stretch of `bytes` bytes that is no character. -/
  | stray (bytes : Nat)
deriving DecidableEq, Repr

namespace Utf8

/-- The bytes of one character. -/
def encodeChar (c : Char) : List UInt8 :=
  let n := c.toNat
  if n < 0x80 then [UInt8.ofNat n]
  else if n < 0x800 then [UInt8.ofNat (0xC0 + n / 0x40), UInt8.ofNat (0x80 + n % 0x40)]
  else if n < 0x10000 then
    [UInt8.ofNat (0xE0 + n / 0x1000), UInt8.ofNat (0x80 + n / 0x40 % 0x40),
      UInt8.ofNat (0x80 + n % 0x40)]
  else
    [UInt8.ofNat (0xF0 + n / 0x40000), UInt8.ofNat (0x80 + n / 0x1000 % 0x40),
      UInt8.ofNat (0x80 + n / 0x40 % 0x40), UInt8.ofNat (0x80 + n % 0x40)]

/-- The bytes of a text. -/
def encode (s : String) : List UInt8 :=
  s.toList.flatMap encodeChar

/-- The number of bytes of one character. -/
def width (c : Char) : Nat :=
  if c.toNat < 0x80 then 1 else if c.toNat < 0x800 then 2 else if c.toNat < 0x10000 then 3 else 4

/-- A character that has begun: the bits read so far, how many bytes were read and are still
owed, and the range in which the next one must lie. -/
structure Partial where
  /-- The code point so far. -/
  bits : Nat
  /-- The bytes read. -/
  read : Nat
  /-- The bytes still owed. -/
  owed : Nat
  /-- The least value of the next byte. -/
  low : Nat := 0x80
  /-- The greatest value of the next byte. -/
  high : Nat := 0xBF

/-- The start of a character of several bytes, by its first byte. -/
def lead (b : Nat) : Option Partial :=
  if 0xC2 ≤ b ∧ b ≤ 0xDF then some { bits := b - 0xC0, read := 1, owed := 1 }
  -- Some first bytes narrow the second one, so that no character has two spellings.
  else if b = 0xE0 then some { bits := 0, read := 1, owed := 2, low := 0xA0 }
  else if b = 0xED then some { bits := 0xD, read := 1, owed := 2, high := 0x9F }
  else if 0xE1 ≤ b ∧ b ≤ 0xEF then some { bits := b - 0xE0, read := 1, owed := 2 }
  else if b = 0xF0 then some { bits := 0, read := 1, owed := 3, low := 0x90 }
  else if 0xF1 ≤ b ∧ b ≤ 0xF3 then some { bits := b - 0xF0, read := 1, owed := 3 }
  else if b = 0xF4 then some { bits := 4, read := 1, owed := 3, high := 0x8F }
  else none

/-- A byte that starts something: the symbols it completes, and the character it begins. -/
def start (b : Nat) : List Symbol × Option Partial :=
  if b < 0x80 then ([.char (Char.ofNat b)], none)
  else match lead b with
    | some p => ([], some p)
    | none => ([.stray 1], none)

/-- A byte after the unfinished character `p`: it goes on with `p`, or it leaves `p` as a
stray and starts anew. -/
def step : Option Partial → Nat → List Symbol × Option Partial
  | none, b => start b
  | some p, b =>
    if p.low ≤ b ∧ b ≤ p.high then
      let bits := p.bits * 0x40 + (b - 0x80)
      if p.owed ≤ 1 then ([.char (Char.ofNat bits)], none)
      else ([], some { bits, read := p.read + 1, owed := p.owed - 1 })
    else
      let (done, next) := start b
      (.stray p.read :: done, next)

/-- The symbols of the remaining bytes, after the unfinished character `p`. -/
def symbolsFrom : Option Partial → List UInt8 → List Symbol
  | none, [] => []
  | some p, [] => [.stray p.read]
  | p, b :: bytes =>
    let (done, next) := step p b.toNat
    done ++ symbolsFrom next bytes

/-- The characters and strays of a byte list. -/
def symbols (bytes : List UInt8) : List Symbol :=
  symbolsFrom none bytes

/-- The text that a list of symbols spells, if it has no stray. -/
def text? : List Symbol → Option (List Char)
  | [] => some []
  | .char c :: s => (text? s).map (c :: ·)
  | .stray _ :: _ => none

/-- The text of a byte list that is UTF-8. -/
def decode? (bytes : List UInt8) : Option String :=
  (text? (symbols bytes)).map String.ofList

/-- The text of any byte list, each stray replaced by U+FFFD. -/
def decodeLossy (bytes : List UInt8) : String :=
  String.ofList <| (symbols bytes).map fun
    | .char c => c
    | .stray _ => '\uFFFD'

end Utf8

/-- The number of bytes a symbol stands for. -/
def Symbol.width : Symbol → Nat
  | .char c => Utf8.width c
  | .stray n => n

end CompositeCrd
