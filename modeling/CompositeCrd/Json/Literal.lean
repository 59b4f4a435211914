import CompositeCrd.Decimal.Arithmetic
import CompositeCrd.Json.Value
import CompositeCrd.Text.Utf8

/-!
# Texts and numerals of JSON documents

The scalars of a document that need more than one look: quoted texts and numerals. Each is
read in two ways. **Strict** reading gives the value; **skipping** only finds the end and is
used where nobody asks for the value. Skipping accepts more: escaped halves of a surrogate
pair, bytes that are no UTF-8, and numerals beyond the range of a float.

A numeral that is no integer is read with binary64 arithmetic on its first digits, as many as 64
bits hold (`Numeral.float?`), and so not always as the number nearest to it.

A fault is `malformed` when the document breaks the grammar, and `truncated` when it ends
where the grammar goes on.
-/

namespace CompositeCrd.Json

/-- Why a document cannot be read on. -/
inductive Fault where
  /-- The document breaks the grammar. -/
  | malformed
  /-- The document ends early. -/
  | truncated
deriving DecidableEq, Repr

/-- The value of a hexadecimal digit. -/
def hexDigit? (c : Char) : Option Nat :=
  if '0' ≤ c ∧ c ≤ '9' then some (c.toNat - '0'.toNat)
  else if 'a' ≤ c ∧ c ≤ 'f' then some (c.toNat - 'a'.toNat + 10)
  else if 'A' ≤ c ∧ c ≤ 'F' then some (c.toNat - 'A'.toNat + 10)
  else none

/-- The value of a symbol that is a hexadecimal digit. -/
def hexSymbol? : Symbol → Option Nat
  | .char c => hexDigit? c
  | .stray _ => none

/-- The number that four hexadecimal digits write. -/
def hex4? (a b c d : Symbol) : Option Nat := do
  let a ← hexSymbol? a
  let b ← hexSymbol? b
  let c ← hexSymbol? c
  let d ← hexSymbol? d
  return ((a * 16 + b) * 16 + c) * 16 + d

/-- The fault of an escape with fewer than four symbols left: the document ends early if fewer
than four bytes are left, otherwise one of the symbols takes several bytes and is no digit. -/
def shortHex (s : List Symbol) : Fault :=
  if s.foldl (fun n x => n + x.width) 0 < 4 then .truncated else .malformed

/-- The character that a letter stands for behind a backslash, `u` apart. -/
def escaped? (c : Char) : Option Char :=
  if c = '"' ∨ c = '\\' ∨ c = '/' then some c
  else if c = 'b' then some '\x08'
  else if c = 'f' then some '\x0c'
  else if c = 'n' then some '\n'
  else if c = 'r' then some '\r'
  else if c = 't' then some '\t'
  else none

/-- Puts a character in front of the text that was read behind it. -/
def push (c : Char) :
    Except Fault (List Char × List Symbol) → Except Fault (List Char × List Symbol)
  | .ok (cs, rest) => .ok (c :: cs, rest)
  | .error f => .error f

/-- The outcome behind a stray: the end of the document shows first, any other outcome is a
malformed text. -/
def afterStray : Except Fault (List Char × List Symbol) → Except Fault (List Char × List Symbol)
  | .error .truncated => .error .truncated
  | _ => .error .malformed

/-- Reads a text behind its opening quote: the characters, and the document behind the closing
quote. -/
def readText : List Symbol → Except Fault (List Char × List Symbol)
  | [] => .error .truncated
  | .stray _ :: s => afterStray (readText s)
  | .char c :: s =>
    if c = '"' then .ok ([], s)
    else if c ≠ '\\' then
      if c.toNat < 0x20 then .error .malformed else push c (readText s)
    else match s with
      | [] => .error .truncated
      | .stray _ :: _ => .error .malformed
      | .char e :: s =>
        if e ≠ 'u' then
          match escaped? e with
          | some c => push c (readText s)
          | none => .error .malformed
        else match s with
          | h₁ :: h₂ :: h₃ :: h₄ :: s =>
            match hex4? h₁ h₂ h₃ h₄ with
            | none => .error .malformed
            | some n =>
              if n < 0xD800 ∨ 0xDFFF < n then push (Char.ofNat n) (readText s)
              else if 0xDC00 ≤ n then .error .malformed
              -- the first half of a surrogate pair needs the second half behind it
              else match s with
                | [] => .error .truncated
                | [.char b] => if b = '\\' then .error .truncated else .error .malformed
                | .char b :: .char u :: s =>
                  if b ≠ '\\' ∨ u ≠ 'u' then .error .malformed
                  else match s with
                    | l₁ :: l₂ :: l₃ :: l₄ :: s =>
                      match hex4? l₁ l₂ l₃ l₄ with
                      | none => .error .malformed
                      | some m =>
                        if m < 0xDC00 ∨ 0xDFFF < m then .error .malformed
                        else
                          push (Char.ofNat (0x10000 + (n - 0xD800) * 0x400 + (m - 0xDC00)))
                            (readText s)
                    | s => .error (shortHex s)
                | _ => .error .malformed
          | s => .error (shortHex s)

/-- Finds the end of a text behind its opening quote, without making sense of it. -/
def skipText : List Symbol → Except Fault (List Symbol)
  | [] => .error .truncated
  | .stray _ :: s => skipText s
  | .char c :: s =>
    if c = '"' then .ok s
    else if c ≠ '\\' then
      -- Control characters have to be escaped.
      if c.toNat < 0x20 then .error .malformed else skipText s
    else match s with
      | [] => .error .truncated
      | .stray _ :: _ => .error .malformed
      | .char e :: s =>
        if e ≠ 'u' then
          if (escaped? e).isSome then skipText s else .error .malformed
        else match s with
          | h₁ :: h₂ :: h₃ :: h₄ :: s =>
            if (hex4? h₁ h₂ h₃ h₄).isSome then skipText s else .error .malformed
          | s => .error (shortHex s)

/-- Whether a symbol is a decimal digit. -/
def isDigit : Symbol → Bool
  | .char c => c.isDigit
  | .stray _ => false

/-- The digits at the start of a document, and what follows them. -/
def digits : List Symbol → List Nat × List Symbol
  | .char c :: s =>
    if c.isDigit then
      let (ds, rest) := digits s
      ((c.toNat - '0'.toNat) :: ds, rest)
    else ([], .char c :: s)
  | s => ([], s)

/-- The number that decimal digits write. -/
def ofDigits (ds : List Nat) : Nat :=
  ds.foldl (fun n d => n * 10 + d) 0

/-- The digits that a numeral must have at this place. -/
def someDigits (s : List Symbol) : Except Fault (List Nat × List Symbol) :=
  match digits s with
  | ([], []) => .error .truncated
  | ([], _ :: _) => .error .malformed
  | found => .ok found

/-- A numeral as it is written: sign, whole digits, digits behind the point, and exponent. -/
structure Numeral where
  /-- Whether a minus sign stands in front. -/
  negative : Bool
  /-- The digits before the point. -/
  whole : List Nat
  /-- The digits behind the point, if there is a point. -/
  fraction : Option (List Nat)
  /-- The exponent of ten, if one is written. -/
  exponent : Option Int

/-- Takes digits into a significand as long as 64 bits hold it: the significand, and the number of
digits that are left. -/
def takeDigits (n : Nat) : List Nat → Nat × Nat
  | [] => (n, 0)
  | d :: ds =>
    if n * 10 + d < 0x10000000000000000 then takeDigits (n * 10 + d) ds else (n, ds.length + 1)

/-- The binary64 number that is read for a numeral, or `none` if it is too great. Of the digits
that do not fit into the significand, those before the point count for the exponent and those
behind it do not count at all. -/
def Numeral.float? (n : Numeral) : Option Binary64 :=
  let fraction := n.fraction.getD []
  -- Digits beyond 64 bits are dropped, and the exponent makes up for those in front of the point.
  let (whole, dropped) := takeDigits 0 n.whole
  let (significand, ignored) := takeDigits whole fraction
  Binary64.ofParts n.negative significand
    (n.exponent.getD 0 + dropped - (fraction.length - ignored))

/-- The number that is read for a numeral, or `none` if it is too great. A whole number without
point and exponent is an integer if it has at most 64 bits, except `-0`. -/
def Numeral.value? (n : Numeral) : Option Number :=
  match n.fraction, n.exponent with
  | none, none =>
    let w := ofDigits n.whole
    if n.negative then
      -- There is no negative zero among the integers.
      if w ≠ 0 ∧ Number.fits (-w) then some (.int (-w)) else n.float?.map .float
    else if Number.fits w then some (.int w) else n.float?.map .float
  | _, _ => n.float?.map .float

/-- The whole digits of a numeral: a zero stands alone. -/
def wholeDigits : List Symbol → Except Fault (List Nat × List Symbol)
  | [] => .error .truncated
  | .char c :: s =>
    if c = '0' then
      -- No other digit may follow a zero.
      if s.head?.any isDigit then .error .malformed else .ok ([0], s)
    else someDigits (.char c :: s)
  | .stray _ :: _ => .error .malformed

/-- The digits behind the point, if the document goes on with a point. -/
def fractionDigits : List Symbol → Except Fault (Option (List Nat) × List Symbol)
  | .char '.' :: s => do
    let (ds, s) ← someDigits s
    return (some ds, s)
  | s => return (none, s)

/-- The exponent, if the document goes on with one. -/
def exponentDigits : List Symbol → Except Fault (Option Int × List Symbol)
  | .char c :: s =>
    if c = 'e' ∨ c = 'E' then do
      -- The sign may be missing.
      let (negative, s) := match s with
        | .char c :: s' =>
          if c = '-' then (true, s') else if c = '+' then (false, s') else (false, s)
        | s => (false, s)
      let (ds, s) ← someDigits s
      let e : Int := ofDigits ds
      return (some (if negative then -e else e), s)
    else return (none, .char c :: s)
  | s => return (none, s)

/-- Reads a numeral: sign, whole digits, fraction and exponent. -/
def readNumeral (s : List Symbol) : Except Fault (Numeral × List Symbol) := do
  let (negative, s) := match s with
    | .char '-' :: s => (true, s)
    | s => (false, s)
  let (whole, s) ← wholeDigits s
  let (fraction, s) ← fractionDigits s
  let (exponent, s) ← exponentDigits s
  return ({ negative, whole, fraction, exponent }, s)

end CompositeCrd.Json
