import CompositeCrd.Json.Literal
import CompositeCrd.Proofs.Decimal.Arithmetic

/-!
# Numerals read back

A number is written by `Number.chars` and read by `readNumeral`, which takes as much of the
document as the grammar allows. So a numeral is taken as a whole when what follows cannot continue
it (`Stops`), which holds of every symbol that stands behind a value in a document.

An integer is written by its digits and reads back. A binary64 number is written by the digits of
`Binary64.shortest` in one of four layouts, and each layout has the value of these digits
(`exists_laidOut`). Reading them computes with binary64 numbers, so what it gives
(`Number.echo`) need not be the number that was written: `3e+49` comes back as another number.
It always gives a number, though, however close the written one is to the end of the range.

Numbers that reading can produce are the `Number.Proper` ones, so the main results are

* `readNumeral_chars`: the text of a proper number is read, as `Number.echo`,
* `Number.echo_of_short`: a number that is written with a short decimal reads back,
* `Number.Proper.chars_inj`: no two numbers have one text, even if it is read as one number,
* `Numeral.value?_proper`: reading gives proper numbers.
-/

namespace CompositeCrd.Json

variable {cs ds : List Char} {rest s : List Symbol}

/-- Text as symbols. -/
abbrev symbols (cs : List Char) : List Symbol :=
  cs.map .char

/-- A number that can be read: an integer of 64 bits, or a canonical binary64 number. -/
def Number.Proper : Number → Prop
  | .int n => Number.fits n = true
  | .float x => x.Canonical

/-- **What reading gives for the text of a number.** An integer is read as itself. -/
def Number.echo : Number → Number
  | .int n => .int n
  | .float x =>
    match readNumeral (symbols (Number.float x).chars) with
    | .ok (m, _) => m.value?.getD (.float x)
    | .error _ => .float x

/-- The document goes on with something that does not continue a numeral. -/
def Stops (s : List Symbol) : Prop :=
  ∀ c, s.head? = some (.char c) → c.isDigit = false ∧ c ≠ '.' ∧ c ≠ 'e' ∧ c ≠ 'E'

/-- The document goes on with something that is no digit. -/
def NoDigit (s : List Symbol) : Prop :=
  s.head?.any isDigit = false

/-- What stops a numeral is no digit. -/
theorem Stops.noDigit (h : Stops s) : NoDigit s := by
  rcases s with _ | ⟨c | n, s⟩
  · rfl
  · exact (h c rfl).1
  · rfl

/-- The end of the text stops a numeral. -/
theorem stops_nil : Stops [] := by
  intro c h
  exact absurd h (by simp)

/-- A character that is no part of a numeral stops it. -/
theorem stops_cons {c : Char} (h : c.isDigit = false) (h' : c ≠ '.' ∧ c ≠ 'e' ∧ c ≠ 'E') :
    Stops (.char c :: s) := by
  intro c' hc
  simp only [List.head?_cons, Option.some.injEq, Symbol.char.injEq] at hc
  subst hc
  exact ⟨h, h'⟩

/-! ### Runs of digits -/

/-- The values of digits. -/
def values (ds : List Char) : List Nat :=
  ds.map fun c => c.toNat - '0'.toNat

/-- The number of a list of digits is that of their characters. -/
theorem ofDigits_values (ds : List Char) : ofDigits (values ds) = Nat.ofDigitChars 10 ds 0 := by
  rw [ofDigits, values, List.foldl_map, Nat.ofDigitChars_eq_foldl]
  congr 1
  funext n c
  rw [Nat.mul_comm]

/-- Digits are read up to what is none. -/
theorem digits_append (hds : ∀ c ∈ ds, c.isDigit = true) (hrest : NoDigit rest) :
    digits (symbols ds ++ rest) = (values ds, rest) := by
  induction ds with
  | nil =>
    -- The digits end where no digit follows.
    rcases rest with _ | ⟨c | n, rest⟩
    · rfl
    · have hc : c.isDigit = false := hrest
      simp [symbols, digits, values, hc]
    · rfl
  | cons c ds ih =>
    have hc := hds c List.mem_cons_self
    have ih := ih fun c hc => hds c (List.mem_cons_of_mem _ hc)
    simp only [symbols, List.map_cons, List.cons_append] at ih ⊢
    rw [digits, if_pos hc, ih]
    rfl

/-- One digit at least is read. -/
theorem someDigits_append (hds : ∀ c ∈ ds, c.isDigit = true) (hne : ds ≠ [])
    (hrest : NoDigit rest) : someDigits (symbols ds ++ rest) = .ok (values ds, rest) := by
  rw [someDigits, digits_append hds hrest]
  cases ds with
  | nil => exact absurd rfl hne
  | cons c ds => rfl

/-- The digits in front of the point: some, and no zero in front of others. -/
structure Whole (ds : List Char) : Prop where
  /-- There are some. -/
  ne_nil : ds ≠ []
  /-- They are digits. -/
  isDigit : ∀ c ∈ ds, c.isDigit = true
  /-- A leading zero stands alone. -/
  alone : ds.head? = some '0' → ds = ['0']

/-- The whole part is read, and a zero in front is all of it. -/
theorem wholeDigits_append (hds : Whole ds) (hrest : NoDigit rest) :
    wholeDigits (symbols ds ++ rest) = .ok (values ds, rest) := by
  rcases ds with _ | ⟨c, ds⟩
  · exact absurd rfl hds.ne_nil
  -- A zero stands alone, anything else begins a row of digits.
  by_cases hc : c = '0'
  · subst hc
    obtain rfl : ds = [] := by simpa using hds.alone rfl
    have hrest : rest.head?.any isDigit = false := hrest
    simp [symbols, wholeDigits, hrest, values]
  · have h := someDigits_append hds.isDigit hds.ne_nil hrest
    simp only [symbols, List.map_cons, List.cons_append] at h ⊢
    rw [wholeDigits, if_neg hc, h]

/-! ### The digits of natural numbers -/

/-- A number is written in digits. -/
theorem isDigit_toDigits (n : Nat) : ∀ c ∈ Nat.toDigits 10 n, c.isDigit = true := fun _ hc =>
  Nat.isDigit_of_mem_toDigits (by decide) (by decide) hc

theorem ofDigits_toDigits (n : Nat) : ofDigits (values (Nat.toDigits 10 n)) = n := by
  rw [ofDigits_values, Nat.ofDigitChars_ten_toDigits]

/-- The first digit of a number is zero for zero only. -/
theorem toDigits_head {n : Nat} (hn : n ≠ 0) : (Nat.toDigits 10 n).head? ≠ some '0' := by
  induction n using Nat.strongRecOn with
  | ind n ih =>
    by_cases hlt : n < 10
    · rw [Nat.toDigits_of_lt_base hlt]
      -- A single digit is looked up.
      have hdigit : ∀ m < 10, m ≠ 0 → [Nat.digitChar m].head? ≠ some '0' := by decide
      exact hdigit n hlt hn
    · -- Of more digits, the first one is that of `n / 10`.
      rw [Nat.toDigits_of_base_le (by decide) (by omega), List.head?_append_of_ne_nil]
      · exact ih (n / 10) (by omega) (by omega)
      · exact Nat.toDigits_ne_nil

/-- The digits of a number have no zero in front, unless that is all. -/
theorem whole_toDigits (n : Nat) : Whole (Nat.toDigits 10 n) := by
  refine ⟨Nat.toDigits_ne_nil, isDigit_toDigits n, fun h => ?_⟩
  by_cases hn : n = 0
  · rw [hn, Nat.toDigits_zero]
  · exact absurd h (toDigits_head hn)

/-! ### The parts of a numeral -/

/-- Behind a point, the fraction is read. -/
theorem fractionDigits_append (hds : ∀ c ∈ ds, c.isDigit = true) (hne : ds ≠ [])
    (hrest : NoDigit rest) :
    fractionDigits (.char '.' :: (symbols ds ++ rest)) = .ok (some (values ds), rest) := by
  rw [fractionDigits, someDigits_append hds hne hrest]
  rfl

/-- Without a point there is no fraction. -/
theorem fractionDigits_none (h : s.head? ≠ some (.char '.')) :
    fractionDigits s = .ok (none, s) := by
  unfold fractionDigits
  split
  · exact absurd rfl h
  · rfl

/-- Without its mark there is no exponent. -/
theorem exponentDigits_none (h : s.head? ≠ some (.char 'e')) (h' : s.head? ≠ some (.char 'E')) :
    exponentDigits s = .ok (none, s) := by
  unfold exponentDigits
  split
  · next c s =>
    rw [if_neg]
    · rfl
    · rintro (rfl | rfl)
      · exact h rfl
      · exact h' rfl
  · rfl

/-- An exponent as it is written: a sign, and the digits. -/
theorem exponentDigits_append (e : Int) (hrest : NoDigit rest) :
    exponentDigits (.char 'e' :: (symbols ((if e < 0 then ['-'] else ['+'])
      ++ Nat.toDigits 10 e.natAbs) ++ rest)) = .ok (some e, rest) := by
  have hdigits := someDigits_append (isDigit_toDigits e.natAbs) Nat.toDigits_ne_nil hrest
  -- The sign that is written is the sign that is read.
  by_cases he : e < 0
  · simp only [if_pos he, symbols, List.map_cons, List.cons_append, List.nil_append]
      at hdigits ⊢
    simp only [exponentDigits, true_or, if_true, hdigits]
    change Except.ok (some (-(ofDigits (values (Nat.toDigits 10 e.natAbs)) : ℤ)), rest) = _
    rw [ofDigits_toDigits, show -(e.natAbs : ℤ) = e by omega]
  · simp only [if_neg he, symbols, List.map_cons, List.cons_append, List.nil_append]
      at hdigits ⊢
    simp only [exponentDigits, true_or, if_true, Char.reduceEq, if_false, hdigits]
    change Except.ok (some (ofDigits (values (Nat.toDigits 10 e.natAbs)) : ℤ), rest) = _
    rw [ofDigits_toDigits, show (e.natAbs : ℤ) = e by omega]

/-- A numeral from its parts. -/
theorem readNumeral_parts {negative : Bool} {t u v : List Symbol} {fraction : Option (List Nat)}
    {exponent : Option Int} (hds : Whole ds) (ht : NoDigit t)
    (hf : fractionDigits t = .ok (fraction, u)) (he : exponentDigits u = .ok (exponent, v)) :
    readNumeral (symbols ((if negative then ['-'] else []) ++ ds) ++ t)
      = .ok ({ negative, whole := values ds, fraction, exponent }, v) := by
  have hw := wholeDigits_append hds ht
  -- A minus sign is taken first, if there is one.
  cases negative with
  | true =>
    simp only [symbols, if_true, List.map_cons, List.cons_append, List.nil_append] at hw ⊢
    simp only [readNumeral, hw]
    change (fractionDigits t >>= _) = _
    rw [hf]
    change (exponentDigits u >>= _) = _
    rw [he]
    rfl
  | false =>
    rcases ds with _ | ⟨c, ds⟩
    · exact absurd rfl hds.ne_nil
    have hc : c ≠ '-' := by
      rintro rfl
      exact absurd (hds.isDigit '-' List.mem_cons_self) (by decide)
    simp only [symbols, List.map_cons, List.cons_append, List.nil_append, Bool.false_eq_true,
      if_false] at hw ⊢
    -- No sign is taken, since the first symbol is a digit.
    unfold readNumeral
    split
    next x negative s' hsign =>
    split at hsign
    · next heq =>
      simp only [List.cons.injEq, Symbol.char.injEq] at heq
      exact absurd heq.1 hc
    · obtain ⟨rfl, rfl⟩ := Prod.mk.inj hsign
      rw [hw]
      change (fractionDigits t >>= _) = _
      rw [hf]
      change (exponentDigits u >>= _) = _
      rw [he]
      rfl

theorem Stops.exponentDigits (h : Stops s) : exponentDigits s = .ok (none, s) :=
  exponentDigits_none (fun h' => (h 'e' h').2.2.1 rfl) (fun h' => (h 'E' h').2.2.2 rfl)

/-- An exponent as it is written. -/
def exponentText : Option Int → List Char
  | none => []
  | some e => 'e' :: ((if e < 0 then ['-'] else ['+']) ++ Nat.toDigits 10 e.natAbs)

/-- A numeral as it is written: sign, whole part, the part behind the point, and exponent. -/
def numeralText (negative : Bool) (w : List Char) (f : Option (List Char)) (e : Option Int) :
    List Char :=
  (if negative then ['-'] else []) ++ (w ++ (f.elim [] ('.' :: ·) ++ exponentText e))

/-- The exponent as it is written, or none, in front of something that does not continue it. -/
theorem exponentDigits_text (e : Option Int) (hrest : Stops rest) :
    exponentDigits (symbols (exponentText e) ++ rest) = .ok (e, rest) := by
  cases e with
  | none => exact hrest.exponentDigits
  | some e => exact exponentDigits_append e hrest.noDigit

/-- No exponent begins with a digit. -/
theorem noDigit_exponentText (e : Option Int) (hrest : Stops rest) :
    NoDigit (symbols (exponentText e) ++ rest) := by
  cases e with
  | none => exact hrest.noDigit
  | some e => rfl

/-- **Every written numeral reads back as its parts.** -/
theorem readNumeral_text (negative : Bool) {w : List Char} {f : Option (List Char)}
    (e : Option Int) (hw : Whole w) (hf : ∀ ds ∈ f, ds ≠ [] ∧ ∀ c ∈ ds, c.isDigit = true)
    (hrest : Stops rest) :
    readNumeral (symbols (numeralText negative w f e) ++ rest)
      = .ok (⟨negative, values w, f.map values, e⟩, rest) := by
  have he := exponentDigits_text e hrest
  have hnot := noDigit_exponentText e hrest
  rw [numeralText, ← List.append_assoc, symbols, List.map_append, List.append_assoc]
  -- The digits of the whole part end in front of the point, or of the exponent.
  cases f with
  | none =>
    refine readNumeral_parts hw hnot (fractionDigits_none ?_) he
    cases e with
    | none => exact fun h => (hrest '.' h).2.1 rfl
    | some e => simp [exponentText]
  | some ds =>
    obtain ⟨hne, hds⟩ := hf ds rfl
    refine readNumeral_parts hw rfl ?_ he
    rw [Option.elim_some, List.cons_append, List.map_cons, List.map_append, List.cons_append,
      List.append_assoc]
    exact fractionDigits_append hds hne hnot

/-! ### Integers -/

/-- **An integer of 64 bits reads back.** -/
theorem exists_numeral_int {n : Int} (hn : Number.fits n = true) :
    ∃ m : Numeral, (∀ rest, Stops rest →
        readNumeral (symbols (Number.int n).chars ++ rest) = .ok (m, rest))
      ∧ (m.fraction = none ∧ m.exponent = none) ∧ m.value? = some (.int n) := by
  have hread : ∀ negative rest, Stops rest →
      readNumeral (symbols (numeralText negative (Nat.toDigits 10 n.natAbs) none none) ++ rest)
        = .ok (⟨negative, values (Nat.toDigits 10 n.natAbs), none, none⟩, rest) :=
    fun negative rest hrest =>
      readNumeral_text negative none (whole_toDigits n.natAbs) (by simp) hrest
  simp only [numeralText, Option.elim_none, exponentText, List.append_nil] at hread
  -- The sign is written in front of the absolute value.
  by_cases hneg : n < 0
  · refine ⟨⟨true, values (Nat.toDigits 10 n.natAbs), none, none⟩, ?_, ⟨rfl, rfl⟩, ?_⟩
    · rw [Number.chars, if_pos hneg]
      exact hread true
    · have habs : -((n.natAbs : ℕ) : ℤ) = n := by omega
      simp only [Numeral.value?, ofDigits_toDigits, if_true, habs]
      rw [if_pos ⟨by omega, hn⟩]
  · refine ⟨⟨false, values (Nat.toDigits 10 n.natAbs), none, none⟩, ?_, ⟨rfl, rfl⟩, ?_⟩
    · rw [Number.chars, if_neg hneg]
      exact hread false
    · have habs : ((n.natAbs : ℕ) : ℤ) = n := by omega
      simp only [Numeral.value?, ofDigits_toDigits, Bool.false_eq_true, if_false, habs]
      rw [if_pos hn]

/-! ### Binary64 numbers -/

/-- The digits of a numeral as one number. -/
def Numeral.significand (m : Numeral) : ℕ :=
  ofDigits (m.whole ++ m.fraction.getD [])

/-- The exponent of ten that goes with the digits of a numeral. -/
def Numeral.power (m : Numeral) : ℤ :=
  m.exponent.getD 0 - (m.fraction.getD []).length

/-- The number that a numeral writes, its sign apart. -/
def Numeral.magnitude (m : Numeral) : ℚ :=
  m.significand * 10 ^ m.power

/-- More digits make a number no smaller. -/
theorem le_foldl_digits (n : ℕ) (ds : List ℕ) : n ≤ ds.foldl (fun n d => n * 10 + d) n := by
  induction ds generalizing n with
  | nil => exact le_rfl
  | cons d ds ih => exact (show n ≤ n * 10 + d by omega).trans (ih _)

/-- All digits are taken if the number they write has 64 bits. -/
theorem takeDigits_eq {n : ℕ} {ds : List ℕ}
    (h : ds.foldl (fun n d => n * 10 + d) n < 0x10000000000000000) :
    takeDigits n ds = (ds.foldl (fun n d => n * 10 + d) n, 0) := by
  induction ds generalizing n with
  | nil => rfl
  | cons d ds ih =>
    rw [List.foldl_cons] at h ⊢
    rw [takeDigits, if_pos ((le_foldl_digits _ ds).trans_lt h), ih h]

/-- A numeral whose digits fit into the significand is read by one computation. -/
theorem Numeral.float?_eq {m : Numeral} (h : m.significand < 0x10000000000000000) :
    m.float? = Binary64.ofParts m.negative m.significand m.power := by
  rw [Numeral.significand, ofDigits, List.foldl_append] at h
  have hwhole : takeDigits 0 m.whole = (ofDigits m.whole, 0) :=
    takeDigits_eq ((le_foldl_digits _ _).trans_lt h)
  have hfraction : takeDigits (ofDigits m.whole) (m.fraction.getD [])
      = (ofDigits (m.whole ++ m.fraction.getD []), 0) := by
    rw [ofDigits, ofDigits, List.foldl_append]
    exact takeDigits_eq h
  simp [Numeral.float?, hwhole, hfraction, Numeral.significand, Numeral.power]

/-- A numeral with a point or an exponent is no integer. -/
theorem Numeral.value?_eq_float {m : Numeral} (h : m.fraction ≠ none ∨ m.exponent ≠ none) :
    m.value? = m.float?.map .float := by
  unfold Numeral.value?
  split
  · next hf he => exact absurd h (by simp [hf, he])
  · rfl

/-- The digits of a numeral from the written ones. -/
theorem significand_values (negative : Bool) (w : List Char) (f : Option (List Char))
    (e : Option Int) : Numeral.significand ⟨negative, values w, f.map values, e⟩
      = Nat.ofDigitChars 10 (w ++ f.getD []) 0 := by
  have hget : (f.map values).getD [] = values (f.getD []) := by
    cases f <;> rfl
  have happend : values w ++ values (f.getD []) = values (w ++ f.getD []) :=
    List.map_append.symm
  simp only [Numeral.significand, hget, happend, ofDigits_values]

/-- The digits of the fraction count against the exponent. -/
theorem power_values (negative : Bool) (w : List Char) (f : Option (List Char))
    (e : Option Int) : Numeral.power ⟨negative, values w, f.map values, e⟩
      = e.getD 0 - (f.getD []).length := by
  have hget : (f.map values).getD [] = values (f.getD []) := by
    cases f <;> rfl
  have hlength : (values (f.getD [])).length = (f.getD []).length := List.length_map _
  simp only [Numeral.power, hget, hlength]

/-- Digits write a number with no more digits. -/
theorem ofDigitChars_lt (hds : ∀ c ∈ ds, c.isDigit = true) (n : ℕ) :
    Nat.ofDigitChars 10 ds n < (n + 1) * 10 ^ ds.length := by
  induction ds generalizing n with
  | nil => simp
  | cons c ds ih =>
    -- A digit is worth nine at most.
    have hc : c.toNat - '0'.toNat ≤ 9 := by
      have := hds c List.mem_cons_self
      simp only [Char.isDigit, Bool.and_eq_true, decide_eq_true_eq] at this
      have h9 : c.toNat ≤ 57 := this.2
      have h0 : '0'.toNat = 48 := rfl
      omega
    rw [Nat.ofDigitChars_cons]
    refine (ih (fun c hc => hds c (List.mem_cons_of_mem _ hc)) _).trans_le ?_
    rw [List.length_cons, Nat.pow_succ, Nat.mul_comm (10 ^ ds.length), ← Nat.mul_assoc]
    exact Nat.mul_le_mul_right _ (by omega)

/-- Zeros are digits. -/
theorem isDigit_replicate (k : ℕ) : ∀ c ∈ List.replicate k '0', c.isDigit = true := by
  intro c hc
  rw [List.eq_of_mem_replicate hc]
  rfl

/-- The layout of the digits `ds`, with the point after the first `point` of them, consists of
these parts, and has the value of the digits. -/
structure LaidOut (ds : List Char) (point : ℤ) (w : List Char) (f : Option (List Char))
    (e : Option Int) : Prop where
  text : Binary64.layout ['+'] ds point = w ++ (f.elim [] ('.' :: ·) ++ exponentText e)
  whole : Whole w
  fraction : ∀ ds ∈ f, ds ≠ [] ∧ ∀ c ∈ ds, c.isDigit = true
  /-- It is not written as an integer is. -/
  form : f ≠ none ∨ e ≠ none
  value : (Nat.ofDigitChars 10 (w ++ f.getD []) 0 : ℚ) * 10 ^ (e.getD 0 - (f.getD []).length)
    = Nat.ofDigitChars 10 ds 0 * 10 ^ (point - ds.length)
  /-- The zeros that are put in do not make the digits many. -/
  bound : Nat.ofDigitChars 10 (w ++ f.getD []) 0 ≤ max (Nat.ofDigitChars 10 ds 0) (10 ^ 17)

section

variable (hds : Whole ds) (hhead : ds.head? ≠ some '0')
include hds

/-- Zeros between the point and the digits. -/
theorem laidOut_below {point : ℤ} (hrange : -5 ≤ point - 1 ∧ point - 1 ≤ 15) (hpoint : point ≤ 0) :
    LaidOut ds point ['0'] (some (List.replicate (-point).toNat '0' ++ ds)) none where
  text := by simp [Binary64.layout, hrange, hpoint, exponentText]
  whole := ⟨by simp, by simp, fun _ => rfl⟩
  fraction := by
    rintro _ ⟨⟩
    refine ⟨by simp [hds.ne_nil], fun c hc => ?_⟩
    exact (List.mem_append.mp hc).elim (isDigit_replicate _ c) (hds.isDigit c)
  form := .inl (by simp)
  value := by
    simp only [Option.getD_some, Option.getD_none, List.cons_append, List.nil_append,
      Nat.ofDigitChars_cons, Nat.ofDigitChars_append, Nat.ofDigitChars_replicate_zero,
      List.length_append, List.length_replicate]
    rw [show 10 ^ (-point).toNat * (10 * 0 + ('0'.toNat - '0'.toNat)) = 0 by simp]
    congr 2
    push_cast
    omega
  -- The zeros in front do not count.
  bound := by
    refine le_max_of_le_left (le_of_eq ?_)
    simp [Nat.ofDigitChars_cons, Nat.ofDigitChars_append, Nat.ofDigitChars_replicate_zero]

include hhead

/-- The point among the digits. -/
theorem laidOut_among {k : ℕ} (hrange : -5 ≤ (k : ℤ) - 1 ∧ (k : ℤ) - 1 ≤ 15) (hk : k ≠ 0)
    (hlt : k < ds.length) : LaidOut ds k (ds.take k) (some (ds.drop k)) none where
  text := by
    have hfull : k - min k ds.length = 0 := by omega
    have hsome : ds.drop k ≠ [] := by simp; omega
    simp [Binary64.layout, hrange, hk, exponentText, hfull, hsome]
  whole := by
    refine ⟨by simp [hds.ne_nil]; omega, fun c hc => hds.isDigit c (List.mem_of_mem_take hc),
      fun h => ?_⟩
    rw [List.head?_take, if_neg hk] at h
    exact absurd h hhead
  fraction := by
    rintro _ ⟨⟩
    exact ⟨by simp; omega, fun c hc => hds.isDigit c (List.mem_of_mem_drop hc)⟩
  form := .inl (by simp)
  value := by
    simp only [Option.getD_some, Option.getD_none, List.take_append_drop, List.length_drop]
    congr 2
    omega
  -- The digits are those of the number, with a point among them.
  bound := by
    rw [Option.getD_some, List.take_append_drop]
    exact le_max_left _ _

/-- Zeros between the digits and the point. -/
theorem laidOut_above {k : ℕ} (hrange : -5 ≤ (k : ℤ) - 1 ∧ (k : ℤ) - 1 ≤ 15) (hk : k ≠ 0)
    (hle : ds.length ≤ k) :
    LaidOut ds k (ds ++ List.replicate (k - ds.length) '0') (some ['0']) none where
  text := by
    have htake : ds.take k = ds := List.take_of_length_le hle
    have hdrop : ds.drop k = [] := List.drop_of_length_le hle
    simp [Binary64.layout, hrange, hk, exponentText, htake, hdrop]
  whole := by
    refine ⟨by simp [hds.ne_nil], fun c hc => ?_, fun h => ?_⟩
    · exact (List.mem_append.mp hc).elim (hds.isDigit c) (isDigit_replicate _ c)
    · rw [List.head?_append_of_ne_nil _ hds.ne_nil] at h
      exact absurd h hhead
  fraction := by
    rintro _ ⟨⟩
    exact ⟨by simp, by simp⟩
  form := .inl (by simp)
  value := by
    simp only [Option.getD_some, Option.getD_none, Nat.ofDigitChars_append,
      Nat.ofDigitChars_replicate_zero, Nat.ofDigitChars_cons, Nat.ofDigitChars_nil,
      List.length_singleton]
    rw [show (k : ℤ) - ds.length = ((k - ds.length : ℕ) : ℤ) by omega, zpow_natCast]
    push_cast
    rw [zpow_neg_one]
    ring
  bound := by
    -- There are sixteen digits before the point at most, and one behind it.
    have hdigits : ∀ c ∈ (ds ++ List.replicate (k - ds.length) '0') ++ ['0'],
        c.isDigit = true := by
      simp only [List.forall_mem_append]
      exact ⟨⟨hds.isDigit, isDigit_replicate _⟩, by simp⟩
    have hlength : ((ds ++ List.replicate (k - ds.length) '0') ++ ['0']).length ≤ 17 := by
      simp only [List.length_append, List.length_replicate, List.length_singleton]
      omega
    have hlt := ofDigitChars_lt hdigits 0
    rw [Nat.zero_add, Nat.one_mul] at hlt
    exact le_max_of_le_right (hlt.le.trans (Nat.pow_le_pow_right (by norm_num) hlength))

/-- One digit before the point, and an exponent. -/
theorem laidOut_scientific {point : ℤ} (hrange : ¬(-5 ≤ point - 1 ∧ point - 1 ≤ 15)) :
    ∃ w f, LaidOut ds point w f (some (point - 1)) := by
  obtain ⟨c, cs, rfl⟩ := List.exists_cons_of_ne_nil hds.ne_nil
  -- The point stands behind the first digit, and is left out if there is no other one.
  refine ⟨[c], if cs.isEmpty then none else some cs, ?_, ?_, ?_, .inr (by simp), ?_, ?_⟩
  · unfold Binary64.layout
    dsimp only
    rw [if_neg hrange]
    cases cs <;> simp [exponentText]
  · exact ⟨by simp, fun d hd => hds.isDigit d (by simp_all), fun h => absurd h hhead⟩
  · intro d hd
    split at hd
    · exact absurd hd (by simp)
    · next hcs =>
      obtain rfl := Option.some.inj hd
      exact ⟨by simpa using hcs, fun c hc => hds.isDigit c (List.mem_cons_of_mem _ hc)⟩
  · cases cs with
    | nil => simp
    | cons c' cs =>
      simp only [List.isEmpty_cons, Bool.false_eq_true, if_false, Option.getD_some,
        List.cons_append, List.nil_append, List.length_cons]
      congr 2
      push_cast
      ring
  · cases cs <;> simp

/-- **Every layout has the value of its digits.** -/
theorem exists_laidOut (point : ℤ) : ∃ w f e, LaidOut ds point w f e := by
  by_cases hrange : -5 ≤ point - 1 ∧ point - 1 ≤ 15
  · by_cases hpoint : point ≤ 0
    · exact ⟨_, _, _, laidOut_below hds hrange hpoint⟩
    · obtain ⟨k, rfl⟩ := Int.eq_ofNat_of_zero_le (show 0 ≤ point by omega)
      have hk : k ≠ 0 := by omega
      rcases lt_or_ge k ds.length with hlt | hle
      · exact ⟨_, _, _, laidOut_among hds hhead hrange hk hlt⟩
      · exact ⟨_, _, _, laidOut_above hds hhead hrange hk hle⟩
  · obtain ⟨w, f, h⟩ := laidOut_scientific hds hhead hrange
    exact ⟨w, f, _, h⟩

end

theorem value?_zero (negative : Bool) :
    Numeral.value? ⟨negative, values ['0'], (some ['0']).map values, none⟩
      = some (.float (Binary64.zero negative)) := by
  cases negative <;> rfl

theorem Number.echo_zero (negative : Bool) :
    (Number.float (Binary64.zero negative)).echo = .float (Binary64.zero negative) := by
  cases negative <;> rfl

/-- The numeral is what reading takes for the text of a number, whatever follows it, and it writes
a value in the rounding interval of the number with a significand of 64 bits. -/
structure Numeral.Writes (m : Numeral) (x : Binary64) : Prop where
  reads : ∀ rest, Stops rest → readNumeral (symbols (Number.float x).chars ++ rest) = .ok (m, rest)
  sign : m.negative = x.negative
  /-- It is not written as an integer is. -/
  form : m.fraction ≠ none ∨ m.exponent ≠ none
  bound : m.significand < 0x10000000000000000
  value : Binary64.RoundsTo m.magnitude x

/-- **Every number but zero is written by its shortest digits.** -/
theorem exists_writes {x : Binary64} (hx : x.Canonical) (hm : 0 < x.mantissa) :
    ∃ m : Numeral, m.Writes x := by
  have hdigits := Binary64.shortest_digits_pos hx hm
  obtain ⟨w, f, e, h⟩ := exists_laidOut
    (whole_toDigits x.shortest.digits) (toDigits_head hdigits.ne')
    ((Nat.toDigits 10 x.shortest.digits).length + x.shortest.exponent)
  -- In whatever way the digits are laid out, they write the shortest decimal.
  have hvalue := h.value
  have hbound := h.bound
  rw [Nat.ofDigitChars_ten_toDigits] at hvalue hbound
  rw [add_sub_cancel_left] at hvalue
  refine ⟨⟨x.negative, values w, f.map values, e⟩, fun rest hrest => ?_, rfl,
    h.form.imp (by simp) id, ?_, ?_⟩
  · have hread := readNumeral_text x.negative e h.whole h.fraction hrest
    rw [Number.chars, Binary64.chars, if_neg hm.ne']
    dsimp only
    rw [h.text]
    cases hneg : x.negative <;> simpa [numeralText, hneg] using hread
  · rw [significand_values]
    have hle := Binary64.shortest_digits_le hx hm
    omega
  · rw [Numeral.magnitude, significand_values, power_values, hvalue]
    exact Binary64.shortest_roundsTo hx hm

/-- The two greatest numbers, for which there is no room for errors, are read. -/
theorem greatest_isSome {x : Binary64} (hm : x.mantissa = 2 * Binary64.leastNormal - 2
    ∨ x.mantissa = 2 * Binary64.leastNormal - 1) (he : x.exponent = Binary64.maxExponent)
    {m : Numeral} {rest : List Symbol}
    (h : readNumeral (symbols (Number.float x).chars) = .ok (m, rest)) : m.float?.isSome := by
  have hall : ∀ negative, ∀ mantissa ∈ [2 * Binary64.leastNormal - 2, 2 * Binary64.leastNormal - 1],
      (readNumeral (symbols (Number.float ⟨negative, mantissa, Binary64.maxExponent⟩).chars)
        |>.toOption.all fun r => r.1.float?.isSome) = true := by
    decide +kernel
  have hx := hall x.negative x.mantissa (by simpa using hm)
  rw [← he, show (⟨x.negative, x.mantissa, x.exponent⟩ : Binary64) = x from rfl, h] at hx
  exact hx

namespace Numeral

variable {m : Numeral} {x : Binary64}

/-- **The text of a number is never out of range.** -/
theorem Writes.float?_isSome (h : m.Writes x) (hx : x.Canonical) (hm : 0 < x.mantissa) :
    m.float?.isSome := by
  by_cases htop : x.mantissa + 2 < 2 * Binary64.leastNormal ∨ x.exponent < Binary64.maxExponent
  · rw [float?_eq h.bound]
    exact Binary64.ofParts_isSome hx hm h.bound h.value htop
  · have hlt := hx.mantissa_lt
    have hle := hx.exponent_le
    have hread := h.reads [] stops_nil
    rw [List.append_nil] at hread
    exact greatest_isSome (by omega) (by omega) hread

/-- The number nearest to what a numeral writes, or `none` if that is too great. -/
def nearest? (m : Numeral) : Option Binary64 :=
  Binary64.ofDecimal m.negative m.significand m.power

/-- Of what is written for a number, the number itself is the nearest one. -/
theorem Writes.nearest?_eq (h : m.Writes x) (hx : x.Canonical) (hm : 0 < x.mantissa) :
    m.nearest? = some x := by
  rw [nearest?, h.sign]
  exact Binary64.ofDecimal_eq hx hm h.value

/-- **A short decimal is read as the number nearest to it.** -/
theorem float?_of_short (hs : m.significand < 2 ^ 53)
    (he : m.power.natAbs ≤ Binary64.exactPower) : m.float? = m.nearest? := by
  rw [float?_eq (hs.trans (by norm_num)), nearest?, Binary64.ofParts_eq_ofDecimal hs he]

/-- **Reading gives proper numbers only.** -/
theorem value?_proper {n : Number} (h : m.value? = some n) : n.Proper := by
  have hfloat : m.float?.map Number.float = some n → n.Proper := by
    intro h
    obtain ⟨x, hx, rfl⟩ := Option.map_eq_some_iff.mp h
    exact Binary64.ofParts_canonical hx
  unfold value? at h
  dsimp only at h
  -- An integer that fits is an integer, and everything else is a float.
  split at h
  · split at h
    · split at h
      · next hfits =>
        obtain rfl := Option.some.inj h
        exact hfits.2
      · exact hfloat h
    · split at h
      · next hfits =>
        obtain rfl := Option.some.inj h
        exact hfits
      · exact hfloat h
  · exact hfloat h

end Numeral

/-- What is read for the text of a number that is not zero. -/
theorem Numeral.Writes.value?_eq {m : Numeral} {x : Binary64} (h : m.Writes x) (hx : x.Canonical)
    (hm : 0 < x.mantissa) : m.value? = some (Number.float x).echo := by
  have hread := h.reads [] stops_nil
  rw [List.append_nil] at hread
  obtain ⟨y, hy⟩ := Option.isSome_iff_exists.mp (h.float?_isSome hx hm)
  have hvalue : m.value? = some (.float y) := by
    rw [Numeral.value?_eq_float h.form, hy, Option.map_some]
  simp only [Number.echo, hread, hvalue, Option.getD_some]

/-- The number that a numeral writes, the nearest one if it is not an integer. Reading computes
another way, but no two numbers are written by one numeral for that. -/
def Numeral.written? (m : Numeral) : Option Number :=
  if m.fraction = none ∧ m.exponent = none then m.value? else m.nearest?.map .float

/-- The numeral is the one that the number is written by. -/
structure Numeral.Renders (m : Numeral) (n : Number) : Prop where
  reads : ∀ rest, Stops rest → readNumeral (symbols n.chars ++ rest) = .ok (m, rest)
  value : m.value? = some n.echo
  written : m.written? = some n

/-- Zero has a layout of its own, and reads back. -/
theorem exists_renders_zero (negative : Bool) :
    ∃ m : Numeral, m.Renders (.float (Binary64.zero negative)) := by
  have htext : (Number.float (Binary64.zero negative)).chars
      = numeralText negative ['0'] (some ['0']) none := by
    cases negative <;> rfl
  refine ⟨_, ⟨fun rest hrest => ?_, (value?_zero negative).trans ?_, ?_⟩⟩
  · rw [htext]
    exact readNumeral_text negative none ⟨by simp, by simp, fun _ => rfl⟩
      (by rintro _ ⟨⟩; exact ⟨by simp, by simp⟩) hrest
  · rw [Number.echo_zero]
  · cases negative <;> rfl

/-- **Every proper number is written by a numeral**, which is read as the echo of the number. -/
theorem Number.Proper.exists_renders {n : Number} (hn : n.Proper) :
    ∃ m : Numeral, m.Renders n := by
  cases n with
  | int n =>
    obtain ⟨m, hread, hform, hvalue⟩ := exists_numeral_int hn
    exact ⟨m, hread, hvalue, (if_pos hform).trans hvalue⟩
  | float x =>
    -- Zero has a text of its own; any other number is written by its shortest digits.
    by_cases hm : x.mantissa = 0
    · rw [Binary64.Canonical.eq_zero hn hm]
      exact exists_renders_zero x.negative
    · have hpos : 0 < x.mantissa := Nat.pos_of_ne_zero hm
      obtain ⟨m, h⟩ := exists_writes hn hpos
      refine ⟨m, h.reads, h.value?_eq hn hpos, ?_⟩
      rw [Numeral.written?, if_neg (not_and_or.mpr h.form), h.nearest?_eq hn hpos, Option.map_some]

/-- **The text of every proper number is read.** -/
theorem readNumeral_chars {n : Number} (hn : n.Proper) (hrest : Stops rest) :
    ∃ m : Numeral, readNumeral (symbols n.chars ++ rest) = .ok (m, rest)
      ∧ m.value? = some n.echo := by
  obtain ⟨m, h⟩ := hn.exists_renders
  exact ⟨m, h.reads rest hrest, h.value⟩

/-- **The text of a number tells it from all others**, and where it ends. -/
theorem Number.Proper.chars_inj {n n' : Number} (hn : n.Proper) (hn' : n'.Proper)
    {rest rest' : List Symbol} (hrest : Stops rest) (hrest' : Stops rest')
    (heq : symbols n.chars ++ rest = symbols n'.chars ++ rest') : n = n' ∧ rest = rest' := by
  obtain ⟨m, h⟩ := hn.exists_renders
  obtain ⟨m', h'⟩ := hn'.exists_renders
  have hread := h.reads rest hrest
  rw [heq, h'.reads rest' hrest', Except.ok.injEq, Prod.mk.injEq] at hread
  obtain ⟨rfl, rfl⟩ := hread
  exact ⟨Option.some.inj (h.written.symm.trans h'.written), rfl⟩

/-- What is read is a proper number again. -/
theorem Number.Proper.echo {n : Number} (hn : n.Proper) : n.echo.Proper := by
  obtain ⟨m, h⟩ := hn.exists_renders
  exact Numeral.value?_proper h.value

/-- **A number that is written with a short decimal reads back**: its digits are a number of 53
bits, and the exponent of ten that goes with them is 22 at most. -/
theorem Number.echo_of_short {x : Binary64} (hx : x.Canonical) {m : Numeral}
    (h : readNumeral (symbols (Number.float x).chars) = .ok (m, []))
    (hs : m.significand < 2 ^ 53) (he : m.power.natAbs ≤ Binary64.exactPower) :
    (Number.float x).echo = .float x := by
  by_cases hm : x.mantissa = 0
  · rw [hx.eq_zero hm, echo_zero]
  · have hpos : 0 < x.mantissa := Nat.pos_of_ne_zero hm
    obtain ⟨m', h'⟩ := exists_writes hx hpos
    -- The numeral that is read is the one that was written.
    have hread := h'.reads [] stops_nil
    rw [List.append_nil, h, Except.ok.injEq, Prod.mk.injEq] at hread
    obtain rfl := hread.1
    have hvalue := h'.value?_eq hx hpos
    rw [Numeral.value?_eq_float h'.form, Numeral.float?_of_short hs he, h'.nearest?_eq hx hpos,
      Option.map_some] at hvalue
    exact (Option.some.inj hvalue).symm

end CompositeCrd.Json
