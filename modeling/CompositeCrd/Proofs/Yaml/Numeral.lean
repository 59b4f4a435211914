import CompositeCrd.Proofs.Json.NumeralText
import CompositeCrd.Proofs.Yaml.Passable

/-!
# JSON numerals in YAML

A numeral of JSON is one of YAML too, and mostly of the same number. The two part where YAML
takes an integer for what it writes: `-0` is the integer zero, while JSON takes it for the
negative zero among the floats, and an integer of more than 64 bits is refused, while JSON takes
it for a float. They part as well where JSON computes a float that is not the nearest one, which
YAML takes. All other numerals mean the same (`jsonValue?_resolve`), and numerals of few digits
are among them (`isNearest_of_short`).
-/

namespace CompositeCrd

open Json (Digits ExponentWritten IsExponentMark Numeral Number NumeralText Whole ofDigits pointed
  signed values)

variable {ds w x : List Char} {c : Char} {m : Numeral}

/-! ### The two values of a numeral -/

namespace Json.Numeral

/-- The integer that a numeral without point and exponent writes. -/
def int? (m : Numeral) : Option Int :=
  match m.fraction, m.exponent with
  | none, none => some (if m.negative then -(ofDigits m.whole : Int) else ofDigits m.whole)
  | _, _ => none

/-- A numeral with a point or an exponent is a float. -/
theorem value?_of_int?_eq_none (h : m.int? = none) : m.value? = m.float?.map .float := by
  obtain ⟨negative, whole, _ | fraction, _ | exponent⟩ := m
  · exact absurd h (by simp [int?])
  all_goals rfl

/-- An integer of 64 bits is one, but for the negative zero. -/
theorem value?_of_fits {n : Int} (h : m.int? = some n) (hfits : Number.fits n = true)
    (hzero : ¬(m.negative = true ∧ n = 0)) : m.value? = some (.int n) := by
  -- Without fraction and exponent there is an integer, with one of them there is none.
  obtain ⟨negative, whole, _ | fraction, _ | exponent⟩ := m
  · obtain rfl := Option.some.inj h
    cases negative with
    | false =>
      have hfits : Number.fits (ofDigits whole) = true := hfits
      simp [value?, hfits]
    -- Below zero, the magnitude has its own bound, and zero is left out.
    | true =>
      have hfits : Number.fits (-(ofDigits whole : Int)) = true := hfits
      have hne : ofDigits whole ≠ 0 := fun heq => hzero ⟨rfl, by simp [heq]⟩
      simp [value?, hfits, hne]
  all_goals exact absurd h (by simp [int?])

/-- An integer of more than 64 bits is a float for JSON. -/
theorem value?_of_not_fits {n : Int} (h : m.int? = some n) (hfits : Number.fits n = false) :
    m.value? = m.float?.map .float := by
  obtain ⟨negative, whole, _ | fraction, _ | exponent⟩ := m
  · obtain rfl := Option.some.inj h
    cases negative with
    | false =>
      have hfits : Number.fits (ofDigits whole) = false := hfits
      simp [value?, float?, hfits]
    | true =>
      have hfits : Number.fits (-(ofDigits whole : Int)) = false := hfits
      simp [value?, float?, hfits]
  all_goals exact absurd h (by simp [int?])

/-- A number that is read as a float is the float that is computed. -/
theorem float?_of_value? {x : Binary64} (h : m.value? = some (.float x)) : m.float? = some x := by
  -- A float is kept where the integer does not fit.
  have hkept {p : Prop} [Decidable p] {k : Int} {y : Option Binary64}
      (h : (if p then some (.int k) else y.map .float) = some (Number.float x)) : y = some x := by
    split at h
    · exact absurd h (by simp)
    · obtain ⟨x', hx, heq⟩ := Option.map_eq_some_iff.mp h
      exact Number.float.inj heq ▸ hx
  obtain ⟨negative, whole, _ | fraction, _ | exponent⟩ := m
  · dsimp only [value?] at h
    cases negative with
    | false => exact hkept (by rwa [if_neg (by decide)] at h)
    | true => exact hkept (by rwa [if_pos rfl] at h)
  all_goals
    obtain ⟨x', hx, heq⟩ := Option.map_eq_some_iff.mp h
    exact Number.float.inj heq ▸ hx

/-- A number that is kept as an integer is written as one. -/
theorem int?_of_value? {n : Int} (h : m.value? = some (.int n)) : m.int? = some n := by
  -- An integer is kept where it fits.
  have hkept {p : Prop} [Decidable p] {k : Int} {x : Option Binary64}
      (h : (if p then some (.int k) else x.map .float) = some (Number.int n)) : k = n := by
    split at h
    · exact Number.int.inj (Option.some.inj h)
    · exact absurd h (by simp)
  obtain ⟨negative, whole, _ | fraction, _ | exponent⟩ := m
  · dsimp only [value?] at h
    cases negative with
    | false =>
      rw [if_neg (by decide)] at h
      exact congrArg some (hkept h)
    | true =>
      rw [if_pos rfl] at h
      exact congrArg some (hkept h)
  all_goals exact absurd h (by simp [value?])

end Json.Numeral

namespace Yaml

/-! ### Digits -/

theorem ofDecimalDigits_eq (ds : List Char) : ofDecimalDigits ds = ofDigits (values ds) := by
  rw [ofDecimalDigits, ofDigits, values, List.foldl_map]

/-- A decimal digit is one in YAML. -/
theorem digit?_of_isDigit (hc : c.isDigit = true) :
    digit? 10 c = some (c.toNat - '0'.toNat) := by
  obtain ⟨h0, h9⟩ : '0' ≤ c ∧ c ≤ '9' := by simpa [Char.isDigit, Char.le_def] using hc
  have hle : c.toNat ≤ '9'.toNat := h9
  have hlt : c.toNat - 48 < 10 := by
    have hnine : '9'.toNat = 57 := rfl
    omega
  simp [digit?, h0, h9, hlt]

/-- Decimal digits are read as their number. -/
theorem digits?_of_isDigit (hne : ds ≠ []) (hds : ∀ c ∈ ds, c.isDigit = true) :
    digits? 10 ds = some (ofDigits (values ds)) := by
  -- Digit by digit, from any number read so far.
  have hfold (n : Nat) : ds.foldlM (fun n c => (digit? 10 c).map (n * 10 + ·)) n
      = some ((values ds).foldl (fun n d => n * 10 + d) n) := by
    clear hne
    induction ds generalizing n with
    | nil => rfl
    | cons c ds ih =>
      obtain ⟨hc, hrest⟩ := List.forall_mem_cons.mp hds
      rw [List.foldlM_cons, digit?_of_isDigit hc]
      exact ih hrest _
  rw [digits?]
  · exact hfold 0
  · exact hne

/-- A character that is no digit makes no number. -/
theorem digits?_eq_none (hc : c ∈ ds) (hnone : digit? 10 c = none) : digits? 10 ds = none := by
  -- The fold fails at the character, whatever stands in front.
  have hfold (n : Nat) : ds.foldlM (fun n c => (digit? 10 c).map (n * 10 + ·)) n = none := by
    induction ds generalizing n with
    | nil => exact absurd hc (by simp)
    | cons d ds ih =>
      rw [List.foldlM_cons]
      obtain rfl | hc := List.mem_cons.mp hc
      · rw [hnone]
        rfl
      · cases hd : digit? 10 d with
        | none => rfl
        | some k => exact ih hc _
  rw [digits?]
  · exact hfold 0
  · rintro rfl
    exact absurd hc (by simp)

/-! ### Integers -/

/-- Without a zero in front, digits are decimal. -/
theorem magnitude?_of_ne {cs : List Char} (hc : c ≠ '0') :
    magnitude? (c :: cs) = digits? 10 (c :: cs) := by
  unfold magnitude?
  split <;> first | rfl | simp_all

/-- The whole part of a numeral is read as its number, since no other digit follows a zero. -/
theorem magnitude?_whole (hw : Whole w) : magnitude? w = some (ofDigits (values w)) := by
  obtain ⟨c, cs, rfl⟩ := List.exists_cons_of_ne_nil hw.ne_nil
  by_cases hc : c = '0'
  · subst hc
    obtain rfl : cs = [] := by simpa using hw.alone rfl
    rfl
  · rw [magnitude?_of_ne hc]
    exact digits?_of_isDigit hw.ne_nil hw.isDigit

/-- What stands behind the whole digits of a numeral: nothing, or a point or the mark of an
exponent and more. -/
def IsPointOrMark (c : Char) : Prop :=
  c = '.' ∨ IsExponentMark c

/-- With a point or an exponent behind it, it is no integer. -/
theorem magnitude?_append_eq_none (hw : Whole w) (hc : IsPointOrMark c) :
    magnitude? (w ++ c :: x) = none := by
  obtain ⟨d, ds, rfl⟩ := List.exists_cons_of_ne_nil hw.ne_nil
  by_cases hd : d = '0'
  · subst hd
    obtain rfl : ds = [] := by simpa using hw.alone rfl
    obtain rfl | rfl | rfl := hc <;> rfl
  · rw [List.cons_append, magnitude?_of_ne hd]
    refine digits?_eq_none (c := c) (by simp) ?_
    obtain rfl | rfl | rfl := hc <;> rfl

/-- A text that begins with a digit. -/
def BeginsDigit (cs : List Char) : Prop :=
  ∃ d cs', cs = d :: cs' ∧ d.isDigit = true

/-- A digit is no sign. -/
theorem BeginsDigit.not_sign {cs : List Char} (h : BeginsDigit cs) :
    (∀ cs', cs = '-' :: cs' → False) ∧ ∀ cs', cs = '+' :: cs' → False := by
  obtain ⟨d, cs', rfl, hd⟩ := h
  constructor <;> rintro _ ⟨⟩ <;> exact absurd hd (by decide)

/-- The whole part begins with a digit. -/
theorem beginsDigit_whole (hw : Whole w) (cs : List Char) : BeginsDigit (w ++ cs) := by
  obtain ⟨d, ds, rfl⟩ := List.exists_cons_of_ne_nil hw.ne_nil
  exact ⟨d, ds ++ cs, rfl, hw.isDigit d List.mem_cons_self⟩

/-- The sign of an integer stands in front. -/
theorem int?_signed {cs : List Char} (negative : Bool) (hcs : BeginsDigit cs) :
    int? (signed negative cs)
      = (magnitude? cs).map fun n => if negative then -(n : Int) else n := by
  obtain ⟨hminus, hplus⟩ := hcs.not_sign
  cases negative with
  | true => rfl
  | false =>
    change int? cs = _
    rw [int?]
    · rfl
    · exact hminus
    · exact hplus

/-- The sign of a float stands in front. -/
theorem float?_signed {cs : List Char} (negative : Bool) (hcs : BeginsDigit cs) :
    float? (signed negative cs) = decimal? negative cs := by
  obtain ⟨hminus, hplus⟩ := hcs.not_sign
  cases negative with
  | true => rfl
  | false =>
    change float? cs = _
    rw [float?]
    · exact hminus
    · exact hplus

/-- A sign does not hide zeros in front. -/
theorem isPadded_signed {cs : List Char} (negative : Bool) (hcs : BeginsDigit cs) :
    isPadded (signed negative cs) = isPadded.padded cs := by
  obtain ⟨hminus, hplus⟩ := hcs.not_sign
  cases negative with
  | true => rfl
  | false =>
    change isPadded cs = _
    rw [isPadded]
    · exact hminus
    · exact hplus

/-! ### Floats -/

/-- The exponent of a numeral is read as what it writes. -/
theorem exponent?_written {e : Option Int} (h : ExponentWritten e x) :
    exponent? x = some (e.getD 0) := by
  -- At least one digit stands there, and nothing else.
  have hall {ds : List Char} (hds : Digits ds) : ¬(ds.isEmpty ∨ !ds.all Char.isDigit) := by
    simpa [hds.ne_nil] using hds.isDigit
  cases h with
  | absent => rfl
  | @unsigned c ds hc hds =>
    have hc : c = 'e' ∨ c = 'E' := hc
    obtain ⟨d, ds, rfl⟩ := List.exists_cons_of_ne_nil hds.ne_nil
    have hbegins : BeginsDigit (d :: ds) := ⟨d, ds, rfl, hds.isDigit d List.mem_cons_self⟩
    obtain ⟨hminus, hplus⟩ := hbegins.not_sign
    rw [exponent?, if_pos hc, if_neg (hall hds), ofDecimalDigits_eq]
    · rfl
    · exact hminus
    · exact hplus
  -- With a sign, the digits are taken from behind it.
  | @plus c ds hc hds =>
    have hc : c = 'e' ∨ c = 'E' := hc
    rw [exponent?, if_pos hc, if_neg (hall hds), ofDecimalDigits_eq]
    rfl
  | @minus c ds hc hds =>
    have hc : c = 'e' ∨ c = 'E' := hc
    rw [exponent?, if_pos hc, if_neg (hall hds), ofDecimalDigits_eq]
    rfl

/-- What follows the digits of a numeral begins with none. -/
theorem takeWhile_digits {rest : List Char} (hds : ∀ c ∈ ds, c.isDigit = true)
    (hrest : ∀ c, rest.head? = some c → c.isDigit = false) :
    (ds ++ rest).takeWhile Char.isDigit = ds ∧ (ds ++ rest).dropWhile Char.isDigit = rest := by
  have htail : rest.takeWhile Char.isDigit = [] ∧ rest.dropWhile Char.isDigit = rest := by
    cases rest with
    | nil => exact ⟨rfl, rfl⟩
    | cons c rest => simp [hrest c rfl]
  rw [List.takeWhile_append_of_pos hds, List.dropWhile_append_of_pos hds, htail.1, htail.2,
    List.append_nil]
  exact ⟨rfl, rfl⟩

/-- The decimal of a numeral is read as the float nearest to it. -/
theorem decimal?_written {f : Option (List Char)} {e : Option Int} (negative : Bool)
    (hw : Digits w) (hf : ∀ ds ∈ f, Digits ds) (he : ExponentWritten e x) :
    decimal? negative (w ++ (pointed f ++ x))
      = Binary64.ofDecimal negative (ofDigits (values w ++ (f.map values).getD []))
        (e.getD 0 - ((f.map values).getD []).length) := by
  -- What follows the digits, an exponent or nothing, is neither a digit nor a point.
  have hx : ∀ c, x.head? = some c → c.isDigit = false ∧ c ≠ '.' := by
    cases he with
    | absent => simp
    | unsigned hc | plus hc | minus hc =>
      rintro c ⟨⟩
      obtain rfl | rfl := hc <;> decide
  cases f with
  | none =>
    obtain ⟨htake, hdrop⟩ := takeWhile_digits hw.isDigit fun c hc => (hx c hc).1
    -- Without a fraction, what follows the whole part does not begin with a point.
    have hpoint : ∀ rest, x = '.' :: rest → False := by
      rintro rest rfl
      exact (hx '.' rfl).2 rfl
    simp only [pointed, Option.elim_none, List.nil_append, decimal?, htake, hdrop]
    rw [if_neg (by simp [hw.ne_nil]), exponent?_written he, ofDecimalDigits_eq, List.append_nil]
    simp
  | some ds =>
    -- With one, the point ends the whole part, and the exponent ends the fraction.
    have hpoint : ∀ c, ('.' :: (ds ++ x)).head? = some c → c.isDigit = false := by simp
    obtain ⟨htake, hdrop⟩ := takeWhile_digits hw.isDigit hpoint
    obtain ⟨htake', hdrop'⟩ := takeWhile_digits (hf ds rfl).isDigit fun c hc => (hx c hc).1
    simp only [pointed, Option.elim_some, List.cons_append, decimal?, htake, hdrop, htake', hdrop']
    rw [if_neg (by simp [hw.ne_nil]), exponent?_written he, ofDecimalDigits_eq, values,
      List.map_append]
    simp [values]

/-! ### What a numeral looks like -/

/-- Whether a text begins with a digit, maybe behind a minus sign. -/
def beginsNumeral : List Char → Bool
  | '-' :: d :: _ => d.isDigit
  | d :: _ => d.isDigit
  | [] => false

/-- What looks like a numeral begins like one. -/
theorem beginsNumeral_of_looks (h : NumeralText ds) : beginsNumeral ds = true := by
  obtain ⟨d, ds, rfl | rfl, hd, -⟩ := h
  · rw [beginsNumeral]
    · exact hd
    · rintro _ _ ⟨⟩
      exact absurd hd (by decide)
  · exact hd

/-- A numeral is none of the words that begin otherwise. -/
theorem not_mem_of_looks (h : NumeralText ds) {words : List String}
    (hwords : ∀ s ∈ words, beginsNumeral s.toList = false) : String.ofList ds ∉ words := by
  intro hmem
  have hfalse := hwords _ hmem
  rw [String.toList_ofList, beginsNumeral_of_looks h] at hfalse
  exact absurd hfalse (by simp)

/-! ### The value of a numeral -/

/-- Behind the whole digits of a numeral there is nothing, or it writes no integer. -/
theorem tail_cases {f : Option (List Char)} {e : Option Int} (he : ExponentWritten e x) :
    (f = none ∧ e = none ∧ pointed f ++ x = [])
      ∨ ¬(f = none ∧ e = none) ∧ ∃ c x', pointed f ++ x = c :: x' ∧ IsPointOrMark c := by
  cases f with
  | some ds => exact .inr ⟨by simp, '.', ds ++ x, rfl, .inl rfl⟩
  | none =>
    cases he with
    | absent => exact .inl ⟨rfl, rfl, rfl⟩
    | unsigned hc | plus hc | minus hc => exact .inr ⟨by simp, _, _, rfl, .inr hc⟩

/-- Only a single zero is a whole part of value zero. -/
theorem ofDigits_eq_zero (hw : Whole w) (h : ofDigits (values w) = 0) : w = ['0'] := by
  have hle (ds : List Nat) (n : Nat) : n ≤ ds.foldl (fun n d => n * 10 + d) n := by
    induction ds generalizing n with
    | nil => exact le_rfl
    | cons d ds ih => exact (by omega : n ≤ n * 10 + d).trans (ih _)
  obtain ⟨c, cs, rfl⟩ := List.exists_cons_of_ne_nil hw.ne_nil
  refine hw.alone ?_
  -- The first digit is not greater than the number.
  have hfirst : 0 * 10 + (c.toNat - '0'.toNat) ≤ ofDigits (values (c :: cs)) := hle (values cs) _
  have hdigit := hw.isDigit c List.mem_cons_self
  obtain ⟨hlow, -⟩ : '0' ≤ c ∧ c ≤ '9' := by simpa [Char.isDigit, Char.le_def] using hdigit
  have hlow : '0'.toNat ≤ c.toNat := hlow
  have hzero : c.toNat = '0'.toNat := by omega
  rw [List.head?_cons, ← Char.ofNat_toNat c, hzero]
  rfl

/-- A numeral is read as the integer that it writes, if it writes one. -/
theorem int?_written (h : m.WrittenAs ds) : int? ds = m.int? := by
  obtain ⟨negative, hw, hf, he⟩ := h
  next w f e x =>
  rw [int?_signed negative (beginsDigit_whole hw _)]
  -- Behind the digits there is nothing, or a point or exponent, which is no digit.
  obtain ⟨rfl, rfl, htail⟩ | ⟨hnot, c, x', htail, hc⟩ := tail_cases (f := f) he
  · rw [htail, List.append_nil, magnitude?_whole hw]
    rfl
  · rw [htail, magnitude?_append_eq_none hw hc]
    cases f with
    | some ds => rfl
    | none =>
      cases e with
      | some e => rfl
      | none => exact absurd ⟨rfl, rfl⟩ hnot

/-- YAML takes the nearest float. -/
theorem float?_written (h : m.WrittenAs ds) : float? ds = m.nearest? := by
  obtain ⟨negative, hw, hf, he⟩ := h
  rw [float?_signed negative (beginsDigit_whole hw _)]
  exact decimal?_written negative ⟨hw.ne_nil, hw.isDigit⟩ hf he

/-- No numeral of JSON has zeros in front. -/
theorem isPadded_written (h : m.WrittenAs ds) : isPadded ds = false := by
  obtain ⟨negative, hw, hf, he⟩ := h
  next w f e x =>
  rw [isPadded_signed negative (beginsDigit_whole hw _)]
  obtain ⟨d, w, rfl⟩ := List.exists_cons_of_ne_nil hw.ne_nil
  -- A zero in front stands alone among the whole digits.
  by_cases hd : d = '0'
  · subst hd
    obtain rfl : w = [] := by simpa using hw.alone rfl
    obtain ⟨-, -, htail⟩ | ⟨-, c, x', htail, hc⟩ := tail_cases (f := f) he
    · rw [htail]
      rfl
    · rw [htail]
      obtain rfl | rfl | rfl := hc <;> rfl
  · rw [List.cons_append, isPadded.padded]
    intro c cs heq
    exact hd (List.cons.inj heq).1

/-- Only `-0` writes the negative zero like an integer. -/
theorem eq_of_negative_zero (h : m.WrittenAs ds) (hnegative : m.negative = true)
    (hzero : m.int? = some 0) : ds = ['-', '0'] := by
  obtain ⟨negative, hw, hf, he⟩ := h
  next w f e x =>
  obtain rfl : negative = true := hnegative
  obtain ⟨rfl, rfl, htail⟩ | ⟨hnot, -⟩ := tail_cases (f := f) he
  · -- The digits write zero, and a numeral has but one zero for that.
    have hdigits : -(ofDigits (values w) : Int) = 0 := Option.some.inj hzero
    obtain rfl := ofDigits_eq_zero hw (by omega)
    rw [htail]
    rfl
  · cases f with
    | some ds => exact absurd hzero (by simp [Numeral.int?])
    | none =>
      cases e with
      | some e => exact absurd hzero (by simp [Numeral.int?])
      | none => exact absurd ⟨rfl, rfl⟩ hnot

/-- A numeral is something. -/
theorem isNull_written (h : m.WrittenAs ds) : (ds.isEmpty || isNull ds) = false := by
  have hlooks := h.looks
  have hempty : ds.isEmpty = false := by
    obtain ⟨d, ds', rfl | rfl, -⟩ := hlooks <;> rfl
  have hword : isNull ds = false := by
    have hnot : String.ofList ds ∉ ["null", "Null", "NULL", "~"] :=
      not_mem_of_looks hlooks (by decide)
    simpa [isNull] using hnot
  rw [hempty, hword]
  rfl

/-- A numeral looks like nothing but a number. -/
theorem resolve_written (h : m.WrittenAs ds) :
    resolve ds = (integer? ds).getD ((m.nearest?.map .float).getD .text) := by
  have hlooks := h.looks
  -- A numeral is none of the words.
  have hbool : bool? ds = none := by
    rw [bool?, if_neg (not_mem_of_looks hlooks (by decide)),
      if_neg (not_mem_of_looks hlooks (by decide))]
  -- Nor is it one of the words for infinities.
  have hfloat : floating? ds = m.nearest?.map .float := by
    rw [floating?, if_neg (not_mem_of_looks hlooks (by decide)),
      if_neg (not_mem_of_looks hlooks (by decide)),
      if_neg (not_mem_of_looks hlooks (by decide)), float?_written h]
  rw [resolve, isNull_written h, hbool, isPadded_written h, hfloat]
  cases integer? ds <;> rfl

/-- Whether JSON takes a numeral for an integer, or for the float that is nearest to it. -/
def isNearest (word : List Char) : Bool :=
  match Json.readNumeral (Json.symbols word) with
  | .ok (m, _) =>
    match m.value? with
    | some (.float x) => m.nearest? = some x
    | _ => true
  | .error _ => true

/-- Whether a numeral or a word has a value in YAML that is the same in JSON. -/
def isFaithful (word : List Char) : Bool :=
  isReadable word && word ≠ ['-', '0'] && isNearest word

/-- For a numeral, being nearest is a matter of its own float. -/
theorem isNearest_written (h : m.WrittenAs ds) {y : Binary64} (hy : m.value? = some (.float y)) :
    isNearest ds = true ↔ m.nearest? = some y := by
  have hread := Json.readNumeral_written h Json.stops_nil
  rw [List.append_nil] at hread
  simp only [isNearest, hread, hy, decide_eq_true_eq]

/-- **Few digits are read as the nearest float by JSON**: those of a number of 53 bits, with an
exponent of ten up to 22. -/
theorem isNearest_of_short (h : m.WrittenAs ds) (hs : m.significand < 2 ^ 53)
    (he : m.power.natAbs ≤ Binary64.exactPower) : isNearest ds = true := by
  have hread := Json.readNumeral_written h Json.stops_nil
  rw [List.append_nil] at hread
  cases hvalue : m.value? with
  | none => simp only [isNearest, hread, hvalue]
  | some n =>
    cases n with
    | int i => simp only [isNearest, hread, hvalue]
    | float y =>
      rw [isNearest_written h hvalue, ← Numeral.float?_of_short hs he]
      exact Numeral.float?_of_value? hvalue

/-- **A faithful numeral has the same value** in JSON and in YAML. -/
theorem jsonValue?_resolve {n : Number} (h : m.WrittenAs ds) (hn : m.value? = some n)
    (hfaithful : isFaithful ds = true) :
    (resolve ds).jsonValue? ds = some (.number n) := by
  obtain ⟨hmeant, hnearest⟩ := Bool.and_eq_true_iff.mp hfaithful
  obtain ⟨hreadable, hne⟩ := Bool.and_eq_true_iff.mp hmeant
  have hne : ds ≠ ['-', '0'] := by simpa using hne
  -- A numeral that is no integer of YAML is a float in both notations.
  have hfloat (hinteger : integer? ds = none) (hvalue : m.value? = m.float?.map .float) :
      (resolve ds).jsonValue? ds = some (.number n) := by
    obtain ⟨x, hx, rfl⟩ := Option.map_eq_some_iff.mp (hvalue ▸ hn)
    rw [resolve_written h, hinteger, (isNearest_written h hn).mp hnearest]
    rfl
  cases hint : m.int? with
  | none =>
    refine hfloat ?_ (Numeral.value?_of_int?_eq_none hint)
    rw [integer?, int?_written h, hint]
  | some i =>
    have hinteger : integer? ds = if -0x80000000000000000000000000000000 ≤ i
        ∧ i < 0x100000000000000000000000000000000 then some (.int i) else none := by
      rw [integer?, int?_written h, hint]
    -- YAML reads integers of 128 bits; JSON those that fit, so a readable integer is one that
    -- fits.
    by_cases hrange : -0x80000000000000000000000000000000 ≤ i
        ∧ i < 0x100000000000000000000000000000000
    · rw [if_pos hrange] at hinteger
      have hresolve : resolve ds = .int i := by rw [resolve_written h, hinteger]; rfl
      have hfits : Number.fits i = true := by
        by_contra hnot
        rw [isReadable, hresolve] at hreadable
        exact absurd hreadable (by simp [Dynamic.ofScalar?, hnot])
      have hvalue := Numeral.value?_of_fits hint hfits fun hzero =>
        hne (eq_of_negative_zero h hzero.1 (hzero.2 ▸ hint))
      obtain rfl := Option.some.inj (hvalue.symm.trans hn)
      rw [hresolve]
      exact if_pos hfits
    · rw [if_neg hrange] at hinteger
      refine hfloat hinteger (Numeral.value?_of_not_fits hint ?_)
      by_contra hfits
      refine hrange ?_
      simp only [Number.fits, Bool.not_eq_false, Bool.and_eq_true, decide_eq_true_eq] at hfits
      omega

end Yaml

end CompositeCrd
