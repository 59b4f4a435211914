import CompositeCrd.Proofs.Json.Numeral
import CompositeCrd.Proofs.Outcome

/-!
# The text of a numeral

`Numeral.WrittenAs m ds` says that `ds` is a text of the numeral `m`: a sign, whole digits, digits
behind the point and an exponent, with the latitude that the grammar leaves. Reading a numeral
takes such a text from the front of the document (`exists_of_readNumeral`), and takes the whole of
it when what follows does not continue it (`readNumeral_written`). Such a text looks like a numeral:
a digit and more characters of numerals, maybe with a minus sign in front (`NumeralText`).
-/

namespace CompositeCrd.Json

variable {s r rest : List Symbol} {ds x : List Char} {f : Option (List Char)} {e : Option ℤ}
  {ns : List ℕ} {m : Numeral}

/-! ### Texts of the parts -/

/-- Digits, of which there is at least one. -/
structure Digits (ds : List Char) : Prop where
  ne_nil : ds ≠ []
  isDigit : ∀ c ∈ ds, c.isDigit = true

/-- The mark in front of an exponent. -/
def IsExponentMark (c : Char) : Prop :=
  c = 'e' ∨ c = 'E'

/-- The text is one of the exponent. -/
inductive ExponentWritten : Option ℤ → List Char → Prop
  | absent : ExponentWritten none []
  | unsigned {c : Char} {ds : List Char} (hc : IsExponentMark c) (hds : Digits ds) :
      ExponentWritten (some (ofDigits (values ds))) (c :: ds)
  | plus {c : Char} {ds : List Char} (hc : IsExponentMark c) (hds : Digits ds) :
      ExponentWritten (some (ofDigits (values ds))) (c :: '+' :: ds)
  | minus {c : Char} {ds : List Char} (hc : IsExponentMark c) (hds : Digits ds) :
      ExponentWritten (some (-ofDigits (values ds))) (c :: '-' :: ds)

/-- A text with a minus sign in front if it is to be negative. -/
def signed (negative : Bool) (cs : List Char) : List Char :=
  (if negative then ['-'] else []) ++ cs

/-- The digits behind the point, with the point, if there are some. -/
def pointed (f : Option (List Char)) : List Char :=
  f.elim [] ('.' :: ·)

/-- The text is one of the numeral. -/
inductive Numeral.WrittenAs : Numeral → List Char → Prop
  | parts (negative : Bool) {w : List Char} {f : Option (List Char)} {e : Option ℤ}
      {x : List Char} (whole : Whole w) (fraction : ∀ ds ∈ f, Digits ds)
      (exponent : ExponentWritten e x) :
      WrittenAs ⟨negative, values w, f.map values, e⟩ (signed negative (w ++ (pointed f ++ x)))

/-- The text is one of a number, which there is none of if it is out of range. -/
def NumberWritten (n : Option Number) (ds : List Char) : Prop :=
  ∃ m : Numeral, m.WrittenAs ds ∧ n = m.value?

/-! ### What reading takes -/

/-- Digits that are read stand in front of what is left. -/
theorem exists_of_digits (h : digits s = (ns, r)) :
    ∃ ds, s = symbols ds ++ r ∧ ns = values ds ∧ ∀ c ∈ ds, c.isDigit = true := by
  fun_induction digits s generalizing ns with
  | case1 c s hc ns' rest heq ih =>
    obtain ⟨rfl, rfl⟩ := Prod.mk.inj h
    obtain ⟨ds, rfl, rfl, hds⟩ := ih heq
    exact ⟨c :: ds, rfl, rfl, List.forall_mem_cons.mpr ⟨hc, hds⟩⟩
  | case2 c s hc =>
    obtain ⟨rfl, rfl⟩ := Prod.mk.inj h
    exact ⟨[], rfl, rfl, by simp⟩
  | case3 s hs =>
    obtain ⟨rfl, rfl⟩ := Prod.mk.inj h
    exact ⟨[], rfl, rfl, by simp⟩

/-- If there must be digits, there is one. -/
theorem exists_of_someDigits (h : someDigits s = .ok (ns, r)) :
    ∃ ds, s = symbols ds ++ r ∧ ns = values ds ∧ Digits ds := by
  unfold someDigits at h
  split at h
  · exact absurd h (by simp)
  · exact absurd h (by simp)
  · next found hnone hsome =>
    have h := Except.ok.inj h
    obtain ⟨ds, rfl, rfl, hds⟩ := exists_of_digits h
    refine ⟨ds, rfl, rfl, fun hnil => ?_, hds⟩
    -- Without digits one of the two faults would have been found.
    subst hnil
    cases r with
    | nil => exact hnone h
    | cons x r => exact hsome x r h

/-- The digits in front of the point begin with a zero only if it is all of them. -/
theorem exists_of_wholeDigits (h : wholeDigits s = .ok (ns, r)) :
    ∃ w, s = symbols w ++ r ∧ ns = values w ∧ Whole w := by
  unfold wholeDigits at h
  split at h
  · exact absurd h (by simp)
  · next c s =>
    split at h
    · next hc =>
      split at h
      · exact absurd h (by simp)
      · obtain ⟨rfl, rfl⟩ := Prod.mk.inj (Except.ok.inj h)
        subst hc
        -- A zero stands alone.
        exact ⟨['0'], rfl, rfl, by simp, by simp, fun _ => rfl⟩
    · next hc =>
      obtain ⟨ds, heq, rfl, hds⟩ := exists_of_someDigits h
      -- The first digit is not a zero, as that case is done.
      obtain ⟨d, ds, rfl⟩ := List.exists_cons_of_ne_nil hds.ne_nil
      refine ⟨d :: ds, heq, rfl, hds.ne_nil, hds.isDigit, fun hhead => ?_⟩
      obtain rfl : c = d := Symbol.char.inj (List.cons.inj heq).1
      exact absurd (Option.some.inj hhead) hc
  · exact absurd h (by simp)

/-- A fraction that is read is a point and digits. -/
theorem exists_of_fractionDigits {f : Option (List ℕ)} (h : fractionDigits s = .ok (f, r)) :
    ∃ ds : Option (List Char), s = symbols (pointed ds) ++ r ∧ f = ds.map values
      ∧ ∀ ds' ∈ ds, Digits ds' := by
  unfold fractionDigits at h
  split at h
  · obtain ⟨⟨ns, s'⟩, hsome, h⟩ := bind_eq_ok.mp h
    obtain ⟨rfl, rfl⟩ := Prod.mk.inj (Except.ok.inj h)
    obtain ⟨ds, rfl, rfl, hds⟩ := exists_of_someDigits hsome
    exact ⟨some ds, rfl, rfl, by simpa using hds⟩
  · obtain ⟨rfl, rfl⟩ := Prod.mk.inj (Except.ok.inj h)
    exact ⟨none, rfl, rfl, by simp⟩

/-- An exponent that is read is a mark, a sign that may be missing, and digits. -/
theorem exists_of_exponentDigits {e : Option ℤ} (h : exponentDigits s = .ok (e, r)) :
    ∃ x, s = symbols x ++ r ∧ ExponentWritten e x := by
  unfold exponentDigits at h
  split at h
  · next c s =>
    split at h
    · next hc =>
      split at h
      next x negative s' hsign =>
      obtain ⟨⟨ns, s''⟩, hsome, h⟩ := bind_eq_ok.mp h
      obtain ⟨rfl, rfl⟩ := Prod.mk.inj (Except.ok.inj h)
      obtain ⟨ds, rfl, rfl, hds⟩ := exists_of_someDigits hsome
      -- The sign may be missing.
      split at hsign
      · split at hsign
        · next hminus =>
          obtain ⟨rfl, rfl⟩ := Prod.mk.inj hsign
          exact ⟨c :: '-' :: ds, by rw [hminus]; rfl, .minus hc hds⟩
        · split at hsign
          · next hplus =>
            obtain ⟨rfl, rfl⟩ := Prod.mk.inj hsign
            exact ⟨c :: '+' :: ds, by rw [hplus]; rfl, .plus hc hds⟩
          · obtain ⟨rfl, hs⟩ := Prod.mk.inj hsign
            exact ⟨c :: ds, by rw [hs]; rfl, .unsigned hc hds⟩
      · obtain ⟨rfl, rfl⟩ := Prod.mk.inj hsign
        exact ⟨c :: ds, rfl, .unsigned hc hds⟩
    · obtain ⟨rfl, rfl⟩ := Prod.mk.inj (Except.ok.inj h)
      exact ⟨[], rfl, .absent⟩
  · obtain ⟨rfl, rfl⟩ := Prod.mk.inj (Except.ok.inj h)
    exact ⟨[], rfl, .absent⟩

/-- **Reading a numeral takes a text of it** from the front of the document. -/
theorem exists_of_readNumeral (h : readNumeral s = .ok (m, r)) :
    ∃ ds, s = symbols ds ++ r ∧ m.WrittenAs ds := by
  unfold readNumeral at h
  split at h
  next x negative s₁ hsign =>
  obtain ⟨⟨ns, s₂⟩, hw, h⟩ := bind_eq_ok.mp h
  obtain ⟨⟨f, s₃⟩, hf, h⟩ := bind_eq_ok.mp h
  obtain ⟨⟨e, s₄⟩, he, h⟩ := bind_eq_ok.mp h
  obtain ⟨rfl, rfl⟩ := Prod.mk.inj (Except.ok.inj h)
  -- Each of the three parts goes on where the one before it ends.
  obtain ⟨w, rfl, rfl, whole⟩ := exists_of_wholeDigits hw
  obtain ⟨ds, rfl, rfl, fraction⟩ := exists_of_fractionDigits hf
  obtain ⟨x, rfl, exponent⟩ := exists_of_exponentDigits he
  refine ⟨_, ?_, .parts negative whole fraction exponent⟩
  have hsymbols : s = symbols (if negative then ['-'] else [])
      ++ (symbols w ++ (symbols (pointed ds) ++ (symbols x ++ s₄))) := by
    split at hsign
    · obtain ⟨rfl, rfl⟩ := Prod.mk.inj hsign
      rfl
    · obtain ⟨rfl, rfl⟩ := Prod.mk.inj hsign
      rfl
  rw [hsymbols]
  simp only [signed, symbols, List.map_append, List.append_assoc]

/-! ### What is read as a whole -/

/-- The exponent is read, whatever sign it has, and however its mark is written. -/
theorem exponentDigits_written (h : ExponentWritten e x) (hrest : Stops rest) :
    exponentDigits (symbols x ++ rest) = .ok (e, rest) := by
  have hmark : ∀ {c : Char}, IsExponentMark c → c = 'e' ∨ c = 'E' := fun h => h
  cases h with
  | absent => exact hrest.exponentDigits
  | @unsigned c ds hc hds =>
    have hdigits := someDigits_append hds.isDigit hds.ne_nil hrest.noDigit
    obtain ⟨d, ds, rfl⟩ := List.exists_cons_of_ne_nil hds.ne_nil
    have hd := hds.isDigit d List.mem_cons_self
    -- The first character behind the mark is a digit, and so no sign.
    have hminus : d ≠ '-' := by rintro rfl; exact absurd hd (by decide)
    have hplus : d ≠ '+' := by rintro rfl; exact absurd hd (by decide)
    simp only [symbols, List.map_cons, List.cons_append] at hdigits ⊢
    simp only [exponentDigits, if_pos (hmark hc), if_neg hminus, if_neg hplus, hdigits]
    rfl
  | @plus c ds hc hds =>
    have hdigits := someDigits_append hds.isDigit hds.ne_nil hrest.noDigit
    simp only [symbols, List.map_cons, List.cons_append] at hdigits ⊢
    simp only [exponentDigits, if_pos (hmark hc), Char.reduceEq, if_false, if_true, hdigits]
    rfl
  | @minus c ds hc hds =>
    have hdigits := someDigits_append hds.isDigit hds.ne_nil hrest.noDigit
    simp only [symbols, List.map_cons, List.cons_append] at hdigits ⊢
    simp only [exponentDigits, if_pos (hmark hc), if_true, hdigits]
    rfl

/-- An exponent begins with neither a digit nor a point. -/
theorem ExponentWritten.head_ne (h : ExponentWritten e x) (hrest : Stops rest) :
    NoDigit (symbols x ++ rest) ∧ (symbols x ++ rest).head? ≠ some (.char '.') := by
  cases h with
  | absent => exact ⟨hrest.noDigit, fun h => (hrest '.' h).2.1 rfl⟩
  | unsigned hc | plus hc | minus hc =>
    obtain rfl | rfl := hc <;> exact ⟨rfl, by simp [symbols]⟩

/-- **A text of a numeral is read as the numeral.** -/
theorem readNumeral_written (h : m.WrittenAs ds) (hrest : Stops rest) :
    readNumeral (symbols ds ++ rest) = .ok (m, rest) := by
  obtain ⟨negative, hw, hf, hx⟩ := h
  next w f e x =>
  have hexponent := exponentDigits_written hx hrest
  obtain ⟨hdigit, hpoint⟩ := hx.head_ne hrest
  rw [signed, ← List.append_assoc, symbols, List.map_append, List.append_assoc]
  cases f with
  | none => exact readNumeral_parts hw hdigit (fractionDigits_none hpoint) hexponent
  | some ds =>
    have hds := hf ds rfl
    refine readNumeral_parts hw rfl ?_ hexponent
    rw [pointed, Option.elim_some, List.cons_append, List.map_cons, List.map_append,
      List.cons_append, List.append_assoc]
    exact fractionDigits_append hds.isDigit hds.ne_nil hdigit

/-! ### What numerals look like -/

/-- Whether a character can stand in a numeral. -/
def isNumeralChar (c : Char) : Bool :=
  c.isDigit || c ∈ ['-', '+', '.', 'e', 'E']

/-- A text with the looks of a numeral: a digit and more characters of numerals, maybe with a
minus sign in front. -/
def NumeralText (ds : List Char) : Prop :=
  ∃ d ds', (ds = d :: ds' ∨ ds = '-' :: d :: ds') ∧ d.isDigit = true
    ∧ ∀ c ∈ ds', isNumeralChar c = true

theorem isNumeralChar_of_isDigit {c : Char} (hc : c.isDigit = true) : isNumeralChar c = true := by
  rw [isNumeralChar, hc, Bool.true_or]

theorem Digits.isNumeralChar (h : Digits ds) : ∀ c ∈ ds, isNumeralChar c = true :=
  fun c hc => isNumeralChar_of_isDigit (h.isDigit c hc)

theorem IsExponentMark.isNumeralChar {c : Char} (h : IsExponentMark c) :
    isNumeralChar c = true := by
  rcases h with rfl | rfl <;> rfl

theorem ExponentWritten.isNumeralChar {e : Option ℤ} (h : ExponentWritten e ds) :
    ∀ c ∈ ds, isNumeralChar c = true := by
  cases h with
  | absent => simp
  | unsigned hc hds => exact List.forall_mem_cons.mpr ⟨hc.isNumeralChar, hds.isNumeralChar⟩
  | plus hc hds | minus hc hds =>
    exact List.forall_mem_cons.mpr ⟨hc.isNumeralChar,
      List.forall_mem_cons.mpr ⟨rfl, hds.isNumeralChar⟩⟩

/-- **The text of a numeral looks like one.** -/
theorem Numeral.WrittenAs.looks (h : m.WrittenAs ds) : NumeralText ds := by
  obtain ⟨negative, whole, fraction, exponent⟩ := h
  next w f e x =>
  obtain ⟨d, w, rfl⟩ := List.exists_cons_of_ne_nil whole.ne_nil
  obtain ⟨hd, hw⟩ := List.forall_mem_cons.mp whole.isDigit
  have hf : ∀ c ∈ pointed f, isNumeralChar c = true := by
    cases f with
    | none => simp [pointed]
    | some ds => exact List.forall_mem_cons.mpr ⟨rfl, (fraction ds rfl).isNumeralChar⟩
  refine ⟨d, w ++ (pointed f ++ x), ?_, hd, ?_⟩
  · cases negative
    · exact .inl rfl
    · exact .inr rfl
  · simp only [List.forall_mem_append]
    exact ⟨fun c hc => isNumeralChar_of_isDigit (hw c hc), hf, exponent.isNumeralChar⟩

end CompositeCrd.Json
