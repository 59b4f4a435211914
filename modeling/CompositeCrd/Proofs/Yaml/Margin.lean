import CompositeCrd.Proofs.Json.NumeralText
import CompositeCrd.Proofs.Json.Numeral
import CompositeCrd.Proofs.Json.Value
import CompositeCrd.Proofs.Yaml.Lines
import CompositeCrd.Yaml.Writer

/-!
# The lines of written documents

Texts may hold lines of any kind, also three hyphens, and keep their line breaks when they are
written between apostrophes or as a block. But behind such a break the line is set in, so that
whatever starts a line is made by the writer: a key, an item's hyphen, a colon. That is why no
line of a written object begins with a mark (`unmarked_document`). The proof goes through the
document from its end to its beginning: each piece keeps up what holds of the text behind it.

A document ends with a line break (`endsWith_document`). It is a line feed unless the document
ends in a text that is written as a block and brings another one along (`leavesOpen`), and then it
is not (`LastLeaf.endsWith_feed_iff`).
-/

namespace CompositeCrd.Yaml

open Json (Value Number)

variable {cs rest : List Char} {b : Bool} {c : Char} {indent : Nat} {v u : Value}

/-! ### Pieces of a line -/

/-- Within a line, less is asked than at its start. -/
theorem Unmarked.within (h : Unmarked b cs) : Unmarked false cs := by
  cases cs with
  | nil => trivial
  | cons c cs => exact ⟨by simp, h.2⟩

/-- Characters within a line put no mark at the margin. -/
theorem unmarked_append (hcs : ∀ c ∈ cs, isBreak c = false) (h : Unmarked false rest) :
    Unmarked false (cs ++ rest) := by
  induction cs with
  | nil => exact h
  | cons c cs ih =>
    obtain ⟨hc, hcs⟩ := List.forall_mem_cons.mp hcs
    exact ⟨by simp, hc ▸ ih hcs⟩

/-- A line may start with anything but a hyphen. -/
theorem unmarked_cons_of_ne (hc : c ≠ '-') (h : Unmarked (isBreak c) rest) :
    Unmarked b (c :: rest) := by
  refine ⟨?_, h⟩
  rintro ⟨-, hmark⟩
  exact hc (List.cons_prefix_cons.mp hmark).1.symm

/-- A line break is no mark, and a line starts behind it. -/
theorem unmarked_cons_of_isBreak (hc : isBreak c = true) (h : Unmarked true rest) :
    Unmarked b (c :: rest) := by
  refine unmarked_cons_of_ne ?_ (hc ▸ h)
  rintro rfl
  exact absurd hc (by decide)

/-- A hyphen with a space behind it is no mark. -/
theorem unmarked_hyphen (h : Unmarked false rest) : Unmarked b ('-' :: ' ' :: rest) := by
  refine ⟨?_, unmarked_cons_of_ne (by decide) h⟩
  rintro ⟨-, hmark⟩
  exact absurd hmark (by simp [mark])

/-- Spaces break no line. -/
theorem isBreak_spaces (n : Nat) : ∀ c ∈ spaces n, isBreak c = false := by
  intro c hc
  obtain rfl := List.eq_of_mem_replicate hc
  decide

/-- An indented line is no mark. -/
theorem unmarked_spaces (hindent : 0 < indent) (h : Unmarked false rest) :
    Unmarked b (spaces indent ++ rest) := by
  obtain ⟨n, rfl⟩ := Nat.exists_eq_add_one.mpr hindent
  change Unmarked b (' ' :: (spaces n ++ rest))
  exact unmarked_cons_of_ne (by decide) (unmarked_append (isBreak_spaces n) h)

/-- What may stand at the margin may stand behind an indentation. -/
theorem unmarked_indented (b : Bool) (indent : Nat) (h : Unmarked true rest) :
    Unmarked b ((if b then spaces indent else []) ++ rest) := by
  cases b with
  | false => exact h.within
  | true =>
    rcases Nat.eq_zero_or_pos indent with rfl | hindent
    · exact h
    · exact unmarked_spaces hindent h.within

/-! ### Texts -/

/-- The lines between apostrophes are set in. -/
theorem unmarked_singleFrom (b : Bool) (cs : List Char) (hindent : 0 < indent)
    (h : Unmarked false rest) :
    Unmarked b (singleFrom indent b cs ++ rest) := by
  induction cs generalizing b with
  | nil =>
    cases b with
    | false => exact h
    | true => exact unmarked_spaces hindent h
  | cons c cs ih =>
    rw [singleFrom]
    cases hc : isBreak c with
    | true => exact unmarked_cons_of_isBreak hc (ih true)
    | false =>
      have hquoted : ∀ d ∈ (if c = '\'' then ['\'', '\''] else [c]), isBreak d = false := by
        split
        · simp; decide
        · simpa using hc
      rw [if_neg (by simp), List.append_assoc, List.append_assoc]
      -- At the start of a line there are spaces first, so that it does not matter what `c` is.
      have hline := unmarked_append hquoted (ih false)
      cases b with
      | false => exact hline
      | true => exact unmarked_spaces hindent hline

/-- A text in single quotes goes on behind an indentation, so no line of it is a mark. -/
theorem unmarked_single (hindent : 0 < indent) (h : Unmarked false rest) :
    Unmarked b (single indent cs ++ rest) := by
  have hquote : Unmarked false ('\'' :: rest) := unmarked_cons_of_ne (by decide) h
  have hfrom := unmarked_singleFrom false cs hindent hquote
  rw [single, List.cons_append, List.cons_append, List.append_assoc]
  exact unmarked_cons_of_ne (by decide) hfrom

/-- A character that stands in a line as it is. -/
def isInline (c : Char) : Bool :=
  isPrintable c && !isBreak c

/-- What stands within a line is printable. -/
theorem isPrintable_of_isInline (h : isInline c = true) : isPrintable c = true := by
  simp only [isInline, Bool.and_eq_true] at h
  exact h.1

/-- What stands within a line does not break it. -/
theorem isBreak_of_isInline (h : isInline c = true) : isBreak c = false := by
  simp only [isInline, Bool.and_eq_true, Bool.not_eq_true'] at h
  exact h.2

/-- Hexadecimal digits stand within a line. -/
theorem isInline_hexChar (n : Nat) : isInline (hexChar (n % 16)) = true := by
  have hdigit : ∀ i : Fin 16, isInline (hexChar i) = true := by decide
  exact hdigit ⟨n % 16, Nat.mod_lt n (by decide)⟩

/-- The digits of a code stand within a line. -/
theorem isInline_hexDigits (width n : Nat) : ∀ c ∈ hexDigits width n, isInline c = true := by
  induction width generalizing n with
  | zero => simp [hexDigits]
  | succ width ih =>
    intro c hc
    rcases List.mem_append.mp hc with hc | hc
    · exact ih _ c hc
    · obtain rfl := List.mem_singleton.mp hc
      exact isInline_hexChar n

/-- An escape stands in its line, although it may be that of a line break. -/
theorem isInline_escape (c : Char) : ∀ d ∈ escape c, isInline d = true := by
  have hcode : ∀ (kind : Char) (width : Nat), isInline kind = true →
      ∀ d ∈ kind :: hexDigits width c.toNat, isInline d = true :=
    fun _ _ hkind => List.forall_mem_cons.mpr ⟨hkind, isInline_hexDigits _ _⟩
  have hletter : ∀ e : Char, isInline e = true → ∀ d ∈ [e], isInline d = true :=
    fun _ he => List.forall_mem_singleton.mpr he
  have hif : ∀ {p : Prop} [Decidable p] {xs ys : List Char}, (∀ d ∈ xs, isInline d = true) →
      (∀ d ∈ ys, isInline d = true) → ∀ d ∈ if p then xs else ys, isInline d = true := by
    intro p _ xs ys hxs hys
    split
    · exact hxs
    · exact hys
  -- Fourteen characters have a letter for themselves, and the others a code of three lengths.
  unfold escape
  iterate 14 refine hif (hletter _ (by decide)) ?_
  exact hif (hcode _ _ (by decide)) (hif (hcode _ _ (by decide)) (hcode _ _ (by decide)))

/-- Whatever a character is, it is written within a line in double quotes. -/
theorem isInline_doubleChar (c : Char) : ∀ d ∈ doubleChar c, isInline d = true := by
  unfold doubleChar
  split
  · exact List.forall_mem_cons.mpr ⟨by decide, isInline_escape c⟩
  · next h =>
    refine List.forall_mem_singleton.mpr ?_
    simp only [Bool.or_eq_true, Bool.not_eq_true', not_or, Bool.not_eq_false,
      Bool.not_eq_true] at h
    rw [isInline, h.1.1.1, h.1.1.2]
    rfl

/-- Everything between quotation marks stands on one line. -/
theorem isInline_double (cs : List Char) : ∀ c ∈ double cs, isInline c = true := by
  have hquote : isInline '"' = true := by decide
  intro c hc
  rw [double, List.cons_append, List.mem_cons, List.mem_append, List.mem_flatMap,
    List.mem_singleton] at hc
  rcases hc with rfl | ⟨d, -, hd⟩ | rfl
  · exact hquote
  · exact isInline_doubleChar d c hd
  · exact hquote

/-- A text in double quotes is on one line. -/
theorem unmarked_double (h : Unmarked false rest) : Unmarked b (double cs ++ rest) := by
  have htail : ∀ c ∈ cs.flatMap doubleChar ++ ['"'], isBreak c = false :=
    fun c hc => isBreak_of_isInline (isInline_double cs c (List.mem_cons_of_mem _ hc))
  exact unmarked_cons_of_ne (by decide) (unmarked_append htail h)

/-- The lines of a block are set in. -/
theorem unmarked_literalLines (b : Bool) (cs : List Char) (hindent : 0 < indent)
    (h : Unmarked true rest) :
    Unmarked b (literalLines indent b cs ++ rest) := by
  induction cs generalizing b with
  | nil =>
    cases b with
    | false => exact h.within
    | true => exact h
  | cons c cs ih =>
    rw [literalLines]
    -- A line break puts what follows at the margin, any other character does not.
    cases hc : isBreak c with
    | true => exact unmarked_cons_of_isBreak hc (ih true)
    | false =>
      have hline : Unmarked false (c :: (literalLines indent false cs ++ rest)) :=
        ⟨by simp, hc ▸ ih false⟩
      rw [if_neg (by simp), List.append_assoc, List.cons_append]
      cases b with
      | false => exact hline
      | true => exact unmarked_spaces hindent hline

/-- The head of a block is on one line. -/
theorem isInline_literalHints (cs : List Char) : ∀ c ∈ literalHints cs, isInline c = true := by
  have hhint : ∀ c ∈ ['2', '+', '-'], isInline c = true := List.all_eq_true.mp rfl
  intro c hc
  refine hhint c ?_
  unfold literalHints at hc
  rcases List.mem_append.mp hc with hc | hc
  · split_ifs at hc <;> simp_all
  · split at hc <;> (try split_ifs at hc) <;> simp_all

/-- The lines of a block are indented, so none of them is a mark. -/
theorem unmarked_literal (hindent : 0 < indent) (h : Unmarked true rest) :
    Unmarked b (literal indent cs ++ rest) := by
  -- A block brings its last line break along, or gets one.
  have hend : Unmarked true ((if Style.endsWith isBreak cs then [] else ['\n']) ++ rest) := by
    split
    · exact h
    · exact unmarked_cons_of_ne (by decide) h
  have hlines := unmarked_literalLines true cs hindent hend
  rw [literal]
  simp only [List.append_assoc, List.cons_append]
  refine unmarked_cons_of_ne (by decide) (unmarked_append
    (fun c hc => isBreak_of_isInline (isInline_literalHints cs c hc)) ?_)
  exact unmarked_cons_of_ne (by decide) hlines

/-- A text that is written as it is may be written so. -/
theorem of_choose_plain (h : Style.choose cs = .plain) : Style.admitsPlain cs = true := by
  unfold Style.choose Style.quoted at h
  split_ifs at h with _ _ _ _ hplain
  exact hplain

/-- A text that may be written as it is has no line break. -/
theorem isBreak_of_admitsPlain (h : Style.admitsPlain cs = true) :
    ∀ c ∈ cs, isBreak c = false := by
  have hline : Style.isMultiline cs = false := by
    simp only [Style.admitsPlain, Bool.and_eq_true, Bool.not_eq_true'] at h
    exact h.1.1.1.1.2
  simpa [Style.isMultiline] using hline

/-- A plain text is never the beginning of a mark that ends behind it. -/
theorem not_mark_of_admitsPlain (h : Style.admitsPlain cs = true) (hc : c ≠ '-')
    (rest : List Char) :
    ¬mark <+: cs ++ c :: rest := by
  have hmark : Style.startsLikeMark cs = false := by
    simp only [Style.admitsPlain, Bool.and_eq_true, Bool.not_eq_true'] at h
    exact h.1.2
  intro hprefix
  -- A mark is longer than a text of two characters, and a text that begins with it is not plain.
  rcases cs with _ | ⟨d, _ | ⟨e, _ | ⟨f, cs⟩⟩⟩
  · simp [mark, List.cons_prefix_cons, hc.symm] at hprefix
  · simp [mark, List.cons_prefix_cons, hc.symm] at hprefix
  · simp [mark, List.cons_prefix_cons, hc.symm] at hprefix
  · obtain ⟨rfl, rfl, rfl⟩ : '-' = d ∧ '-' = e ∧ '-' = f := by
      simpa [mark, List.cons_prefix_cons] using hprefix
    exact absurd hmark (by simp [Style.startsLikeMark])

/-- A text that is written as it is does not look like a mark. -/
theorem unmarked_plain (h : Style.choose cs = .plain) (hc : c ≠ '-')
    (hrest : Unmarked false (c :: rest)) : Unmarked b (cs ++ c :: rest) := by
  have hplain := of_choose_plain h
  have hmark := not_mark_of_admitsPlain hplain hc rest
  have hline := unmarked_append (isBreak_of_admitsPlain hplain) hrest
  cases hcs : cs ++ c :: rest with
  | nil => exact absurd hcs (by simp)
  | cons d ds =>
    rw [hcs] at hmark hline
    exact ⟨fun h => hmark h.2, hline.2⟩

/-- **No text has a mark at the margin**, in whatever style it is written. -/
theorem unmarked_text (hindent : 0 < indent) (h : Unmarked true rest) :
    Unmarked b (text indent cs ++ rest) := by
  have hfeed : Unmarked false ('\n' :: rest) := unmarked_cons_of_ne (by decide) h
  unfold text
  -- One case for each style: the first three end with a line feed, a block brings its own.
  cases hstyle : Style.choose cs with
  | plain =>
    dsimp only
    rw [List.append_assoc]
    exact unmarked_plain hstyle (by decide) hfeed
  | single =>
    dsimp only
    rw [List.append_assoc]
    exact unmarked_single hindent hfeed
  | double =>
    dsimp only
    rw [List.append_assoc]
    exact unmarked_double hfeed
  | literal => exact unmarked_literal hindent h

/-- A key and its colon. -/
theorem unmarked_key (hindent : 0 < indent) (h : Unmarked false (':' :: rest)) :
    Unmarked b (key indent cs ++ ':' :: rest) := by
  unfold key
  cases hstyle : Style.choose cs with
  | plain => exact unmarked_plain hstyle (by decide) h
  | single => exact unmarked_single hindent h
  | double | literal => exact unmarked_double h

/-! ### Values -/

/-- No character of a number breaks a line. -/
theorem isBreak_of_isNumeralChar (h : Json.isNumeralChar c = true) : isBreak c = false := by
  cases hc : isBreak c with
  | false => rfl
  | true =>
    simp only [isBreak, Bool.or_eq_true, decide_eq_true_eq] at hc
    -- None of the five line breaks is in a numeral.
    rcases hc with (((rfl | rfl) | rfl) | rfl) | rfl <;> exact absurd h (by decide)

theorem isNumeralChar_toDigits (n : Nat) :
    ∀ c ∈ Nat.toDigits 10 n, Json.isNumeralChar c = true :=
  fun c hc => Json.isNumeralChar_of_isDigit (Json.isDigit_toDigits n c hc)

/-- The layout of a float has only characters of numerals. -/
theorem isNumeralChar_layout {ds : List Char} (hds : ∀ c ∈ ds, Json.isNumeralChar c = true)
    (point : Int) : ∀ c ∈ Binary64.layout [] ds point, Json.isNumeralChar c = true := by
  have htake : ∀ n, ∀ c ∈ ds.take n, Json.isNumeralChar c = true :=
    fun n c hc => hds c (List.mem_of_mem_take hc)
  have hdrop : ∀ n, ∀ c ∈ ds.drop n, Json.isNumeralChar c = true :=
    fun n c hc => hds c (List.mem_of_mem_drop hc)
  have hzeros : ∀ n, ∀ c ∈ List.replicate n '0', Json.isNumeralChar c = true := by
    intro n c hc
    obtain rfl := List.eq_of_mem_replicate hc
    decide
  -- A fraction is laid out in two ways, and so is the sign of an exponent.
  have hfraction : ∀ {p : Prop} [Decidable p] {xs ys : List Char},
      (∀ c ∈ xs, Json.isNumeralChar c = true) → (∀ c ∈ ys, Json.isNumeralChar c = true) →
      ∀ c ∈ if p then xs else ys, Json.isNumeralChar c = true := by
    intro p _ xs ys hxs hys
    split
    · exact hxs
    · exact hys
  have hpoint : Json.isNumeralChar '.' = true := by decide
  have hzero : ∀ c ∈ ['0'], Json.isNumeralChar c = true := List.all_eq_true.mp rfl
  have hminus : ∀ c ∈ ['-'], Json.isNumeralChar c = true := List.all_eq_true.mp rfl
  -- Without an exponent there are zeros before or behind the digits; with one there is a point
  -- behind the first digit.
  unfold Binary64.layout
  dsimp only
  split
  · split
    · simp only [List.cons_append, List.forall_mem_cons, List.forall_mem_append]
      exact ⟨by decide, hpoint, hzeros _, hds⟩
    · simp only [List.forall_mem_cons, List.forall_mem_append]
      exact ⟨⟨htake _, hzeros _⟩, hpoint, hfraction hzero (hdrop _)⟩
  · simp only [List.forall_mem_cons, List.forall_mem_append]
    refine ⟨⟨⟨htake _, hfraction (by simp) ?_⟩, by decide, hfraction hminus (by simp)⟩,
      isNumeralChar_toDigits _⟩
    exact List.forall_mem_cons.mpr ⟨hpoint, hdrop _⟩

/-- Numbers are written with characters of numerals. -/
theorem isNumeralChar_number (n : Number) : ∀ c ∈ number n, Json.isNumeralChar c = true := by
  have hsign : ∀ {cs : List Char}, (∀ c ∈ cs, Json.isNumeralChar c = true) →
      ∀ c ∈ '-' :: cs, Json.isNumeralChar c = true :=
    fun hcs => List.forall_mem_cons.mpr ⟨by decide, hcs⟩
  cases n with
  | int n =>
    rw [number, Number.chars]
    split
    · exact hsign (isNumeralChar_toDigits _)
    · exact isNumeralChar_toDigits _
    · simp
  | float x =>
    -- Apart from the sign, a float is zero or is laid out.
    have hmagnitude : ∀ c ∈ (if x.mantissa = 0 then ['0', '.', '0'] else Binary64.layout []
        (Nat.toDigits 10 x.shortest.digits)
        ((Nat.toDigits 10 x.shortest.digits).length + x.shortest.exponent)),
        Json.isNumeralChar c = true := by
      split
      · exact List.all_eq_true.mp rfl
      · exact isNumeralChar_layout (isNumeralChar_toDigits _) _
    rw [number, Binary64.chars]
    dsimp only
    split
    · exact hsign hmagnitude
    · exact hmagnitude

theorem unmarked_number (n : Number) (h : Unmarked false rest) :
    Unmarked false (number n ++ rest) :=
  unmarked_append (fun c hc => isBreak_of_isNumeralChar (isNumeralChar_number n c hc)) h

/-- A value that is no collection of others. -/
def isFlat : Value → Bool
  | .array (_ :: _) => false
  | .object (_ :: _) => false
  | _ => true

/-- No scalar has a mark at the margin. -/
theorem unmarked_scalar (hindent : 0 < indent) (h : Unmarked true rest) (v : Value) :
    Unmarked false (scalar indent v ++ rest) := by
  have hfeed : Unmarked false ('\n' :: rest) := unmarked_cons_of_ne (by decide) h
  -- Null, flags and empty collections are words.
  have hword : ∀ cs : List Char, cs.any isBreak = false →
      Unmarked false (cs ++ ['\n'] ++ rest) := by
    intro cs hcs
    rw [List.append_assoc]
    refine unmarked_append (fun c hc => ?_) hfeed
    exact eq_false_of_ne_true (List.any_eq_false.mp hcs c hc)
  cases v with
  | null => exact hword "null".toList (by decide)
  | bool b =>
    cases b with
    | true => exact hword "true".toList (by decide)
    | false => exact hword "false".toList (by decide)
  | number n =>
    rw [scalar, List.append_assoc]
    exact unmarked_number n hfeed
  | string s => exact unmarked_text hindent h
  | array => exact hword "[]".toList (by decide)
  | object => exact hword "\x7b\x7d".toList (by decide)

/-- A flat value stands on the line of its key or hyphen. -/
theorem child_of_isFlat {marked : Bool} (h : isFlat v = true) :
    child indent marked v = ' ' :: scalar (indent + 2) v := by
  -- A list or mapping with something in it is not flat.
  cases v with
  | array vs =>
    cases vs with
    | nil => rfl
    | cons v vs => exact absurd h (by simp [isFlat])
  | object ms =>
    cases ms with
    | nil => rfl
    | cons m ms => exact absurd h (by simp [isFlat])
  | _ => rfl

/-- Behind a mark there is a space. -/
theorem exists_child_marked (indent : Nat) (v : Value) :
    ∃ cs, child indent true v = ' ' :: cs := by
  -- Only lists and objects with something in them are not flat.
  cases hv : isFlat v with
  | true => exact ⟨_, child_of_isFlat hv⟩
  | false =>
    cases v with
    | array vs =>
      cases vs with
      | nil => exact absurd hv (by simp [isFlat])
      | cons v vs => exact ⟨_, by rw [child, if_pos rfl]⟩
    | object ms =>
      cases ms with
      | nil => exact absurd hv (by simp [isFlat])
      | cons m ms => exact ⟨_, by rw [child, if_pos rfl]⟩
    | _ => exact absurd hv (by simp [isFlat])

mutual

/-- **No line of a value is marked**, if none is behind it. -/
theorem unmarked_child : ∀ (v : Value) (indent : Nat) (marked : Bool) {rest : List Char},
    Unmarked true rest → Unmarked false (child indent marked v ++ rest)
  -- Behind a mark the first item stands on the same line, and else on the next.
  | .array (v :: vs), indent, marked, rest, h => by
    rw [child]
    cases marked with
    | true => exact unmarked_cons_of_ne (by decide) (unmarked_items (v :: vs) _ _ h)
    | false => exact unmarked_cons_of_ne (by decide) (unmarked_items (v :: vs) _ _ h)
  | .object (m :: ms), indent, marked, rest, h => by
    rw [child]
    cases marked with
    | true => exact unmarked_cons_of_ne (by decide) (unmarked_members (m :: ms) _ _ h)
    | false => exact unmarked_cons_of_ne (by decide) (unmarked_members (m :: ms) _ _ h)
  | .null, _, _, _, h | .bool _, _, _, _, h | .number _, _, _, _, h | .string _, _, _, _, h
  | .array [], _, _, _, h | .object [], _, _, _, h => by
    rw [child_of_isFlat rfl]
    exact unmarked_cons_of_ne (by decide) (unmarked_scalar (Nat.succ_pos _) h _)

/-- The items of a list have no mark at the margin. -/
theorem unmarked_items : ∀ (vs : List Value) (indent : Nat) (b : Bool) {rest : List Char},
    Unmarked true rest → Unmarked b (items indent b vs ++ rest)
  | [], indent, b, rest, h => by
    rw [items]
    cases b with
    | true => exact h
    | false => exact h.within
  | v :: vs, indent, b, rest, h => by
    -- Behind the item come the other items, each on lines of its own.
    have hitem := unmarked_child v indent true (unmarked_items vs indent true h)
    obtain ⟨cs, hcs⟩ := exists_child_marked indent v
    rw [items]
    simp only [List.append_assoc, List.cons_append]
    refine unmarked_indented b indent ?_
    rw [hcs] at hitem ⊢
    exact unmarked_hyphen hitem.2

/-- The members of an object have no mark at the margin. -/
theorem unmarked_members :
    ∀ (ms : List (String × Value)) (indent : Nat) (b : Bool) {rest : List Char},
      Unmarked true rest → Unmarked b (members indent b ms ++ rest)
  | [], indent, b, rest, h => by
    rw [members]
    cases b with
    | true => exact h
    | false => exact h.within
  | (k, v) :: ms, indent, b, rest, h => by
    have hrest := unmarked_members ms indent true h
    -- A long key stands behind a question mark, on lines of its own.
    by_cases hkey : Style.fitsKey k.toList = true
    · have hvalue := unmarked_cons_of_ne (b := false) (c := ':') (by decide)
        (unmarked_child v indent false hrest)
      rw [members, if_pos hkey]
      simp only [List.append_assoc, List.cons_append]
      exact unmarked_indented b indent (unmarked_key (Nat.succ_pos _) hvalue)
    · -- The value stands behind a colon on the line below the key.
      have hcolon := unmarked_cons_of_ne (b := true) (c := ':') (by decide)
        (unmarked_child v indent true hrest)
      have hvalue := unmarked_indented true indent hcolon
      rw [members, if_neg hkey]
      simp only [List.append_assoc, List.cons_append]
      refine unmarked_indented b indent (unmarked_cons_of_ne (c := '?') (by decide) ?_)
      exact unmarked_cons_of_ne (by decide) (unmarked_text (Nat.succ_pos _) hvalue)

end

/-- **No line of a written object is marked.** -/
theorem unmarked_document (ms : List (String × Value)) :
    Unmarked true (document (.object ms)) := by
  cases ms with
  | nil => exact unmarked_cons_of_ne (by decide) (unmarked_cons_of_ne (by decide)
      (unmarked_cons_of_ne (by decide) trivial))
  | cons m ms =>
    have hempty : Unmarked true [] := trivial
    have h := unmarked_members (m :: ms) 0 true hempty
    rwa [List.append_nil] at h

/-! ### The end of a document -/

/-- The last thing that is written of a value, which is no collection of others. -/
inductive LastLeaf : Value → Value → Prop
  | flat {v : Value} (h : isFlat v = true) : LastLeaf v v
  | array {vs : List Value} {v u : Value} (h : LastLeaf v u) : LastLeaf (.array (vs ++ [v])) u
  | object {ms : List (String × Value)} {k : String} {v u : Value} (h : LastLeaf v u) :
    LastLeaf (.object (ms ++ [(k, v)])) u

/-- Every value has a last leaf. -/
theorem exists_lastLeaf (v : Value) : ∃ u, LastLeaf v u := by
  induction v using Value.induction with
  | array vs ih =>
    -- The last leaf is that of the last item, if there is one.
    rcases List.eq_nil_or_concat vs with rfl | ⟨vs, v, rfl⟩
    · exact ⟨_, .flat rfl⟩
    · obtain ⟨u, hu⟩ := ih v (by simp)
      exact ⟨u, List.concat_eq_append ▸ .array hu⟩
  | object ms ih =>
    rcases List.eq_nil_or_concat ms with rfl | ⟨ms, ⟨k, v⟩, rfl⟩
    · exact ⟨_, .flat rfl⟩
    · obtain ⟨u, hu⟩ := ih (k, v) (by simp)
      exact ⟨u, List.concat_eq_append ▸ .object hu⟩
  | _ => exact ⟨_, .flat rfl⟩

/-- The last item is written last. -/
theorem items_concat (indent : Nat) (b : Bool) (vs : List Value) (v : Value) :
    ∃ front, items indent b (vs ++ [v]) = front ++ child indent true v := by
  induction vs generalizing b with
  | nil =>
    refine ⟨(if b then spaces indent else []) ++ ['-'], ?_⟩
    rw [List.nil_append, items, items]
    simp
  | cons w vs ih =>
    obtain ⟨front, hfront⟩ := ih true
    rw [List.cons_append, items, hfront, ← List.append_assoc]
    exact ⟨_, rfl⟩

/-- The value of the last member is written last. -/
theorem members_concat (indent : Nat) (b : Bool) (ms : List (String × Value)) (k : String)
    (v : Value) :
    ∃ front marked, members indent b (ms ++ [(k, v)]) = front ++ child indent marked v := by
  induction ms generalizing b with
  | nil =>
    rw [List.nil_append, members, members, List.append_nil]
    -- A key that is too long is written behind a question mark, and its value behind a colon of
    -- its own line.
    by_cases hkey : Style.fitsKey k.toList = true
    · refine ⟨(if b then spaces indent else []) ++ key (indent + 2) k.toList ++ [':'], false, ?_⟩
      rw [if_pos hkey]
      simp
    · refine ⟨(if b then spaces indent else []) ++ '?' :: ' ' :: text (indent + 2) k.toList
        ++ spaces indent ++ [':'], true, ?_⟩
      rw [if_neg hkey]
      simp
  | cons m ms ih =>
    obtain ⟨front, marked, hfront⟩ := ih true
    rw [List.cons_append, members, hfront, ← List.append_assoc]
    exact ⟨_, marked, rfl⟩

/-- A value ends with its last leaf. -/
theorem LastLeaf.child_eq (h : LastLeaf v u) (indent : Nat) (marked : Bool) :
    ∃ front n, child indent marked v = front ++ scalar n u := by
  induction h generalizing indent marked with
  -- A flat value is its own last leaf.
  | flat h => exact ⟨[' '], indent + 2, child_of_isFlat h⟩
  | @array vs v u _ ih =>
    cases hvs : vs ++ [v] with
    | nil => exact absurd hvs (by simp)
    | cons w ws =>
      rw [child, ← hvs]
      -- Behind a mark the items start on its line, and behind a key on the next.
      cases marked with
      | true =>
        obtain ⟨front, hfront⟩ := items_concat (indent + 2) false vs v
        obtain ⟨front', n, hchild⟩ := ih (indent + 2) true
        exact ⟨' ' :: front ++ front', n, by rw [if_pos rfl, hfront, hchild]; simp⟩
      | false =>
        obtain ⟨front, hfront⟩ := items_concat indent true vs v
        obtain ⟨front', n, hchild⟩ := ih indent true
        exact ⟨'\n' :: front ++ front', n, by rw [if_neg (by simp), hfront, hchild]; simp⟩
  | @object ms k v u _ ih =>
    cases hms : ms ++ [(k, v)] with
    | nil => exact absurd hms (by simp)
    | cons m ms' =>
      obtain ⟨front, marked', hfront⟩ :=
        members_concat (indent + 2) (!marked) ms k v
      obtain ⟨front', n, hchild⟩ := ih (indent + 2) marked'
      rw [child, ← hms, hfront, hchild]
      exact ⟨(if marked then ' ' else '\n') :: front ++ front', n, by simp⟩

/-- A document ends with its last leaf. -/
theorem LastLeaf.document_eq (h : LastLeaf v u) :
    ∃ front n, document v = front ++ scalar n u := by
  cases h with
  -- A flat document is a scalar.
  | flat h =>
    refine ⟨[], 2, ?_⟩
    cases v with
    | array vs => cases vs with
      | nil => rfl
      | cons v vs => exact absurd h (by simp [isFlat])
    | object ms => cases ms with
      | nil => rfl
      | cons m ms => exact absurd h (by simp [isFlat])
    | _ => rfl
  | @array vs v _ h =>
    obtain ⟨front, hfront⟩ := items_concat 0 true vs v
    obtain ⟨front', n, hchild⟩ := h.child_eq 0 true
    refine ⟨front ++ front', n, ?_⟩
    rw [List.append_assoc, ← hchild, ← hfront]
    -- The list is not empty, so the document is that of its items.
    cases hvs : vs ++ [v] with
    | nil => exact absurd hvs (by simp)
    | cons w ws => rfl
  | @object ms k v _ h =>
    -- It is the same for an object, whose last member is written last.
    obtain ⟨front, marked, hfront⟩ := members_concat 0 true ms k v
    obtain ⟨front', n, hchild⟩ := h.child_eq 0 marked
    refine ⟨front ++ front', n, ?_⟩
    rw [List.append_assoc, ← hchild, ← hfront]
    cases hms : ms ++ [(k, v)] with
    | nil => exact absurd hms (by simp)
    | cons m ms' => rfl

/-! ### Line ends -/

/-- A line break at the end of a block is written as it is. -/
theorem literalLines_concat (indent : Nat) (b : Bool) (hc : isBreak c = true) (cs : List Char) :
    ∃ front, literalLines indent b (cs ++ [c]) = front ++ [c] := by
  induction cs generalizing b with
  | nil => exact ⟨[], by rw [List.nil_append, literalLines, if_pos hc]; rfl⟩
  | cons d cs ih =>
    rw [List.cons_append, literalLines]
    split
    · obtain ⟨front, hfront⟩ := ih true
      exact ⟨d :: front, by rw [hfront, List.cons_append]⟩
    · obtain ⟨front, hfront⟩ := ih false
      exact ⟨(if b then spaces indent else []) ++ d :: front, by rw [hfront]; simp⟩

/-- A text in one line ends with a line feed. A block ends as the text does. -/
theorem text_eq_append (n : Nat) (cs : List Char) :
    ∃ front c, text n cs = front ++ [c] ∧ isBreak c = true := by
  have hfeed : isBreak '\n' = true := by decide
  unfold text
  split
  · -- Texts within a line get a line feed.
    exact ⟨_, _, rfl, hfeed⟩
  · exact ⟨_, _, rfl, hfeed⟩
  · exact ⟨_, _, rfl, hfeed⟩
  · rw [literal]
    by_cases hend : Style.endsWith isBreak cs = true
    · -- The text brings its last line break along, whichever it is.
      obtain ⟨ds, c, rfl, hc⟩ := exists_concat_of_endsWith hend
      obtain ⟨front, hfront⟩ := literalLines_concat n true hc ds
      rw [if_pos hend, List.append_nil, hfront]
      exact ⟨'|' :: literalHints (ds ++ [c]) ++ '\n' :: front, c, by simp, hc⟩
    · rw [if_neg hend]
      exact ⟨_, _, rfl, hfeed⟩

/-- Whether a text is written as a block whose last line ends with something else than a line feed.
The two separators are the only other line breaks that a block admits. -/
def leavesOpen (cs : List Char) : Bool :=
  Style.choose cs == .literal && Style.endsWith (fun c => c == '\u2028' || c == '\u2029') cs

/-- A text is written as a block only if all its characters can stand in a block. -/
theorem isPrintable_of_choose_literal (h : Style.choose cs = .literal) :
    ∀ c ∈ cs, isPrintable c = true := by
  -- A block is chosen for what one admits, and that has no escapes.
  have hadmits : Style.admitsLiteral cs = true := by
    unfold Style.choose Style.quoted at h
    by_contra hnot
    rw [if_neg hnot] at h
    split_ifs at h
  simp only [Style.admitsLiteral, Style.needsEscapes, Bool.and_eq_true, Bool.not_eq_true',
    Bool.or_eq_false_iff] at hadmits
  intro c hc
  have hall := List.any_eq_false.mp hadmits.1.2.1 c hc
  simpa using hall

/-- **A written text ends with a line feed, unless it leaves the line open.** -/
theorem endsWith_text (n : Nat) (cs : List Char) :
    Style.endsWith (· == '\n') (text n cs) = !leavesOpen cs := by
  unfold text leavesOpen
  cases hstyle : Style.choose cs with
  -- Only blocks may leave the line open.
  | plain | single | double => exact endsWith_concat _ _ _
  | literal =>
    by_cases hend : Style.endsWith isBreak cs = true
    · obtain ⟨ds, c, rfl, hc⟩ := exists_concat_of_endsWith hend
      obtain ⟨front, hfront⟩ := literalLines_concat n true hc ds
      -- Carriage returns and the next line character would be escaped.
      have hprintable := isPrintable_of_choose_literal hstyle c (by simp)
      have hbreak : c = '\n' ∨ c = '\u2028' ∨ c = '\u2029' := by
        simp only [isBreak, Bool.or_eq_true, decide_eq_true_eq] at hc
        rcases hc with (((rfl | rfl) | rfl) | rfl) | rfl
        · exact .inl rfl
        · exact absurd hprintable (by decide)
        · exact absurd hprintable (by decide)
        · exact .inr (.inl rfl)
        · exact .inr (.inr rfl)
      have hliteral : literal n (ds ++ [c])
          = '|' :: literalHints (ds ++ [c]) ++ '\n' :: front ++ [c] := by
        rw [literal, if_pos hend, List.append_nil, hfront]
        simp
      rw [hliteral, endsWith_concat, endsWith_concat]
      obtain rfl | rfl | rfl := hbreak <;> rfl
    · -- Without a line break at its end the text gets a line feed.
      have hnone : Style.endsWith (fun c => c == '\u2028' || c == '\u2029') cs = false := by
        by_contra hsome
        obtain ⟨ds, c, rfl, hc⟩ := exists_concat_of_endsWith (eq_true_of_ne_false hsome)
        rw [endsWith_concat] at hend
        refine hend ?_
        simp only [Bool.or_eq_true, beq_iff_eq] at hc
        obtain rfl | rfl := hc <;> decide
      rw [hnone]
      dsimp only
      rw [literal, if_neg hend]
      exact endsWith_concat _ _ _

/-- All scalars but texts end with a line feed. -/
theorem scalar_eq_append (n : Nat) (hu : ∀ s, u ≠ .string s) :
    ∃ front, scalar n u = front ++ ['\n'] := by
  cases u with
  | string s => exact absurd rfl (hu s)
  | null => exact ⟨"null".toList, rfl⟩
  | bool b => cases b with
    | true => exact ⟨"true".toList, rfl⟩
    | false => exact ⟨"false".toList, rfl⟩
  | number n => exact ⟨number n, rfl⟩
  | array => exact ⟨"[]".toList, rfl⟩
  | object => exact ⟨"\x7b\x7d".toList, rfl⟩

/-- What a value ends with is in its last leaf. -/
theorem LastLeaf.endsWith_document (h : LastLeaf v u) (ends : Char → Bool) :
    ∃ n, Style.endsWith ends (document v) = Style.endsWith ends (scalar n u) := by
  obtain ⟨front, n, hdocument⟩ := h.document_eq
  -- A leaf is written as some characters, so the last of them decides.
  have hscalar : ∃ front' c, scalar n u = front' ++ [c] := by
    by_cases htext : ∃ s, u = .string s
    · obtain ⟨s, rfl⟩ := htext
      obtain ⟨front', c, hc, -⟩ := text_eq_append n s.toList
      exact ⟨front', c, hc⟩
    · obtain ⟨front', hfeed⟩ := scalar_eq_append (u := u) n fun s hs => htext ⟨s, hs⟩
      exact ⟨front', '\n', hfeed⟩
  obtain ⟨front', c, hc⟩ := hscalar
  refine ⟨n, ?_⟩
  rw [hdocument, hc, ← List.append_assoc, endsWith_concat, endsWith_concat]

/-- **A document ends with a line feed unless it ends in a text that leaves the line open.** -/
theorem LastLeaf.endsWith_feed_iff (h : LastLeaf v u) :
    Style.endsWith (· == '\n') (document v) = true
      ↔ ∀ s : String, u = .string s → leavesOpen s.toList = false := by
  obtain ⟨n, hend⟩ := h.endsWith_document (· == '\n')
  rw [hend]
  -- The last leaf is a text, or something that gets a line feed.
  by_cases htext : ∃ s, u = .string s
  · obtain ⟨s, rfl⟩ := htext
    change Style.endsWith _ (text n s.toList) = true ↔ _
    rw [endsWith_text, Bool.not_eq_true']
    exact ⟨fun hs _ heq => Value.string.inj heq ▸ hs, fun hs => hs s rfl⟩
  · have hnone : ∀ s, u ≠ .string s := fun s hs => htext ⟨s, hs⟩
    obtain ⟨front, hfeed⟩ := scalar_eq_append n hnone
    rw [hfeed, endsWith_concat]
    exact iff_of_true rfl fun s hs => absurd hs (hnone s)

/-- **Every document ends with a line break.** -/
theorem endsWith_document (v : Value) : Style.endsWith isBreak (document v) = true := by
  obtain ⟨u, hu⟩ := exists_lastLeaf v
  obtain ⟨n, hend⟩ := hu.endsWith_document isBreak
  rw [hend]
  by_cases htext : ∃ s, u = .string s
  · obtain ⟨s, rfl⟩ := htext
    obtain ⟨front, c, hc, hbreak⟩ := text_eq_append n s.toList
    change Style.endsWith isBreak (text n s.toList) = true
    rw [hc, endsWith_concat, hbreak]
  · obtain ⟨front, hfeed⟩ := scalar_eq_append (u := u) n fun s hs => htext ⟨s, hs⟩
    rw [hfeed, endsWith_concat]
    rfl

end CompositeCrd.Yaml
