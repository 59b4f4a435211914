import CompositeCrd.Proofs.Yaml.Gap
import CompositeCrd.Proofs.Yaml.Passable

/-!
# Written texts between quotes

A text between apostrophes or quotation marks is read as it was written (`readSingle_written`,
`readDouble_written`). Between quotation marks this holds of every text, since whatever would be
read as something else is written as an escape, and an escape stands for the character that it
was written for (`escaped?_written`). Between apostrophes there are no escapes, and `Style.choose`
sees to it that none is needed (`Apostrophic`).

Between quotes no line may begin with the mark of a document. The writer's lines cannot, because
they are indented.
-/

namespace CompositeCrd.Yaml

open Input

variable {cs rest : List Char} {b : Bool} {c : Char} {index line column indent fuel : Nat}

/-! ### Between apostrophes -/

/-- A text that apostrophes admit and that has no line feed. -/
structure Apostrophic (cs : List Char) : Prop extends Literate cs where
  /-- No line break is in front of a space. -/
  flush : cs.IsChain fun c d => isBreak c = true → d ≠ ' '
  /-- There is no line feed. -/
  feedless : '\n' ∉ cs

/-- The rest of a text that may stand in single quotes may do so. -/
theorem Apostrophic.behind (front : List Char) (h : Apostrophic (front ++ cs)) :
    Apostrophic cs where
  toLiterate := h.toLiterate.behind front
  flush := h.flush.right_of_append
  feedless hmem := h.feedless (List.mem_append_right _ hmem)

/-- What is written in single quotes may stand in them. -/
theorem apostrophic_of_choose (h : Style.choose cs = .single) : Apostrophic cs := by
  have hsingle : '\n' ∉ cs ∧ Style.admitsSingle cs = true := by
    unfold Style.choose Style.quoted at h
    split_ifs at h with hfeed _ _ hsingle _ hsingle
    · exact ⟨hfeed, hsingle⟩
    · exact ⟨hfeed, hsingle⟩
  obtain ⟨hfeed, hadmits⟩ := hsingle
  simp only [Style.admitsSingle, Bool.and_eq_true, Bool.not_eq_true'] at hadmits
  have hchain := hasPair_eq_false_iff.mp hadmits.2
  exact { literate_iff.mp hadmits.1 with flush := by simpa using hchain, feedless := hfeed }

/-- A run of line breaks ends in front of a character that is no space. -/
theorem Apostrophic.exists_breaks (h : Apostrophic (c :: cs)) (hc : isBreak c = true) :
    ∃ front more, cs = front ++ more
      ∧ (∀ d ∈ c :: front, isPrintable d = true ∧ isBreak d = true)
      ∧ ∀ d ∈ more.head?, isSpace d = false := by
  obtain ⟨front, more, rfl, hfront, hmore⟩ := exists_run isBreak cs
  rw [← List.cons_append] at h
  have hall : ∀ d ∈ c :: front, isBreak d = true := List.forall_mem_cons.mpr ⟨hc, hfront⟩
  refine ⟨front, more, rfl, fun d hd => ⟨h.printable d (List.mem_append_left _ hd), hall d hd⟩,
    fun d hd => ?_⟩
  -- No blank stands behind a break, and what is no break is no white space then.
  have hlast := List.getLast?_eq_some_getLast (List.cons_ne_nil c front)
  have hblank : d ≠ ' ' := (List.isChain_append.mp h.flush).2.2 _ hlast d hd
    (hall _ (List.getLast_mem _))
  exact isSpace_of_isPrintable
    (h.printable d (List.mem_append_right _ (List.mem_of_mem_head? hd))) hblank (hmore d hd)

/-- Nothing is lost by quoting. -/
theorem length_singleFrom (indent : Nat) (b : Bool) (cs : List Char) :
    cs.length ≤ (singleFrom indent b cs).length := by
  induction cs generalizing b with
  | nil => exact Nat.zero_le _
  -- A break may bring an indentation along, and a quote is doubled.
  | cons c cs ih =>
    rw [singleFrom]
    split
    · exact Nat.succ_le_succ (ih true)
    · have hrest := ih false
      have hc : 0 < (if c = '\'' then ['\'', '\''] else [c]).length := by
        split <;> exact Nat.succ_pos _
      rw [List.length_append, List.length_append, List.length_cons]
      omega

/-- Blanks are written as they are. -/
theorem singleFrom_spaces {front : List Char} (hfront : ∀ c ∈ front, c = ' ') (cs : List Char) :
    singleFrom indent false (front ++ cs) = front ++ singleFrom indent false cs := by
  induction front with
  | nil => rfl
  | cons c front ih =>
    obtain ⟨rfl, hrest⟩ := List.forall_mem_cons.mp hfront
    rw [List.cons_append, singleFrom, ih hrest]
    rfl

/-- Behind line breaks, a text goes on behind its indentation. -/
theorem singleFrom_breaks {front : List Char} (hne : front ≠ [])
    (hfront : ∀ c ∈ front, isPrintable c = true ∧ isBreak c = true)
    (hcs : ∀ c ∈ cs.head?, isSpace c = false) :
    singleFrom indent b (front ++ cs) = front ++ (spaces indent ++ singleFrom indent false cs) := by
  induction front generalizing b with
  | nil => exact absurd rfl hne
  | cons c front ih =>
    obtain ⟨⟨-, hc⟩, hrest⟩ := List.forall_mem_cons.mp hfront
    -- The breaks are taken one by one; behind the last one the line begins.
    rw [List.cons_append, singleFrom, if_pos hc, List.cons_append]
    congr 1
    cases front with
    | cons d front => exact ih (by simp) hrest
    | nil =>
      cases cs with
      | nil => simp [singleFrom]
      | cons d cs =>
        have hd : isBreak d = false := isBreak_of_not_isSpace (hcs d rfl)
        simp [singleFrom, hd]

/-- Other characters are written as they are, the quote twice. -/
theorem singleFrom_cons (hc : isSpace c = false) (cs : List Char) :
    singleFrom indent false (c :: cs)
      = (if c = '\'' then ['\'', '\''] else [c]) ++ singleFrom indent false cs := by
  rw [singleFrom, if_neg (by simp [isBreak_of_not_isSpace hc])]
  rfl

/-- What is written ends a gap, since it begins with no white space or with the closing quote. -/
theorem stops_singleFrom (indent : Nat) (hcs : ∀ c ∈ cs.head?, isSpace c = false)
    (rest : List Char) : Stops (singleFrom indent false cs ++ '\'' :: rest) := by
  intro c hc
  cases cs with
  -- The closing quote stops the gap.
  | nil =>
    obtain rfl := Option.some.inj hc
    rfl
  | cons d cs =>
    have hd : isSpace d = false := hcs d rfl
    rw [singleFrom_cons hd] at hc
    split at hc
    · obtain rfl := Option.some.inj hc
      rfl
    · obtain rfl := Option.some.inj hc
      exact hd

theorem readSingle_cons (fuel : Nat) (x : Located) (s : Input) : readSingle (fuel + 1) (x :: s)
    = (if atDocumentMark (x :: s) then none
    else if isSpace x.char then do
      let (g, rest) ← Gap.read 0 false (x :: s)
      prepend g.text (readSingle fuel rest)
    else if x.char ≠ '\'' then prepend [x.char] (readSingle fuel s)
    else match s with
      | y :: s' => if y.char = '\'' then prepend ['\''] (readSingle fuel s') else some ([], s)
      | [] => some ([], [])) :=
  rfl

/-- White space is read as a gap, which stands for its text. -/
theorem readSingle_gap {g : Gap} {s : Input} (hcolumn : 0 < column) (hc : isPrintable c = true)
    (hspace : isSpace c = true)
    (hgap : Gap.read 0 false (locate index line column (c :: cs)) = some (g, s)) :
    readSingle (fuel + 1) (locate index line column (c :: cs))
      = prepend g.text (readSingle fuel s) := by
  obtain ⟨s', hs'⟩ := exists_locate_cons hc index line column cs
  rw [hs'] at hgap ⊢
  rw [readSingle_cons, atDocumentMark_of_column hcolumn.ne', if_neg (by simp), if_pos hspace,
    hgap]
  rfl

/-- One character that is no gap. An apostrophe is read from two. -/
theorem readSingle_char (fuel index line : Nat) (hcolumn : 0 < column) (hc : isSpace c = false)
    (rest : List Char) :
    ∃ index' column', 0 < column' ∧ readSingle (fuel + 1)
        (locate index line column ((if c = '\'' then ['\'', '\''] else [c]) ++ rest))
      = prepend [c] (readSingle fuel (locate index' line column' rest)) := by
  -- A quote is written twice, and the reader takes both.
  by_cases hquote : c = '\''
  · subst hquote
    refine ⟨index + 2, column + 2, Nat.succ_pos _, ?_⟩
    change readSingle _ (locate _ _ _ ('\'' :: '\'' :: rest)) = _
    rw [locate_cons rfl, locate_cons rfl, readSingle_cons, atDocumentMark_of_column hcolumn.ne',
      if_neg (by simp), if_neg (by simp [hc]), if_neg (by simp)]
    rfl
  · refine ⟨index + 1, column + 1, Nat.succ_pos _, ?_⟩
    rw [if_neg hquote, List.singleton_append, locate_cons (isBreak_of_not_isSpace hc),
      readSingle_cons, atDocumentMark_of_column hcolumn.ne', if_neg (by simp),
      if_neg (by simp [hc]), if_pos hquote]

/-- **A text between apostrophes is read as it was.** -/
theorem readSingle_written (index line : Nat) (hindent : 0 < indent) (hcolumn : 0 < column)
    (hcs : Apostrophic cs) (hfuel : cs.length < fuel) (rest : List Char) :
    ∃ index' line' column', line ≤ line' ∧ readSingle fuel
        (locate index line column (singleFrom indent false cs ++ '\'' :: '\n' :: rest))
      = some (cs, locate index' line' column' ('\n' :: rest)) := by
  -- A step of the reader takes a whole gap, so the induction is on its steps.
  induction fuel generalizing cs index line column with
  | zero => exact absurd hfuel (Nat.not_lt_zero _)
  | succ fuel ih =>
    rcases cs with _ | ⟨c, cs⟩
    · -- The closing quote.
      refine ⟨index + 1, line, column + 1, le_rfl, ?_⟩
      rw [singleFrom, if_neg (by simp), List.nil_append, locate_cons rfl, readSingle_cons,
        atDocumentMark_of_column hcolumn.ne', locate_cons_break rfl rfl]
      rfl
    have hprintable := hcs.printable c List.mem_cons_self
    have hfuel' : cs.length < fuel := Nat.lt_of_succ_lt_succ hfuel
    by_cases hblank : c = ' '
    · -- Spaces inside a line are a gap that stands for itself.
      subst hblank
      obtain ⟨front, more, rfl, hall, hmore⟩ := hcs.exists_spaces
      rw [List.length_append] at hfuel'
      have hblanks : ∀ c ∈ ' ' :: front, isBlank c = true := fun c hc => by rw [hall c hc]; rfl
      have hgap := gap_blanks 0 index line column hblanks
        (stops_singleFrom indent hmore ('\n' :: rest))
      obtain ⟨i, l, k, hl, hread⟩ := ih (index + (' ' :: front).length) line
        (Nat.lt_add_right (' ' :: front).length hcolumn) (hcs.behind (' ' :: front)) (by omega)
      refine ⟨i, l, k, hl, ?_⟩
      rw [← List.cons_append, singleFrom_spaces hall, List.append_assoc]
      exact (readSingle_gap hcolumn hprintable rfl hgap).trans (by rw [hread]; rfl)
    by_cases hbreak : isBreak c = true
    · -- So are line breaks, with the indentation behind them.
      obtain ⟨front, more, rfl, hall, hmore⟩ := hcs.exists_breaks hbreak
      rw [List.length_append] at hfuel'
      have hfeed : '\n' ∉ c :: front := fun hmem => hcs.feedless (List.mem_append_left more hmem)
      have hgap := gap_breaks 0 index line column (by simp) hall
        (stops_singleFrom indent hmore ('\n' :: rest)) false indent
      obtain ⟨i, l, k, hl, hread⟩ := ih (index + (c :: front).length + indent)
        (line + (c :: front).length) hindent (hcs.behind (c :: front)) (by omega)
      refine ⟨i, l, k, by omega, ?_⟩
      rw [← List.cons_append, singleFrom_breaks (by simp) hall hmore, List.append_assoc,
        List.append_assoc]
      refine (readSingle_gap hcolumn hprintable (isSpace_of_isBreak hbreak) hgap).trans ?_
      rw [hread, gap_text_of_not_mem hfeed]
      rfl
    -- Any other character stands for itself, the quote for its double.
    have hspace := isSpace_of_isPrintable hprintable hblank (by simpa using hbreak)
    obtain ⟨i, k, hk, hchar⟩ := readSingle_char fuel index line hcolumn hspace
      (singleFrom indent false cs ++ '\'' :: '\n' :: rest)
    obtain ⟨i', l, k', hl, hread⟩ := ih i line hk (hcs.behind [c]) hfuel'
    refine ⟨i', l, k', hl, ?_⟩
    rw [singleFrom_cons hspace, List.append_assoc, hchar, hread]
    rfl

/-! ### Between quotation marks -/

/-- A digit that is written is read. -/
theorem hexDigit?_hexChar (n : Nat) : Json.hexDigit? (hexChar (n % 16)) = some (n % 16) := by
  have hdigit : ∀ i : Fin 16, Json.hexDigit? (hexChar i) = some i.val := by decide
  exact hdigit ⟨n % 16, Nat.mod_lt n (by decide)⟩

/-- Digits are read from the first on, but are written from the last on. -/
theorem hexNumber?_succ (width n : Nat) (s : Input) :
    hexNumber? (width + 1) n s = (hexNumber? width n s).bind fun (n, s) => hexNumber? 1 n s := by
  induction width generalizing n s with
  | zero => rfl
  | succ width ih =>
    cases s with
    | nil => rfl
    | cons x s =>
      -- The first digit is the same on both sides.
      rw [hexNumber?]
      conv_rhs => rw [hexNumber?]
      cases Json.hexDigit? x.char with
      | none => rfl
      | some d => exact ih _ _

/-- The digits that are written of a number are read as that number. -/
theorem hexNumber?_written (width n : Nat) (h : n < 16 ^ width) (index line column : Nat)
    (rest : List Char) :
    hexNumber? width 0 (locate index line column (hexDigits width n ++ rest))
      = some (n, locate (index + width) line (column + width) rest) := by
  induction width generalizing n rest with
  | zero =>
    obtain rfl : n = 0 := by simpa using h
    rfl
  | succ width ih =>
    have hdiv : n / 16 < 16 ^ width := Nat.div_lt_of_lt_mul (by rwa [Nat.pow_succ'] at h)
    have hbreak := isBreak_of_isInline (isInline_hexChar n)
    -- All digits but the last are those of the quotient.
    rw [hexNumber?_succ, hexDigits, List.append_assoc, ih _ hdiv]
    simp only [Option.bind_some, List.cons_append, List.nil_append]
    rw [locate_cons hbreak, hexNumber?, hexDigit?_hexChar]
    simp only [Option.bind_eq_bind, Option.bind_some, hexNumber?, Nat.div_add_mod']
    rfl

/-- A character is found by its number. -/
theorem charOf?_toNat (c : Char) : charOf? c.toNat = some c := by
  have hvalid : c.toNat < 0xD800 ∨ 0xDFFF < c.toNat ∧ c.toNat ≤ 0x10FFFF := by
    rcases c.valid with h | ⟨h, h'⟩
    · exact .inl h
    · exact .inr ⟨h, Nat.le_of_lt_succ h'⟩
  rw [charOf?, if_pos hvalid, Char.ofNat_toNat]

/-- As many digits are written as there is room for. -/
theorem length_hexDigits (width n : Nat) : (hexDigits width n).length = width := by
  induction width generalizing n with
  | zero => rfl
  | succ width ih => rw [hexDigits, List.length_append, ih, List.length_singleton]

/-- A code point is read as the character that it is written for. -/
theorem escaped?_code {e : Char} {width : Nat} (hwidth : c.toNat < 16 ^ width)
    (he : ∀ s, escaped? e s = escaped?.code s width) (index line column : Nat)
    (rest : List Char) :
    escaped? e (locate index line column (hexDigits width c.toNat ++ rest))
      = some (c, locate (index + (hexDigits width c.toNat).length) line
          (column + (hexDigits width c.toNat).length) rest) := by
  rw [he, escaped?.code, hexNumber?_written width _ hwidth, length_hexDigits]
  dsimp only [Option.bind_eq_bind, Option.bind_some]
  rw [charOf?_toNat]
  rfl

/-- **An escape stands for the character that it was written for.** -/
theorem escaped?_written (c : Char) (index line column : Nat) (rest : List Char) :
    ∃ e es, escape c = e :: es
      ∧ escaped? e (locate index line column (es ++ rest))
        = some (c, locate (index + es.length) line (column + es.length) rest) := by
  let Written (ds : List Char) : Prop := ∃ e es, ds = e :: es
    ∧ escaped? e (locate index line column (es ++ rest))
      = some (c, locate (index + es.length) line (column + es.length) rest)
  change Written (escape c)
  have hif : ∀ {p : Prop} [Decidable p] {xs ys : List Char}, (p → Written xs) →
      (¬p → Written ys) → Written (if p then xs else ys) := by
    intro p _ xs ys hxs hys
    split
    · exact hxs ‹_›
    · exact hys ‹_›
  have hletter : ∀ {e d : Char}, (∀ s, escaped? e s = some (d, s)) → c = d → Written [e] := by
    rintro e d he rfl
    exact ⟨e, [], rfl, he _⟩
  have hcode : ∀ {e : Char} {width : Nat}, (∀ s, escaped? e s = escaped?.code s width) →
      c.toNat < 16 ^ width → Written (e :: hexDigits width c.toNat) :=
    fun he hwidth => ⟨_, _, rfl, escaped?_code hwidth he index line column rest⟩
  unfold escape
  -- Fourteen characters have a letter for themselves, and the code of any other has as many digits
  -- as its size asks for.
  iterate 14 refine hif (hletter fun _ => rfl) fun _ => ?_
  refine hif (fun h => hcode (fun _ => rfl) (by omega)) fun _ => ?_
  refine hif (fun h => hcode (fun _ => rfl) (by omega)) fun _ => ?_
  exact hcode (fun _ => rfl) c.val.toNat_lt

/-- In double quotes a character is escaped or stands for itself. -/
theorem doubleChar_cases (c : Char) : doubleChar c = '\\' :: escape c
    ∨ doubleChar c = [c] ∧ isInline c = true ∧ c ≠ '"' ∧ c ≠ '\\' := by
  unfold doubleChar
  split
  · exact .inl rfl
  · next h =>
    simp only [Bool.or_eq_true, not_or, decide_eq_true_eq, Bool.not_eq_true', Bool.not_eq_true,
      Bool.not_eq_false] at h
    obtain ⟨⟨⟨hprintable, hbreak⟩, hquote⟩, hslash⟩ := h
    exact .inr ⟨rfl, by rw [isInline, hprintable, hbreak]; rfl, hquote, hslash⟩

/-- Nothing is lost by escaping. -/
theorem length_doubled (cs : List Char) : cs.length ≤ (cs.flatMap doubleChar).length := by
  refine length_le_flatMap fun c => ?_
  obtain hescape | ⟨hsame, -⟩ := doubleChar_cases c
  · simp [hescape]
  · simp [hsame]

/-- What is written ends a gap. -/
theorem stops_double (hcs : ∀ c ∈ cs.head?, c ≠ ' ') (rest : List Char) :
    Stops (cs.flatMap doubleChar ++ '"' :: rest) := by
  intro c hc
  cases cs with
  -- The closing quote stops the gap.
  | nil =>
    obtain rfl := Option.some.inj hc
    rfl
  | cons d cs =>
    have hd : d ≠ ' ' := hcs d rfl
    rw [List.flatMap_cons] at hc
    obtain hescape | ⟨hsame, hinline, -⟩ := doubleChar_cases d
    · rw [hescape] at hc
      obtain rfl := Option.some.inj hc
      rfl
    · rw [hsame] at hc
      obtain rfl := Option.some.inj hc
      exact isSpace_of_isInline hinline hd

/-- Spaces are written as they are. -/
theorem flatMap_spaces {front : List Char} (hfront : ∀ c ∈ front, c = ' ') :
    front.flatMap doubleChar = front := by
  induction front with
  | nil => rfl
  | cons c front ih =>
    obtain ⟨rfl, hrest⟩ := List.forall_mem_cons.mp hfront
    rw [List.flatMap_cons, ih hrest]
    rfl

/-- White space in double quotes is read as a gap too. -/
theorem readDouble_gap {g : Gap} {s : Input} (hcolumn : 0 < column) (hc : isPrintable c = true)
    (hspace : isSpace c = true)
    (hgap : Gap.read 0 false (locate index line column (c :: cs)) = some (g, s)) :
    readDouble (fuel + 1) (locate index line column (c :: cs))
      = prepend g.text (readDouble fuel s) := by
  obtain ⟨s', hs'⟩ := exists_locate_cons hc index line column cs
  rw [hs'] at hgap ⊢
  rw [readDouble_cons, atDocumentMark_of_column hcolumn.ne', if_neg (by simp), if_pos hspace,
    hgap]
  rfl

/-- One character other than a space. -/
theorem readDouble_char (fuel index line : Nat) (hcolumn : 0 < column) (hc : c ≠ ' ')
    (rest : List Char) :
    ∃ index' column', 0 < column' ∧
      readDouble (fuel + 1) (locate index line column (doubleChar c ++ rest))
        = prepend [c] (readDouble fuel (locate index' line column' rest)) := by
  obtain hescape | ⟨hsame, hinline, hquote, hslash⟩ := doubleChar_cases c
  · -- An escape is read as a whole, behind its backslash.
    obtain ⟨e, es, hes, hread⟩ := escaped?_written c (index + 2) line (column + 2) rest
    have hbreak : isBreak e = false :=
      isBreak_of_isInline (isInline_escape c e (hes ▸ List.mem_cons_self))
    refine ⟨index + 2 + es.length, column + 2 + es.length, by omega, ?_⟩
    rw [hescape, hes, List.cons_append, List.cons_append, locate_cons (by decide),
      locate_cons hbreak, readDouble_cons, atDocumentMark_of_column hcolumn.ne',
      if_neg (by simp)]
    dsimp only
    rw [if_neg (by decide), if_neg (by decide), if_neg (by simp), if_neg (by simp [hbreak]), hread]
    rfl
  · -- A character of its own is neither white space nor a quote nor a backslash.
    have hspace := isSpace_of_isInline hinline hc
    refine ⟨index + 1, column + 1, Nat.succ_pos _, ?_⟩
    rw [hsame, List.singleton_append, locate_cons (isBreak_of_isInline hinline), readDouble_cons,
      atDocumentMark_of_column hcolumn.ne', if_neg (by simp), if_neg (by simp [hspace]),
      if_neg hquote, if_pos hslash]

/-- **A text between quotation marks is read as it was**, whatever it is. -/
theorem readDouble_written (index line : Nat) (hcolumn : 0 < column) (hfuel : cs.length < fuel)
    (rest : List Char) : ∃ index' column', readDouble fuel
        (locate index line column (cs.flatMap doubleChar ++ '"' :: rest))
      = some (cs, locate index' line column' rest) := by
  induction fuel generalizing cs index column with
  | zero => exact absurd hfuel (Nat.not_lt_zero _)
  -- A step takes a run of blanks or one character, escaped or not.
  | succ fuel ih =>
    rcases cs with _ | ⟨c, cs⟩
    · refine ⟨index + 1, column + 1, ?_⟩
      rw [List.flatMap_nil, List.nil_append, locate_cons (by decide), readDouble_cons,
        atDocumentMark_of_column hcolumn.ne']
      rfl
    have hfuel' : cs.length < fuel := Nat.lt_of_succ_lt_succ hfuel
    by_cases hc : c = ' '
    · -- Spaces are the only white space that is no escape.
      subst hc
      obtain ⟨front, more, rfl, hfront, hmore⟩ := exists_spaces cs
      rw [List.length_append] at hfuel'
      have hall : ∀ c ∈ ' ' :: front, c = ' ' := List.forall_mem_cons.mpr ⟨rfl, hfront⟩
      have hblanks : ∀ c ∈ ' ' :: front, isBlank c = true := fun c hc => by rw [hall c hc]; rfl
      have hgap := gap_blanks 0 index line column hblanks (stops_double hmore rest)
      have hmore_fuel : more.length < fuel := by omega
      obtain ⟨i, k, hread⟩ := ih (index + (' ' :: front).length)
        (Nat.lt_add_right (' ' :: front).length hcolumn) hmore_fuel
      refine ⟨i, k, ?_⟩
      rw [← List.cons_append, List.flatMap_append, flatMap_spaces hall, List.append_assoc]
      exact (readDouble_gap hcolumn rfl rfl hgap).trans (by rw [hread]; rfl)
    · obtain ⟨i, k, hk, hchar⟩ := readDouble_char fuel index line hcolumn hc
        (cs.flatMap doubleChar ++ '"' :: rest)
      obtain ⟨i', k', hread⟩ := ih i hk hfuel'
      refine ⟨i', k', ?_⟩
      rw [List.flatMap_cons, List.append_assoc, hchar, hread]
      rfl

end CompositeCrd.Yaml
