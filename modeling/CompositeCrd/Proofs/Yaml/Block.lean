import CompositeCrd.Proofs.Yaml.Printable

/-!
# Written blocks

A block keeps its lines, so that reading it needs to find out two things only: how far the lines
are indented, and how many of the line breaks at the end belong to the text. Both may be given
in the head of the block, and the writer gives them whenever they do not show by themselves
(`blockHead_written`, `Chomps.text_eq`).

Between the two, the lines are read as they were (`blockLines_written`), and the whole block
is the text that was written (`readBlock_written`).
-/

namespace CompositeCrd.Yaml

open Input

variable {cs rest : List Char} {b : Bool} {c : Char} {index line column indent fuel : Nat}

/-! ### Empty lines -/

/-- Where a node ends there is no empty line and nothing that is set in. -/
theorem emptyLines_stops (indent index line column : Nat) (hrest : Stops rest) :
    emptyLines indent (locate index line column rest)
      = some ([], 0, locate index line column rest) := by
  cases rest with
  | nil => rfl
  | cons c rest =>
    obtain ⟨hblank, hbreak⟩ := hrest.head
    obtain ⟨hspace, htab⟩ : c ≠ ' ' ∧ c ≠ '\t' := by simpa [isBlank] using hblank
    rw [locate_cons hbreak, emptyLines]
    simp [hspace, htab, hbreak]

/-- Line breaks up to a line that is not empty. -/
theorem emptyLines_breaks {breaks tail : List Char} {reached : Nat} {s : Input} (index line : Nat)
    (hbreaks : ∀ c ∈ breaks, isPrintable c = true ∧ isBreak c = true)
    (htail : emptyLines indent (locate (index + breaks.length) (line + breaks.length) 0 tail)
      = some ([], reached, s)) :
    emptyLines indent (locate index line 0 (breaks ++ tail)) = some (breaks, reached, s) := by
  -- One empty line after the other.
  induction breaks generalizing index line with
  | nil => exact htail
  | cons c breaks ih =>
    obtain ⟨⟨hc, hbreak⟩, hrest⟩ := List.forall_mem_cons.mp hbreaks
    have hspace : c ≠ ' ' := by
      rintro rfl
      exact absurd hbreak (by decide)
    -- The break is no indentation, and the other empty lines follow.
    have hnext := ih (index + 1) (line + 1) hrest
      (by rwa [List.length_cons, Nat.add_comm _ 1, ← Nat.add_assoc, ← Nat.add_assoc] at htail)
    rw [List.cons_append, locate_cons_break hc hbreak, emptyLines]
    simp [hspace, (ne_of_isPrintable hc).1, hbreak, hnext]

/-- The indentation of a line, of which two spaces are known, or which shows by itself. -/
theorem emptyLines_spaces (index line : Nat) (hc : isBreak c = false)
    (hindent : indent = 2 ∨ indent = 0 ∧ c ≠ ' ') (htab : c ≠ '\t') (cs : List Char) :
    emptyLines indent (locate index line 0 (spaces 2 ++ c :: cs))
      = some ([], 2, locate (index + 2) line 2 (c :: cs)) := by
  change emptyLines indent (locate index line 0 (' ' :: ' ' :: c :: cs)) = _
  rw [locate_cons rfl, locate_cons rfl, locate_cons hc]
  rcases hindent with rfl | ⟨rfl, hspace⟩
  · simp [emptyLines, hc]
  · simp [emptyLines, hc, hspace, htab]

/-- A text without a line break at its end. -/
def Unbroken (cs : List Char) : Prop :=
  ∃ front c, cs = front ++ [c] ∧ isBreak c = false

/-- A text that ends inside a line goes on doing so behind any other. -/
theorem Unbroken.append (h : Unbroken cs) (front : List Char) : Unbroken (front ++ cs) := by
  obtain ⟨ds, c, rfl, hc⟩ := h
  exact ⟨front ++ ds, c, (List.append_assoc _ _ _).symm, hc⟩

/-- The line breaks at the end of a text are all that there are. -/
theorem Unbroken.eq_of_append {front front' breaks breaks' : List Char} (h : Unbroken front)
    (h' : Unbroken front') (hbreaks : ∀ c ∈ breaks, isBreak c = true)
    (hbreaks' : ∀ c ∈ breaks', isBreak c = true) (heq : front ++ breaks = front' ++ breaks') :
    front = front' ∧ breaks = breaks' := by
  -- If one text were the longer, it would end with line breaks of the other.
  have hclash : ∀ {f f' a : List Char}, Unbroken f → f = f' ++ a →
      (∀ c ∈ a, isBreak c = true) → a = [] := by
    rintro f f' a ⟨ds, c, rfl, hc⟩ hf ha
    rcases List.eq_nil_or_concat a with rfl | ⟨a, d, rfl⟩
    · rfl
    · rw [List.concat_eq_append, ← List.append_assoc] at hf
      obtain ⟨-, hcd⟩ := List.append_inj' hf rfl
      obtain rfl := (List.cons.inj hcd).1
      exact absurd (ha c (by simp)) (by simp [hc])
  rcases List.append_eq_append_iff.mp heq with ⟨a, rfl, rfl⟩ | ⟨a, rfl, rfl⟩
  · obtain rfl := hclash h' rfl fun c hc => hbreaks c (List.mem_append_left _ hc)
    simp
  · obtain rfl := hclash h rfl fun c hc => hbreaks' c (List.mem_append_left _ hc)
    simp

/-- Inside a line a character is written as it is. -/
theorem literalLines_cons (hc : isBreak c = false) (cs : List Char) :
    literalLines indent false (c :: cs) = c :: literalLines indent false cs := by
  rw [literalLines, if_neg (by simp [hc])]
  rfl

/-- A line without its indentation is written as it is. -/
theorem literalLines_line {front : List Char} (hfront : ∀ c ∈ front, isBreak c = false)
    (cs : List Char) :
    literalLines indent false (front ++ cs) = front ++ literalLines indent false cs := by
  induction front with
  | nil => rfl
  | cons c front ih =>
    obtain ⟨hc, hrest⟩ := List.forall_mem_cons.mp hfront
    rw [List.cons_append, literalLines_cons hc, ih hrest, List.cons_append]

/-- Empty lines are written with no indentation. -/
theorem literalLines_breaks {front : List Char} (hfront : ∀ c ∈ front, isBreak c = true)
    (cs : List Char) :
    literalLines indent true (front ++ cs) = front ++ literalLines indent true cs := by
  induction front with
  | nil => rfl
  | cons c front ih =>
    obtain ⟨hc, hrest⟩ := List.forall_mem_cons.mp hfront
    rw [List.cons_append, literalLines, if_pos hc, ih hrest, List.cons_append]

theorem literalLines_start (hc : isBreak c = false) (cs : List Char) :
    literalLines indent true (c :: cs) = spaces indent ++ literalLines indent false (c :: cs) := by
  rw [literalLines, if_neg (by simp [hc]), if_pos rfl, literalLines_cons hc]

/-- The rest of a line without its line break. -/
theorem restOfLine_locate {front : List Char} (index line column : Nat)
    (hfront : ∀ c ∈ front, isBreak c = false)
    (hc : isPrintable c = true) (hbreak : isBreak c = true) (rest : List Char) :
    restOfLine (locate index line column (front ++ c :: rest))
      = (front, ⟨c, index + front.length, line, column + front.length⟩
          :: locate (index + front.length + 1) (line + 1) 0 rest) := by
  induction front generalizing index column with
  | nil =>
    rw [List.nil_append, locate_cons_break hc hbreak]
    simp [restOfLine, hbreak, chars]
  | cons d front ih =>
    obtain ⟨hd, hrest⟩ := List.forall_mem_cons.mp hfront
    -- The induction is on the line: its first character is taken, the rest of it is found behind.
    have hnext := ih (index + 1) (column + 1) hrest
    rw [restOfLine, Prod.mk.injEq] at hnext
    rw [List.cons_append, locate_cons hd, restOfLine, List.takeWhile_cons_of_pos (by simp [hd]),
      List.dropWhile_cons_of_pos (by simp [hd]), hnext.2, List.length_cons, Prod.mk.injEq]
    refine ⟨?_, by simp [Nat.add_assoc, Nat.add_comm 1]⟩
    rw [chars, List.map_cons]
    exact congrArg (d :: ·) hnext.1

/-- The end of a block is where the indentation is. -/
theorem blockLines_end (hindent : indent ≠ 0) (folded : Bool) (fuel : Nat) (e : LineEnd)
    (rest : List Char) : blockLines folded indent (fuel + 1) e (locate index line 0 rest)
      = some ([], e, locate index line 0 rest) := by
  cases hs : locate index line 0 rest with
  | nil => rfl
  | cons x s =>
    have hmem : x ∈ (locate index line 0 rest).head? := by rw [hs]; rfl
    have hx : x.column = 0 := column_locate hmem
    rw [blockLines, if_pos (by omega)]

/-- One line of a block, and the empty lines behind it. -/
theorem blockLines_line {front breaks tail : List Char} {reached : Nat} {s : Input}
    (hne : front ≠ []) (hfront : ∀ c ∈ front, isBreak c = false) (hc : isPrintable c = true)
    (hbreak : isBreak c = true)
    (hempty : emptyLines indent (locate (index + front.length + 1) (line + 1) 0 tail)
      = some (breaks, reached, s)) (fuel : Nat) (e : LineEnd) :
    ∃ blank, blockLines false indent (fuel + 1) e (locate index line indent (front ++ c :: tail))
      = (blockLines false indent fuel { own := [c], blank, empty := breaks } s).map
          fun (more, last, rest) => (e.own ++ e.empty ++ front ++ more, last, rest) := by
  have hrest := restOfLine_locate index line indent hfront hc hbreak tail
  obtain ⟨d, front, rfl⟩ := List.exists_cons_of_ne_nil hne
  have hd : isBreak d = false := hfront d List.mem_cons_self
  refine ⟨isBlank d, ?_⟩
  rw [List.cons_append, locate_cons hd] at hrest ⊢
  -- One step of the reader: the line, its end, and the empty lines behind.
  rw [blockLines, if_neg (by simp), hrest]
  dsimp only
  rw [List.drop_one, List.tail_cons, hempty]
  rw [Option.map_eq_bind]
  rfl

/-- What a block puts behind a text that does not end with a line break. -/
def closing (cs : List Char) : List Char :=
  if Style.endsWith isBreak cs then [] else ['\n']

/-- The lines of a block as they come out: the text up to the line breaks at its end, and these. -/
structure BlockEnd (cs text : List Char) (last : LineEnd) : Prop where
  eq : text ++ (last.own ++ last.empty) = cs ++ closing cs
  unbroken : Unbroken text
  own : ∃ c, last.own = [c]
  breaks : ∀ c ∈ last.own ++ last.empty, isBreak c = true

/-- Only the end of a text decides on the break behind it. -/
theorem closing_append {front : List Char} (hne : cs ≠ []) :
    closing (front ++ cs) = closing cs := by
  unfold closing Style.endsWith
  rw [List.getLast?_append_of_ne_nil _ hne]

/-- A text begins with its empty lines, of which there may be none. -/
theorem exists_breaks (h : ∀ c ∈ cs, isPrintable c = true) : ∃ breaks more, cs = breaks ++ more
    ∧ (∀ c ∈ breaks, isPrintable c = true ∧ isBreak c = true)
    ∧ ∀ c ∈ more.head?, isBreak c = false := by
  obtain ⟨breaks, more, rfl, hbreaks, hmore⟩ := exists_run isBreak cs
  exact ⟨breaks, more, rfl, fun c hc => ⟨h c (List.mem_append_left _ hc), hbreaks c hc⟩, hmore⟩

/-- A line ends inside itself. -/
theorem unbroken_of_line (hne : cs ≠ []) (h : ∀ c ∈ cs, isBreak c = false) : Unbroken cs := by
  rcases List.eq_nil_or_concat cs with rfl | ⟨front, c, rfl⟩
  · exact absurd rfl hne
  · exact ⟨front, c, List.concat_eq_append, h c (by simp)⟩

/-- A break is written behind a text that ends inside a line. -/
theorem Unbroken.closing_eq (h : Unbroken cs) : closing cs = ['\n'] := by
  obtain ⟨front, c, rfl, hc⟩ := h
  rw [closing, endsWith_concat, hc]
  rfl

/-- None is written behind a text that ends in one. -/
theorem closing_of_break {breaks : List Char} (hbreak : isBreak c = true)
    (hbreaks : ∀ c ∈ breaks, isPrintable c = true ∧ isBreak c = true) (front : List Char) :
    closing (front ++ c :: breaks) = [] := by
  rw [closing_append (by simp), closing]
  rcases List.eq_nil_or_concat breaks with rfl | ⟨breaks, d, rfl⟩
  · exact if_pos hbreak
  · rw [List.concat_eq_append, ← List.cons_append, endsWith_concat, if_pos (hbreaks d (by simp)).2]

/-- The last line of a block that is not empty, and whatever line breaks there are behind it. -/
theorem blockLines_last {front breaks : List Char} (fuel index line : Nat) (hne : front ≠ [])
    (hfront : ∀ c ∈ front, isBreak c = false)
    (hbreaks : ∀ d ∈ c :: breaks, isPrintable d = true ∧ isBreak d = true) (hrest : Stops rest)
    (e : LineEnd) :
    ∃ blank, blockLines false 2 (fuel + 2) e
        (locate index line 2 (front ++ c :: (breaks ++ rest)))
      = some (e.own ++ e.empty ++ front, { own := [c], blank, empty := breaks },
          locate (index + front.length + 1 + breaks.length) (line + 1 + breaks.length) 0 rest) := by
  obtain ⟨⟨hc, hbreak⟩, hempties⟩ := List.forall_mem_cons.mp hbreaks
  -- The empty lines are taken with the line, and nothing is set in behind them.
  have hempty := emptyLines_breaks (index + front.length + 1) (line + 1) hempties
    (emptyLines_stops 2 _ _ 0 hrest)
  obtain ⟨blank, hline⟩ := blockLines_line hne hfront hc hbreak hempty (fuel + 1) e
  refine ⟨blank, hline.trans ?_⟩
  rw [blockLines_end (by decide)]
  simp

/-- The reader takes the lines of a block as they were, up to what stands behind it. It has the
end of the line in front at hand. -/
def ReadsLines (fuel : Nat) (cs rest : List Char) (index line : Nat) (e : LineEnd) : Prop :=
  ∃ text last index' line', line ≤ line' ∧ BlockEnd cs text last
    ∧ blockLines false 2 fuel e
        (locate index line 2 (literalLines 2 false cs ++ (closing cs ++ rest)))
      = some (e.own ++ e.empty ++ text, last, locate index' line' 0 rest)

section

variable {front breaks : List Char}

/-- A single line is read as it was, and the block ends it. -/
theorem readsLines_line (hne : front ≠ []) (hfront : ∀ c ∈ front, isBreak c = false)
    (hrest : Stops rest) (index line : Nat) (e : LineEnd) :
    ReadsLines (fuel + 2) front rest index line e := by
  have hunbroken := unbroken_of_line hne hfront
  -- The line feed behind the text is the one that the writer adds.
  have hfeed : ∀ d ∈ ['\n'], isPrintable d = true ∧ isBreak d = true :=
    List.forall_mem_singleton.mpr ⟨rfl, rfl⟩
  have hlines : literalLines 2 false front = front := by
    simpa [literalLines] using literalLines_line hfront []
  obtain ⟨blank, hread⟩ := blockLines_last fuel index line hne hfront hfeed hrest e
  rw [ReadsLines, hlines, hunbroken.closing_eq]
  refine ⟨front, _, _, _, ?_, ⟨?_, hunbroken, ⟨_, rfl⟩, ?_⟩, hread⟩
  · exact Nat.le_add_right_of_le (Nat.le_succ line)
  · rw [hunbroken.closing_eq]
    rfl
  · exact List.forall_mem_singleton.mpr rfl

/-- A line and line breaks at the end of the text are read as they were. -/
theorem readsLines_breaks (hne : front ≠ []) (hfront : ∀ c ∈ front, isBreak c = false)
    (hbreaks : ∀ d ∈ c :: breaks, isPrintable d = true ∧ isBreak d = true) (hrest : Stops rest)
    (index line : Nat) (e : LineEnd) :
    ReadsLines (fuel + 2) (front ++ c :: breaks) rest index line e := by
  obtain ⟨⟨-, hbreak⟩, hempties⟩ := List.forall_mem_cons.mp hbreaks
  obtain ⟨blank, hread⟩ := blockLines_last fuel index line hne hfront hbreaks hrest e
  have hclosing := closing_of_break hbreak hempties front
  -- The breaks at the end are written as they are, so nothing is set in behind the line.
  have hlines : literalLines 2 false (front ++ c :: breaks) = front ++ c :: breaks := by
    have hbehind : literalLines 2 true (breaks ++ []) = breaks ++ [] :=
      literalLines_breaks (fun d hd => (hempties d hd).2) []
    rw [List.append_nil] at hbehind
    rw [literalLines_line hfront, literalLines, if_pos hbreak, hbehind]
  rw [ReadsLines, hlines, hclosing]
  refine ⟨front, { own := [c], blank, empty := breaks }, index + front.length + 1 + breaks.length,
    line + 1 + breaks.length, by omega,
    ⟨?_, unbroken_of_line hne hfront, ⟨_, rfl⟩, fun d hd => (hbreaks d hd).2⟩, ?_⟩
  · rw [hclosing, List.append_nil]
    rfl
  · simpa using hread

/-- A line and line breaks in front of a line are read as they were, if what follows is. -/
theorem readsLines_append {d : Char} {more : List Char} (hne : front ≠ [])
    (hfront : ∀ c ∈ front, isBreak c = false)
    (hbreaks : ∀ d ∈ c :: breaks, isPrintable d = true ∧ isBreak d = true)
    (hd : isBreak d = false) (htab : d ≠ '\t')
    (h : ∀ index line e, ReadsLines fuel (d :: more) rest index line e) (index line : Nat)
    (e : LineEnd) :
    ReadsLines (fuel + 1) (front ++ c :: (breaks ++ d :: more)) rest index line e := by
  obtain ⟨⟨hc, hbreak⟩, hempties⟩ := List.forall_mem_cons.mp hbreaks
  -- The indentation of the next line is skipped together with the empty lines.
  have hempty := emptyLines_breaks (index + front.length + 1) (line + 1) hempties
    (emptyLines_spaces _ _ hd (.inl rfl) htab
      (literalLines 2 false more ++ (closing (d :: more) ++ rest)))
  obtain ⟨blank, hline⟩ := blockLines_line hne hfront hc hbreak hempty fuel e
  obtain ⟨text, last, i, l, hl, hend, hread⟩ :=
    h (index + front.length + 1 + breaks.length + 2) (line + 1 + breaks.length)
      { own := [c], blank, empty := breaks }
  -- Both texts end alike, so the same break is written behind them.
  have hclosing : closing (front ++ c :: (breaks ++ d :: more)) = closing (d :: more) := by
    rw [← List.cons_append, ← List.append_assoc, closing_append (by simp)]
  refine ⟨front ++ (c :: breaks ++ text), last, i, l, by omega,
    ⟨?_, (hend.unbroken.append _).append _, hend.own, hend.breaks⟩, ?_⟩
  · rw [hclosing]
    simp [hend.eq]
  · rw [literalLines_cons hd] at hread
    rw [hclosing, literalLines_line hfront, literalLines, if_pos hbreak,
      literalLines_breaks (fun d hd => (hempties d hd).2), literalLines_start hd,
      literalLines_cons hd]
    simp only [List.cons_append, List.append_assoc] at hline hread ⊢
    rw [hline, hread]
    simp

end

/-- **The lines of a block are read as they were**, from the first that is not empty. -/
theorem blockLines_written (hprintable : ∀ c ∈ cs, isPrintable c = true)
    (hne : cs ≠ []) (hhead : ∀ c ∈ cs.head?, isBreak c = false) (hfuel : cs.length < fuel)
    (hrest : Stops rest) (index line : Nat) (e : LineEnd) :
    ReadsLines fuel cs rest index line e := by
  -- A step of the reader takes a line and the empty ones behind it.
  induction fuel generalizing cs index line e with
  | zero => exact absurd hfuel (Nat.not_lt_zero _)
  | succ fuel ih =>
    -- The line ends at the first break or with the text.
    obtain ⟨front, more, rfl, hfront, hmore⟩ := exists_run (fun c => !isBreak c) cs
    simp only [Bool.not_eq_true', Bool.not_eq_false'] at hfront hmore
    have hfront_ne : front ≠ [] := by
      rintro rfl
      obtain ⟨c, cs, rfl⟩ := List.exists_cons_of_ne_nil hne
      exact absurd (hmore c rfl) (by simp [hhead c rfl])
    have hlength := List.length_pos_iff.mpr hfront_ne
    rw [List.length_append] at hfuel
    obtain ⟨fuel, rfl⟩ : ∃ n, fuel = n + 1 := ⟨fuel - 1, by omega⟩
    rcases more with _ | ⟨c, more⟩
    · rw [List.append_nil]
      exact readsLines_line hfront_ne hfront hrest index line e
    have hbreak : isPrintable c = true ∧ isBreak c = true := ⟨hprintable c (by simp), hmore c rfl⟩
    have hmore_printable : ∀ d ∈ more, isPrintable d = true :=
      fun d hd => hprintable d (by simp [hd])
    -- Behind the line and its break stand empty lines, and then another line or nothing.
    obtain ⟨breaks, more, rfl, hbreaks, hmore⟩ := exists_breaks hmore_printable
    have hall : ∀ d ∈ c :: breaks, isPrintable d = true ∧ isBreak d = true :=
      List.forall_mem_cons.mpr ⟨hbreak, hbreaks⟩
    rcases more with _ | ⟨d, more⟩
    · rw [List.append_nil]
      exact readsLines_breaks hfront_ne hfront hall hrest index line e
    · have hbehind : ∀ e ∈ d :: more, isPrintable e = true :=
        fun e he => hmore_printable e (List.mem_append_right _ he)
      have hd : isBreak d = false := hmore d rfl
      have hshorter : (d :: more).length < fuel + 1 := by
        simp only [List.length_append, List.length_cons] at hfuel ⊢
        omega
      exact readsLines_append hfront_ne hfront hall hd
        (ne_of_isPrintable (hbehind d List.mem_cons_self)).1
        (ih hbehind (List.cons_ne_nil d more) (fun e he => Option.some.inj he ▸ hd) hshorter)
        index line e

/-- The mark for what becomes of the line breaks at the end of a block. -/
def chompingMark : Chomping → List Char
  | .strip => ['-']
  | .clip => []
  | .keep => ['+']

/-- What is kept of the end of a block. -/
def Chomping.kept (last : LineEnd) : Chomping → List Char
  | .strip => []
  | .clip => last.own
  | .keep => last.own ++ last.empty

/-- What must become of the line breaks at the end of a block for the text to be the same. -/
inductive Chomps : Chomping → List Char → Prop
  | strip {cs : List Char} (h : Style.endsWith isBreak cs = false) : Chomps .strip cs
  | clip {cs : List Char} {c : Char} (h : Unbroken cs) (hc : isBreak c = true) :
    Chomps .clip (cs ++ [c])
  | keep {cs : List Char} (h : Style.endsWith isBreak cs = true) : Chomps .keep cs

/-- Whether the indentation of a block is given in its head. -/
def isHinted (cs : List Char) : Bool :=
  Style.startsWith (fun c => c == ' ' || isBreak c) cs

/-- The mark that is written tells how the end of the text has been chosen to be read, with the
increment in front of it when the first line does not show it. -/
theorem literalHints_eq (cs : List Char) : ∃ chomping, Chomps chomping cs
    ∧ literalHints cs = (if isHinted cs then ['2'] else []) ++ chompingMark chomping := by
  rcases List.eq_nil_or_concat cs with rfl | ⟨front, c, rfl⟩
  · exact ⟨.strip, .strip rfl, rfl⟩
  rw [List.concat_eq_append, literalHints, List.reverse_append, List.reverse_singleton,
    List.singleton_append]
  -- What is kept depends on the last two characters, of which there may be one.
  rcases List.eq_nil_or_concat front with rfl | ⟨front, d, rfl⟩
  · -- A text of one character: a lone break has to be kept.
    cases hc : isBreak c with
    | true => exact ⟨.keep, .keep hc, congrArg (_ ++ ·) (if_pos hc)⟩
    | false => exact ⟨.strip, .strip hc, congrArg (_ ++ ·) (if_neg (by simp [hc]))⟩
  · rw [List.concat_eq_append, List.reverse_append, List.reverse_singleton,
      List.singleton_append]
    cases hc : isBreak c with
    | false =>
      have hend : Style.endsWith isBreak (front ++ [d] ++ [c]) = false := by
        rw [endsWith_concat, hc]
      exact ⟨.strip, .strip hend, congrArg (_ ++ ·) (if_pos (by rw [hc]; rfl))⟩
    | true =>
      have hend : Style.endsWith isBreak (front ++ [d] ++ [c]) = true := by
        rw [endsWith_concat, hc]
      have hlast : (if (!isBreak c) = true then ['-'] else if isBreak d = true then ['+'] else [])
          = if isBreak d = true then ['+'] else [] := if_neg (by simp [hc])
      -- A single break at the end is clipped; of two or more all are kept.
      cases hd : isBreak d with
      | true => exact ⟨.keep, .keep hend, congrArg (_ ++ ·) (hlast.trans (if_pos hd))⟩
      | false =>
        exact ⟨.clip, .clip ⟨front, d, rfl, hd⟩ hc,
          congrArg (_ ++ ·) (hlast.trans (if_neg (by simp [hd])))⟩

/-- The head of a block is read as it was written. -/
theorem blockHead_written (hinted : Bool) (chomping : Chomping) (index line column : Nat)
    (rest : List Char) : ∃ index' column',
      blockHead (locate index line column
          ((if hinted then ['2'] else []) ++ chompingMark chomping ++ '\n' :: rest))
        = some (chomping, if hinted then 2 else 0, locate index' line column' ('\n' :: rest)) := by
  let marks := (if hinted then ['2'] else []) ++ chompingMark chomping
  refine ⟨index + marks.length, column + marks.length, ?_⟩
  -- There are six heads, and behind each the line ends, so that reading it is a computation.
  cases hinted <;> cases chomping <;> rfl

/-- A text that a block admits. -/
structure BlockText (cs : List Char) : Prop extends Literate cs where
  ne_nil : cs ≠ []

/-- What is written as a block begins with no break alone, and all of it may stand in one. -/
theorem blockText_of_choose (h : Style.choose cs = .literal) : BlockText cs := by
  unfold Style.choose Style.quoted at h
  split_ifs at h with _ hadmits
  simp only [Style.admitsLiteral, Bool.and_eq_true, Bool.not_eq_true', List.isEmpty_eq_false_iff]
    at hadmits
  exact { literate_iff.mp hadmits.1.2 with ne_nil := hadmits.1.1 }

/-- What comes out of a block: lines, or nothing but the line breaks of empty lines. -/
inductive BlockRead (cs : List Char) : List Char → LineEnd → Prop
  | lines {text : List Char} {last : LineEnd} (h : BlockEnd cs text last) : BlockRead cs text last
  | empty (h : ∀ c ∈ cs, isBreak c = true) : BlockRead cs [] { empty := cs }

/-- A text that ends in no break ends inside a line. -/
theorem unbroken_of_endsWith (hne : cs ≠ []) (h : Style.endsWith isBreak cs = false) :
    Unbroken cs := by
  rcases List.eq_nil_or_concat cs with rfl | ⟨front, c, rfl⟩
  · exact absurd rfl hne
  · rw [List.concat_eq_append, endsWith_concat] at h
    exact ⟨front, c, List.concat_eq_append, h⟩

/-- Empty lines alone do not. -/
theorem not_unbroken (h : ∀ c ∈ cs, isBreak c = true) : ¬Unbroken cs := by
  rintro ⟨front, c, rfl, hc⟩
  exact absurd (h c (by simp)) (by simp [hc])

theorem closing_of_endsWith (h : Style.endsWith isBreak cs = true) : closing cs = [] :=
  if_pos h

/-- The mark in the head keeps as much of the end of a block as the text has. -/
theorem Chomps.text_eq {chomping : Chomping} {text : List Char} {last : LineEnd}
    (h : Chomps chomping cs) (hne : cs ≠ []) (hread : BlockRead cs text last) :
    text ++ chomping.kept last = cs := by
  cases hread with
  | empty hbreaks =>
    cases h with
    | strip h => exact absurd (unbroken_of_endsWith hne h) (not_unbroken hbreaks)
    | @clip front c h =>
      exact absurd h (not_unbroken fun c hc => hbreaks c (List.mem_append_left _ hc))
    | keep h => rfl
  | lines hlines =>
    -- What was read as text ends inside a line, so where the breaks begin is settled.
    obtain ⟨heq, hunbroken, ⟨c, hown⟩, hbreaks⟩ := hlines
    cases h with
    -- Stripping: the break that was read is the one the writer added.
    | strip h =>
      have hcs := unbroken_of_endsWith hne h
      rw [hcs.closing_eq] at heq
      obtain ⟨rfl, -⟩ := hunbroken.eq_of_append hcs hbreaks (List.forall_mem_singleton.mpr rfl) heq
      exact List.append_nil text
    -- Clipping: the first break behind the text is its own, and it is the only one.
    | @clip front d h hd =>
      rw [closing_of_endsWith (by rw [endsWith_concat, hd]), List.append_nil] at heq
      obtain ⟨rfl, hend⟩ := hunbroken.eq_of_append h hbreaks (by simpa using hd) heq
      rw [hown, List.singleton_append] at hend
      obtain ⟨rfl, -⟩ := List.cons.inj hend
      exact congrArg (text ++ ·) hown
    | keep h => rwa [closing_of_endsWith h, List.append_nil] at heq

/-- Nothing is lost by setting the lines in. -/
theorem length_literalLines (indent : Nat) (b : Bool) (cs : List Char) :
    cs.length ≤ (literalLines indent b cs).length := by
  induction cs generalizing b with
  | nil => exact Nat.zero_le _
  | cons c cs ih =>
    rw [literalLines]
    split
    · exact Nat.succ_le_succ (ih true)
    · rw [List.length_append, List.length_cons, List.length_cons]
      exact Nat.le_add_left_of_le (Nat.succ_le_succ (ih false))

/-- A block whose head does not give the indentation begins with a character that shows it. -/
theorem of_isHinted_eq_false {breaks : List Char}
    (hbreaks : ∀ c ∈ breaks, isPrintable c = true ∧ isBreak c = true)
    (h : isHinted (breaks ++ cs) = false) : breaks = [] ∧ ∀ c ∈ cs.head?, c ≠ ' ' := by
  -- A break in front would be a reason for a hint, and so would be a blank.
  cases breaks with
  | cons c breaks =>
    have hc := (hbreaks c List.mem_cons_self).2
    simp [isHinted, Style.startsWith, hc] at h
  | nil =>
    refine ⟨rfl, fun c hc => ?_⟩
    rintro rfl
    rw [List.nil_append, isHinted, Style.startsWith, Option.mem_def.mp hc, Option.any_some] at h
    exact absurd h (by decide)

/-- **A block is read up to the text that it was written for**, line by line. -/
theorem blockLines_whole (index line : Nat) (hprintable : ∀ c ∈ cs, isPrintable c = true)
    (hrest : Stops rest) (hhint : indent = 2 ∨ indent = 0 ∧ isHinted cs = false) (hne : cs ≠ []) :
    ∃ breaks reached s text last index' line', line ≤ line' ∧ (indent = 0 → reached = 2)
      ∧ emptyLines indent (locate index line 0 (literalLines 2 true cs ++ (closing cs ++ rest)))
        = some (breaks, reached, s)
      ∧ blockLines false 2 (s.length + 1) { empty := breaks } s
        = some (text, last, locate index' line' 0 rest)
      ∧ BlockRead cs text last := by
  -- The empty lines in front are read before the indentation is found.
  obtain ⟨breaks, more, rfl, hbreaks, hmore⟩ := exists_breaks hprintable
  have hhint' : indent = 2 ∨ indent = 0 ∧ breaks = [] ∧ ∀ c ∈ more.head?, c ≠ ' ' :=
    hhint.imp_right fun h => ⟨h.1, of_isHinted_eq_false hbreaks h.2⟩
  rw [literalLines_breaks fun c hc => (hbreaks c hc).2, List.append_assoc]
  rcases more with _ | ⟨c, more⟩
  · -- There are empty lines only.
    rw [List.append_nil] at hne ⊢
    obtain ⟨c, breaks, rfl⟩ := List.exists_cons_of_ne_nil hne
    have hclosing : closing (c :: breaks) = [] :=
      closing_of_break (hbreaks c List.mem_cons_self).2
        (fun d hd => hbreaks d (List.mem_cons_of_mem _ hd)) []
    have hempty := emptyLines_breaks index line hbreaks
      (emptyLines_stops indent _ _ 0 hrest)
    rw [hclosing]
    refine ⟨_, 0, _, [], _, _, line + (c :: breaks).length, Nat.le_add_right _ _, ?_, hempty,
      blockLines_end (by decide) false _ _ rest, .empty fun d hd => (hbreaks d hd).2⟩
    rintro rfl
    simp at hhint'
  · -- Behind them stands the first line, which shows how far the text is set in.
    have hc : isBreak c = false := hmore c rfl
    have hprintable' : ∀ d ∈ c :: more, isPrintable d = true :=
      fun d hd => hprintable d (List.mem_append_right _ hd)
    have htab := (ne_of_isPrintable (hprintable' c List.mem_cons_self)).1
    have hclosing : closing (breaks ++ c :: more) = closing (c :: more) :=
      closing_append (by simp)
    have hempty := emptyLines_breaks index line hbreaks
      (emptyLines_spaces _ _ hc (hhint'.imp_right fun h => ⟨h.1, h.2.2 c rfl⟩) htab
        (literalLines 2 false more ++ (closing (c :: more) ++ rest)))
    -- The reader may take as many steps as there are characters left.
    have hlength : (c :: more).length < (locate (index + breaks.length + 2) (line + breaks.length) 2
        (literalLines 2 false (c :: more) ++ (closing (c :: more) ++ rest))).length + 1 := by
      have hle := length_literalLines 2 false (c :: more)
      rw [length_locate_append (Printable.literalLines hprintable') _ 0 0 0]
      omega
    obtain ⟨text, last, i, l, hl, hend, hread⟩ := blockLines_written hprintable'
      (by simp) (fun d hd => Option.some.inj hd ▸ hc) hlength hrest (index + breaks.length + 2)
      (line + breaks.length) { empty := breaks }
    refine ⟨breaks, 2, _, breaks ++ text, last, i, l, by omega, fun _ => rfl, ?_, hread,
      .lines ⟨?_, hend.unbroken.append _, hend.own, hend.breaks⟩⟩
    · rw [hclosing, literalLines_start hc, literalLines_cons hc]
      simpa using hempty
    · rw [hclosing, List.append_assoc, hend.eq, List.append_assoc]

/-- **A text in a block is read as it was.** -/
theorem readBlock_written (index line column : Nat) (hcs : BlockText cs) (hrest : Stops rest) :
    ∃ index' line', line < line' ∧ readBlock false 1 (locate index line column
        (literalHints cs ++ '\n' :: (literalLines 2 true cs ++ (closing cs ++ rest))))
      = some (cs, locate index' line' 0 rest) := by
  -- The marks behind the bar, then the break, then the lines.
  obtain ⟨chomping, hchomps, hhints⟩ := literalHints_eq cs
  obtain ⟨i, k, hhead⟩ := blockHead_written (isHinted cs) chomping index line column
    (literalLines 2 true cs ++ (closing cs ++ rest))
  have hgiven : (if isHinted cs then 2 else 0) = 2
      ∨ (if isHinted cs then 2 else 0) = 0 ∧ isHinted cs = false := by
    cases isHinted cs <;> simp
  obtain ⟨breaks, reached, s, text, last, i', l', hl, hreached, hempty, hlines, hread⟩ :=
    blockLines_whole (i + 1) (line + 1) hcs.printable hrest hgiven hcs.ne_nil
  have hnext : nextLine?
      (locate i line k ('\n' :: (literalLines 2 true cs ++ (closing cs ++ rest))))
      = some (locate (i + 1) (line + 1) 0 (literalLines 2 true cs ++ (closing cs ++ rest))) := by
    rw [locate_cons_break rfl rfl]
    rfl
  refine ⟨i', l', by omega, ?_⟩
  rw [readBlock, hhints, hhead]
  dsimp only [Option.bind_eq_bind, Option.bind_some]
  rw [hnext]
  dsimp only [Option.bind_some]
  -- The lines are set in by two, whether that is given or shows.
  have hincrement : (if (if isHinted cs = true then 2 else 0) = 0 then 0
      else 1 - 1 + if isHinted cs = true then 2 else 0) = if isHinted cs = true then 2 else 0 := by
    cases isHinted cs <;> rfl
  have hindent : (if (if isHinted cs = true then 2 else 0) = 0 then max (max reached 1) 1
      else if isHinted cs = true then 2 else 0) = 2 := by
    cases hhinted : isHinted cs with
    | true => rfl
    | false =>
      rw [hhinted] at hreached
      rw [hreached rfl]
      rfl
  rw [hincrement, hempty]
  dsimp only [Option.bind_some]
  rw [hindent, hlines]
  -- What has been read is put together as the mark says.
  have htext := hchomps.text_eq hcs.ne_nil hread
  cases chomping <;> exact congrArg (fun t => some (t, _)) htext

end CompositeCrd.Yaml
